import TORdex.Tdxl.Dataflow
import TORdex.Tdxl.Optimizer

/-!
# What the removal of dead code leaves

The pass computes the used values once and removes the operations whose value is not among them.  Their
inputs may lose their last use in that way.
-/

namespace TORdex.Optimizer

/-- Every value that is produced is used, or is the output. -/
def AllUsed (program : KirProgram) : Prop := ∀ x ∈ outputs program.ops, x ∈ program.usedValues

/-- The operation produces a value that nothing uses. -/
def Unused (program : KirProgram) (op : KirOp) : Prop := keeps program.usedValues op = false

/-- Every produced value that some operation consumes is the output, or an operation that is not unused
consumes it too. -/
def NoDeadChain (program : KirProgram) : Prop :=
  ∀ x ∈ outputs program.ops, (∃ op ∈ program.ops, x ∈ op.inputIds) →
    program.output = some x ∨ ∃ op ∈ program.ops, ¬Unused program op ∧ x ∈ op.inputIds

variable {program : KirProgram} {op : KirOp} {x : KirValueId}

theorem mem_usedValues_iff : x ∈ program.usedValues ↔
    (∃ op ∈ program.ops, x ∈ op.inputIds) ∨ program.output = some x := by
  simp [KirProgram.usedValues]

theorem keeps_eq_true_iff {used : List KirValueId} :
    keeps used op = true ↔ ∀ x, op.outputId = some x → x ∈ used := by
  unfold keeps
  cases op.outputId <;> simp

theorem not_unused_iff : ¬Unused program op ↔ keeps program.usedValues op = true := by
  simp [Unused]

theorem mem_eliminateDeadCode :
    op ∈ (eliminateDeadCode program).ops ↔ op ∈ program.ops ∧ ¬Unused program op := by
  rw [not_unused_iff]
  exact List.mem_filter

/-- The pass removes nothing exactly when every value is used. -/
theorem filter_keeps_eq_self_iff :
    program.ops.filter (keeps program.usedValues) = program.ops ↔ AllUsed program := by
  rw [List.filter_eq_self]
  constructor
  · intro all x hx
    obtain ⟨op, hop, ho⟩ := mem_outputs.1 hx
    exact keeps_eq_true_iff.1 (all op hop) x ho
  · intro used op hop
    exact keeps_eq_true_iff.2 fun x ho => used x (mem_outputs.2 ⟨op, hop, ho⟩)

/-- A second pass changes nothing exactly when the first one was complete. -/
theorem eliminateDeadCode_twice_iff : eliminateDeadCode (eliminateDeadCode program) =
    eliminateDeadCode program ↔ AllUsed (eliminateDeadCode program) := by
  rw [← filter_keeps_eq_self_iff]
  constructor
  · exact fun same => congrArg KirProgram.ops same
  · intro same
    exact congrArg (fun ops => { KirProgram.new with ops, output := program.output }) same

/-- What is left uses all its values exactly when no value was consumed by unused operations alone. -/
theorem allUsed_eliminateDeadCode_iff : AllUsed (eliminateDeadCode program) ↔ NoDeadChain program := by
  have kept : ∀ {x}, x ∈ (eliminateDeadCode program).usedValues ↔
      (∃ op ∈ program.ops, ¬Unused program op ∧ x ∈ op.inputIds) ∨ program.output = some x := by
    intro x
    rw [mem_usedValues_iff]
    refine or_congr_left ⟨?_, ?_⟩
    · rintro ⟨op, hop, hx⟩
      obtain ⟨there, alive⟩ := mem_eliminateDeadCode.1 hop
      exact ⟨op, there, alive, hx⟩
    · rintro ⟨op, there, alive, hx⟩
      exact ⟨op, mem_eliminateDeadCode.2 ⟨there, alive⟩, hx⟩
  constructor
  · intro all x produced consumed
    obtain ⟨op, hop, ho⟩ := mem_outputs.1 produced
    have alive : ¬Unused program op := not_unused_iff.2 <| keeps_eq_true_iff.2 fun y hy => by
      rw [ho] at hy
      exact Option.some.inj hy ▸ mem_usedValues_iff.2 (.inl consumed)
    have left : x ∈ outputs (eliminateDeadCode program).ops :=
      mem_outputs.2 ⟨op, mem_eliminateDeadCode.2 ⟨hop, alive⟩, ho⟩
    exact (kept.1 (all x left)).symm
  · intro chain x left
    obtain ⟨op, hop, ho⟩ := mem_outputs.1 left
    obtain ⟨there, alive⟩ := mem_eliminateDeadCode.1 hop
    have used := keeps_eq_true_iff.1 (not_unused_iff.1 alive) x ho
    rcases mem_usedValues_iff.1 used with consumed | output
    · exact kept.2 (chain x (mem_outputs.2 ⟨op, there, ho⟩) consumed).symm
    · exact kept.2 (.inr output)

/-- The pass is complete, and a second one changes nothing, exactly when no value is consumed by unused
operations alone. -/
theorem eliminateDeadCode_complete_iff (program : KirProgram) :
    (AllUsed (eliminateDeadCode program) ∧
      eliminateDeadCode (eliminateDeadCode program) = eliminateDeadCode program) ↔
    NoDeadChain program := by
  rw [eliminateDeadCode_twice_iff, and_self, allUsed_eliminateDeadCode_iff]

/-- The lowered form of `FROM b` and `FROM a`: the first collection is unused, its source is not. -/
def twoSources : KirProgram :=
  ⟨[.constStr 0 "b", .collect 1 0, .constStr 2 "a", .collect 3 2, .ret 3], some 3, 4⟩

/-- The source of the removed collection is left without a use; only a second pass removes it. -/
theorem eliminateDeadCode_incomplete : OpsOk twoSources.ops ∧
    ¬AllUsed (eliminateDeadCode twoSources) ∧
    eliminateDeadCode (eliminateDeadCode twoSources) ≠ eliminateDeadCode twoSources := by
  refine ⟨by decide, fun all => ?_, by decide⟩
  exact absurd (all 0 (by decide)) (by decide)

end TORdex.Optimizer
