import Mathlib.Algebra.Order.Ring.Nat
import Mathlib.Data.Nat.Log
import TORdex.Tdxl.Optimizer
import TORdex.Tdxl.QueryOptimizer

/-!
# Fresh ids

The counter of a program is above all ids in it as long as the program is built with `allocId`.  The passes build
new programs with new counters.  Those of the compiler keep the ids and leave the counter at zero; a rebuild of
the query optimiser renumbers what it emits and keeps the ids that nothing emitted before has produced.
-/

namespace TORdex

namespace KirProgram

/-- The ids that a program mentions. -/
def mentioned (p : KirProgram) : List KirValueId := outputs p.ops ++ p.usedValues

/-- The next id is above all ids in use. -/
def Fresh (p : KirProgram) : Prop := ∀ x ∈ p.mentioned, x < p.nextId

theorem fresh_iff {p : KirProgram} :
    p.Fresh ↔ (∀ x ∈ outputs p.ops, x < p.nextId) ∧ (∀ x ∈ p.ops.flatMap KirOp.inputIds, x < p.nextId) ∧
      ∀ x ∈ p.output, x < p.nextId := by
  simp only [Fresh, mentioned, usedValues, List.forall_mem_append, Option.mem_toList, Option.mem_def]

end KirProgram

/-! ## The compiler-level passes -/

namespace Optimizer

/-- The optimiser drops an operation: a repeated constant, or a value that no operation uses. -/
def Dropped (p : KirProgram) (op : KirOp) : Prop :=
  isReplaced (replacements p.ops) op ∨ ∃ id, op.outputId = some id ∧
    ∀ user ∈ p.ops, ∀ y ∈ user.inputIds, replaced (replacements p.ops) y ≠ id

theorem inputIds_of_isReplaced {repl : HashMap KirValueId KirValueId} {op : KirOp} (h : isReplaced repl op) :
    op.inputIds = [] := by
  cases op with
  | constStr => rfl
  | _ => cases h

theorem exists_mentioned (op : KirOp) : op.outputId.isSome ∨ op.inputIds ≠ [] := by
  cases op <;> simp [KirOp.outputId, KirOp.inputIds]

/-- A program with the counter at zero is fresh if it is empty. -/
theorem fresh_zero_iff {ops : List KirOp} {output : Option KirValueId} :
    (KirProgram.mk ops output 0).Fresh ↔ ops = [] ∧ output = none := by
  rw [KirProgram.fresh_iff]
  constructor
  · rintro ⟨outs, ins, out⟩
    refine ⟨List.eq_nil_iff_forall_not_mem.2 fun op hop => ?_,
      Option.eq_none_iff_forall_not_mem.2 fun x hx => Nat.not_lt_zero x (out x hx)⟩
    rcases exists_mentioned op with some | some
    · obtain ⟨x, hx⟩ := Option.isSome_iff_exists.1 some
      exact Nat.not_lt_zero x (outs x (mem_outputs.2 ⟨op, hop, hx⟩))
    · obtain ⟨x, hx⟩ := List.exists_mem_of_ne_nil _ some
      exact Nat.not_lt_zero x (ins x (List.mem_flatMap.2 ⟨op, hop, hx⟩))
  · rintro ⟨rfl, rfl⟩
    exact ⟨nofun, nofun, nofun⟩

/-- What `optimize` returns has a fresh counter only if nothing is left of the program. -/
theorem fresh_optimize_iff (p : KirProgram) :
    (optimize p).Fresh ↔ p.output = none ∧ ∀ op ∈ p.ops, Dropped p op := by
  have output : (eliminateRedundantStrings p).output = none ↔ p.output = none := Option.map_eq_none_iff
  have unused (none : p.output = none) (id : KirValueId) :
      id ∉ (eliminateRedundantStrings p).usedValues ↔
        ∀ user ∈ p.ops, ∀ y ∈ user.inputIds, replaced (replacements p.ops) y ≠ id := by
    rw [KirProgram.usedValues, output.2 none, Option.toList_none, List.append_nil, List.mem_flatMap]
    constructor
    · intro free user hu y hy same
      refine free ⟨rewriteInputs user (replacements p.ops), List.mem_map_of_mem (List.mem_filter.2 ⟨hu, ?_⟩), ?_⟩
      · rw [Bool.not_eq_true', Bool.eq_false_iff]
        exact fun h => absurd hy (by rw [inputIds_of_isReplaced h]; exact List.not_mem_nil)
      · rw [rewriteInputs, KirOp.inputIds_mapInputs, ← same]
        exact List.mem_map_of_mem hy
    · rintro free ⟨op, hop, hid⟩
      obtain ⟨user, kept, rfl⟩ := List.mem_map.1 hop
      rw [rewriteInputs, KirOp.inputIds_mapInputs] at hid
      obtain ⟨y, hy, same⟩ := List.mem_map.1 hid
      exact free user (List.mem_of_mem_filter kept) y hy same
  refine fresh_zero_iff.trans (and_comm.trans ((and_congr_left' output).trans (and_congr_right fun none => ?_)))
  have unkept (op : KirOp) : ¬keeps (eliminateRedundantStrings p).usedValues op ↔
      ∃ id, op.outputId = some id ∧ id ∉ (eliminateRedundantStrings p).usedValues := by
    unfold keeps
    cases op.outputId <;> simp
  rw [List.filter_eq_nil_iff]
  constructor
  · intro dropped op hop
    by_cases repeated : isReplaced (replacements p.ops) op
    · exact .inl repeated
    · have left : rewriteInputs op (replacements p.ops) ∈ (eliminateRedundantStrings p).ops :=
        List.mem_map_of_mem (List.mem_filter.2 ⟨hop, by simpa using repeated⟩)
      obtain ⟨id, produced, free⟩ := (unkept _).1 (dropped _ left)
      rw [rewriteInputs, KirOp.outputId_mapInputs] at produced
      exact .inr ⟨id, produced, (unused none id).1 free⟩
  · intro dropped op hop
    obtain ⟨op', kept, rfl⟩ := List.mem_map.1 hop
    obtain ⟨hop', single⟩ := List.mem_filter.1 kept
    obtain ⟨id, produced, free⟩ := (dropped op' hop').resolve_left (by simpa using single)
    refine (unkept _).2 ⟨id, ?_, (unused none id).2 free⟩
    rw [rewriteInputs, KirOp.outputId_mapInputs, produced]

end Optimizer

/-! ## The rebuild -/

namespace QueryOptimizer

/-- The ids that the operations consume without them having been produced: neither known before nor produced by
an operation up to theirs. -/
def staleIds : List KirValueId → List KirOp → List KirValueId
  | _, [] => []
  | known, op :: ops =>
    op.inputIds.filter (· ∉ op.outputId.toList ++ known) ++ staleIds (op.outputId.toList ++ known) ops

/-- One round of either loop of the rebuild, which takes so many new ids. -/
def emitAs (taken : KirOp → ℕ) (st : Rebuilt) (op : KirOp) : Rebuilt :=
  let idMap :=
    match op.outputId with
    | some old => st.2.insert old st.1.nextId
    | none => st.2
  ({ st.1 with
      ops := st.1.ops ++ [remapOpInputs (remapOpOutput op st.1.nextId) idMap]
      nextId := st.1.nextId + taken op }, idMap)

/-- An operation with an output takes an id. -/
def hasOutput (op : KirOp) : ℕ := if op.outputId.isSome then 1 else 0

theorem emitKept_eq : emitKept = emitAs fun _ => 1 := rfl

theorem emitPipe_eq : emitPipe = emitAs hasOutput := by
  funext st op
  unfold emitPipe emitAs hasOutput
  cases output : op.outputId with
  | some old => rfl
  | none => simp [KirProgram.push, remapOpOutput, KirOp.withOutput_self op (.inl output)]

/-- The map knows some ids and leads to ids below the counter. -/
structure MapsBelow (known : List KirValueId) (st : Rebuilt) : Prop where
  known_iff : ∀ x, x ∈ known ↔ (st.2.lookup x).isSome
  below : ∀ x n, st.2.lookup x = some n → n < st.1.nextId

section Emit

variable {known : List KirValueId} {st : Rebuilt} {taken : KirOp → ℕ} {op : KirOp} {N : ℕ}

/-- A remapped id is small if it is known, and stays as it is otherwise. -/
theorem MapsBelow.mapped_lt_iff (h : MapsBelow known st) (above : st.1.nextId ≤ N) (x : KirValueId) :
    mapped st.2 x < N ↔ (x ∉ known → x < N) := by
  rw [h.known_iff, mapped]
  cases found : st.2.lookup x with
  | some n =>
    simp only [Option.getD_some, Option.isSome_some, not_true, false_imp_iff, iff_true]
    exact (h.below x n found).trans_le above
  | none => simp

theorem MapsBelow.emitAs (h : MapsBelow known st) (takes : op.outputId.isSome → 1 ≤ taken op) :
    MapsBelow (op.outputId.toList ++ known) (emitAs taken st op) := by
  cases output : op.outputId with
  | none =>
    refine ⟨fun x => ?_, fun x n found => ?_⟩
    · simpa [QueryOptimizer.emitAs, output] using h.known_iff x
    · simp only [QueryOptimizer.emitAs, output] at found ⊢
      exact Nat.lt_add_right _ (h.below x n found)
  | some old =>
    have one := takes (by rw [output]; rfl)
    refine ⟨fun x => ?_, fun x n found => ?_⟩
    · simp only [QueryOptimizer.emitAs, output, Option.toList_some, List.singleton_append, List.mem_cons,
        h.known_iff]
      by_cases same : x = old
      · rw [same, Finmap.lookup_insert]
        simp
      · rw [Finmap.lookup_insert_of_ne _ same]
        simp [same]
    · simp only [QueryOptimizer.emitAs, output] at found ⊢
      by_cases same : x = old
      · rw [same, Finmap.lookup_insert] at found
        cases found
        exact Nat.lt_add_of_pos_right one
      · rw [Finmap.lookup_insert_of_ne _ same] at found
        exact Nat.lt_add_right _ (h.below x n found)

/-- All ids of the operations are small. -/
def IdsBelow (N : ℕ) (ops : List KirOp) : Prop :=
  (∀ x ∈ outputs ops, x < N) ∧ ∀ x ∈ ops.flatMap KirOp.inputIds, x < N

theorem MapsBelow.idsBelow_emitAs (h : MapsBelow known st) (takes : op.outputId.isSome → 1 ≤ taken op)
    (above : (QueryOptimizer.emitAs taken st op).1.nextId ≤ N) :
    IdsBelow N (QueryOptimizer.emitAs taken st op).1.ops ↔
      IdsBelow N st.1.ops ∧ ∀ y ∈ op.inputIds.filter (· ∉ op.outputId.toList ++ known), y < N := by
  have after := h.emitAs takes
  have ops : (QueryOptimizer.emitAs taken st op).1.ops =
      st.1.ops ++ [remapOpInputs (remapOpOutput op st.1.nextId) (QueryOptimizer.emitAs taken st op).2] := rfl
  have produced : ∀ x ∈ op.outputId.map fun _ => st.1.nextId, x < N := by
    intro x hx
    obtain ⟨old, some, rfl⟩ := Option.mem_map.1 hx
    have one := takes (Option.isSome_iff_exists.2 ⟨old, some⟩)
    exact (Nat.lt_add_of_pos_right one).trans_le above
  have consumed : (∀ x ∈ op.inputIds.map (mapped (QueryOptimizer.emitAs taken st op).2), x < N) ↔
      ∀ y ∈ op.inputIds.filter (· ∉ op.outputId.toList ++ known), y < N := by
    rw [List.forall_mem_map]
    refine forall_congr' fun y => ?_
    rw [List.mem_filter, decide_eq_true_eq, after.mapped_lt_iff above]
    tauto
  simp only [IdsBelow, ops, outputs_append, List.flatMap_append, List.forall_mem_append]
  have outs : (∀ x ∈ outputs [remapOpInputs (remapOpOutput op st.1.nextId)
      (QueryOptimizer.emitAs taken st op).2], x < N) := by
    intro x hx
    obtain ⟨op', hop', out⟩ := mem_outputs.1 hx
    rw [List.mem_singleton.1 hop', remapOpInputs, remapOpOutput, KirOp.outputId_mapInputs,
      KirOp.outputId_withOutput] at out
    exact produced x out
  rw [List.flatMap_singleton, remapOpInputs, remapOpOutput, KirOp.inputIds_mapInputs,
    KirOp.inputIds_withOutput, ← consumed]
  simp only [remapOpInputs, remapOpOutput] at outs
  tauto

/-- The ids known after operations. -/
def knownAfter (known : List KirValueId) (ops : List KirOp) : List KirValueId :=
  ops.foldl (fun known op => op.outputId.toList ++ known) known

theorem mem_knownAfter {ops : List KirOp} {x : KirValueId} :
    x ∈ knownAfter known ops ↔ x ∈ known ∨ x ∈ outputs ops := by
  unfold knownAfter
  induction ops generalizing known with
  | nil => simp [outputs]
  | cons op ops ih =>
    rw [List.foldl_cons, ih, List.mem_append, Option.mem_toList, mem_outputs, mem_outputs]
    simp only [List.mem_cons, exists_eq_or_imp]
    tauto

theorem staleIds_append (ops more : List KirOp) :
    staleIds known (ops ++ more) = staleIds known ops ++ staleIds (knownAfter known ops) more := by
  induction ops generalizing known with
  | nil => rfl
  | cons op ops ih =>
    rw [List.cons_append, staleIds, staleIds, ih, List.append_assoc]
    rfl

/-- A loop of the rebuild: the counter goes up by the ids taken, and the ids of what has been emitted are small
if the stale ones are. -/
theorem MapsBelow.foldl (h : MapsBelow known st) (taken : KirOp → ℕ)
    (takes : ∀ op, op.outputId.isSome → 1 ≤ taken op) (ops : List KirOp) :
    MapsBelow (knownAfter known ops) (ops.foldl (QueryOptimizer.emitAs taken) st) ∧
      (ops.foldl (QueryOptimizer.emitAs taken) st).1.nextId = st.1.nextId + (ops.map taken).sum ∧
      ∀ N, (ops.foldl (QueryOptimizer.emitAs taken) st).1.nextId ≤ N →
        (IdsBelow N (ops.foldl (QueryOptimizer.emitAs taken) st).1.ops ↔
          IdsBelow N st.1.ops ∧ ∀ y ∈ staleIds known ops, y < N) := by
  induction ops generalizing known st with
  | nil => exact ⟨h, rfl, fun N _ => by simp [staleIds]⟩
  | cons op ops ih =>
    obtain ⟨maps, next, below⟩ := ih (h.emitAs (takes op))
    refine ⟨maps, ?_, fun N above => ?_⟩
    · rw [List.foldl_cons, next, List.map_cons, List.sum_cons, ← Nat.add_assoc]
      rfl
    · have first : (QueryOptimizer.emitAs taken st op).1.nextId ≤ N :=
        (next ▸ Nat.le_add_right _ _ :
          (QueryOptimizer.emitAs taken st op).1.nextId ≤ (ops.foldl (QueryOptimizer.emitAs taken)
            (QueryOptimizer.emitAs taken st op)).1.nextId).trans above
      rw [List.foldl_cons, below N above, h.idsBelow_emitAs (takes op) first, staleIds, List.forall_mem_append,
        and_assoc]

end Emit

/-- The rebuild takes an id for every operation outside the pipeline and for every output in the pipeline; the
stale ids are below that number. -/
def StaleBelow (p : KirProgram) (newPipe : List KirOp) : Prop :=
  ∀ y ∈ staleIds [] (keptOps p ++ newPipe) ++
      p.output.toList.filter (· ∉ outputs (keptOps p ++ newPipe)),
    y < (keptOps p).length + (outputs newPipe).length

theorem sum_hasOutput (ops : List KirOp) : (ops.map hasOutput).sum = (outputs ops).length := by
  induction ops with
  | nil => rfl
  | cons op ops ih =>
    rw [List.map_cons, List.sum_cons, ih, hasOutput]
    cases output : op.outputId with
    | none => simp [outputs, output]
    | some x => simp [outputs, output, Nat.add_comm]

/-- The counter of a rebuilt program is fresh exactly if the stale ids are below it. -/
theorem fresh_rebuild_iff (p : KirProgram) (newPipe : List KirOp) :
    (rebuildFromPipeline p newPipe).Fresh ↔ StaleBelow p newPipe := by
  have start : MapsBelow [] (KirProgram.new, ∅) := ⟨fun x => by simp, fun x n h => by simp at h⟩
  obtain ⟨maps₁, next₁, below₁⟩ := start.foldl (fun _ => 1) (fun _ _ => le_rfl) (keptOps p)
  obtain ⟨maps, next, below⟩ := maps₁.foldl hasOutput (fun op some => (if_pos some).ge) newPipe
  have counter : (rebuildFromPipeline p newPipe).nextId = (keptOps p).length + (outputs newPipe).length := by
    show ((newPipe.foldl emitPipe _).1).nextId = _
    rw [emitPipe_eq, emitKept_eq, next, next₁, sum_hasOutput, List.map_const', List.sum_replicate]
    simp [KirProgram.new]
  have emitted : IdsBelow (rebuildFromPipeline p newPipe).nextId (rebuildFromPipeline p newPipe).ops ↔
      ∀ y ∈ staleIds [] (keptOps p ++ newPipe), y < (rebuildFromPipeline p newPipe).nextId := by
    rw [staleIds_append, List.forall_mem_append]
    have first : ((keptOps p).foldl emitKept (.new, ∅)).1.nextId ≤ (rebuildFromPipeline p newPipe).nextId := by
      rw [counter, emitKept_eq, next₁]
      simp [KirProgram.new]
    have kept := below₁ _ first
    have pipe := below (rebuildFromPipeline p newPipe).nextId (by rw [← emitPipe_eq, ← emitKept_eq]; exact le_rfl)
    rw [kept] at pipe
    have empty : IdsBelow (rebuildFromPipeline p newPipe).nextId KirProgram.new.ops :=
      ⟨nofun, nofun⟩
    rw [← emitPipe_eq, ← emitKept_eq] at pipe
    exact pipe.trans (by rw [and_iff_right empty])
  have output : (∀ x ∈ (rebuildFromPipeline p newPipe).output, x < (rebuildFromPipeline p newPipe).nextId) ↔
      ∀ y ∈ p.output.toList.filter (· ∉ outputs (keptOps p ++ newPipe)),
        y < (rebuildFromPipeline p newPipe).nextId := by
    rw [← emitPipe_eq, ← emitKept_eq] at maps
    show (∀ x ∈ p.output.map _, _) ↔ _
    cases p.output with
    | none => simp
    | some o =>
      have known : o ∈ knownAfter (knownAfter [] (keptOps p)) newPipe ↔ o ∈ outputs (keptOps p ++ newPipe) := by
        rw [mem_knownAfter, mem_knownAfter, outputs_append, List.mem_append]
        simp
      have small := maps.mapped_lt_iff (N := (rebuildFromPipeline p newPipe).nextId) le_rfl o
      rw [known] at small
      simpa using small
  rw [StaleBelow, List.forall_mem_append, ← counter, ← emitted, ← output, KirProgram.fresh_iff, IdsBelow,
    and_assoc]

/-! ## The passes -/

/-- The passes of the query optimizer. -/
inductive QueryPass where
  | predicatePushdown
  | traversalPruning
  | joinReordering
  | operatorFusion
  deriving DecidableEq, Repr

namespace QueryPass

variable (est : Estimates)

/-- What a pass does to a program. -/
def run : QueryPass → KirProgram → KirProgram
  | predicatePushdown => QueryOptimizer.predicatePushdown
  | traversalPruning => QueryOptimizer.traversalPruning est
  | joinReordering => QueryOptimizer.joinReordering
  | operatorFusion => QueryOptimizer.operatorFusion

/-- The pipeline that the pass makes of the extracted one, where it rebuilds the program. -/
def newPipe : QueryPass → KirProgram → Option (List KirOp)
  | predicatePushdown, p =>
    if (pipelineOps p).isEmpty then none else some (mergeFilters (opsAt p (pipelineOps p)))
  | traversalPruning, p =>
    let (ops, modified) := pruneTraversals est (opsAt p (pipelineOps p))
    if (pipelineOps p).isEmpty || !modified then none else some ops
  | joinReordering, p =>
    if (pipelineOps p).length < 2 then none else some (reorderFilters (opsAt p (pipelineOps p)))
  | operatorFusion, p =>
    if (pipelineOps p).isEmpty then none else some (fuseOps (opsAt p (pipelineOps p)))

/-- A pass leaves the program as it is, or rebuilds it. -/
theorem run_eq (pass : QueryPass) (p : KirProgram) :
    pass.run est p = match pass.newPipe est p with
      | none => p
      | some pipe => rebuildFromPipeline p pipe := by
  cases pass with
  | predicatePushdown =>
    simp only [run, QueryOptimizer.predicatePushdown, newPipe]
    split <;> rfl
  | traversalPruning =>
    simp only [run, QueryOptimizer.traversalPruning, newPipe]
    by_cases empty : (pipelineOps p).isEmpty
    · simp [empty]
    · by_cases modified : (pruneTraversals est (opsAt p (pipelineOps p))).2 <;> simp [empty, modified]
  | joinReordering =>
    simp only [run, QueryOptimizer.joinReordering, newPipe]
    split <;> rfl
  | operatorFusion =>
    simp only [run, QueryOptimizer.operatorFusion, newPipe]
    split <;> rfl

/-- After the passes of a list, the last one first, the counter is fresh: the stale ids of the last rebuild are
below its counter, and where no pass rebuilds the counter was fresh before. -/
def Keeps (before : Prop) : List QueryPass → KirProgram → Prop
  | [], _ => before
  | pass :: passes, p =>
    match pass.newPipe est (passes.foldr (run est) p) with
    | none => Keeps before passes p
    | some pipe => StaleBelow (passes.foldr (run est) p) pipe

theorem fresh_foldr_iff (passes : List QueryPass) (p : KirProgram) :
    (passes.foldr (run est) p).Fresh ↔ Keeps est p.Fresh passes p := by
  induction passes with
  | nil => exact Iff.rfl
  | cons pass passes ih =>
    rw [List.foldr_cons, run_eq, Keeps]
    split
    · exact ih
    · exact fresh_rebuild_iff _ _

end QueryPass

end QueryOptimizer

/-! ## All of them -/

open QueryOptimizer (QueryPass Estimates optimizeQuery)

/-- The functions that turn a program into another one: the passes of the compiler, a pass of the query
optimiser, all of these in their order, and all that a compilation does. -/
inductive Optimization where
  | optimize
  | queryPass (pass : QueryPass)
  | optimizeQuery
  | optimizeBoth
  deriving DecidableEq, Repr

namespace Optimization

variable (est : Estimates)

/-- What an optimization does to a program. -/
def run : Optimization → KirProgram → KirProgram
  | optimize => Optimizer.optimize
  | queryPass pass => pass.run est
  | optimizeQuery => QueryOptimizer.optimizeQuery est
  | optimizeBoth => fun p => QueryOptimizer.optimizeQuery est (Optimizer.optimize p)

/-- The query passes, the last one first. -/
def queryPasses : List QueryPass := [.operatorFusion, .joinReordering, .traversalPruning, .predicatePushdown]

/-- What a function has to leave of a program with a fresh counter for the counter to be fresh afterwards. -/
def KeepsFresh : Optimization → KirProgram → Prop
  | optimize, p => p.output = none ∧ ∀ op ∈ p.ops, Optimizer.Dropped p op
  | queryPass pass, p => QueryPass.Keeps est True [pass] p
  | optimizeQuery, p => QueryPass.Keeps est True queryPasses p
  | optimizeBoth, p =>
    QueryPass.Keeps est (p.output = none ∧ ∀ op ∈ p.ops, Optimizer.Dropped p op) queryPasses (Optimizer.optimize p)

/-- **When the counter stays above all ids** in use. -/
theorem fresh_run_iff (est : Estimates) {p : KirProgram} (fresh : p.Fresh) (f : Optimization) :
    (f.run est p).Fresh ↔ f.KeepsFresh est p := by
  have before : p.Fresh = True := eq_true fresh
  cases f with
  | optimize => exact Optimizer.fresh_optimize_iff p
  | queryPass pass =>
    rw [KeepsFresh, ← before]
    exact QueryPass.fresh_foldr_iff est [pass] p
  | optimizeQuery =>
    rw [KeepsFresh, ← before]
    exact QueryPass.fresh_foldr_iff est queryPasses p
  | optimizeBoth =>
    rw [KeepsFresh, ← propext (Optimizer.fresh_optimize_iff p)]
    exact QueryPass.fresh_foldr_iff est queryPasses (Optimizer.optimize p)

/-- The estimates as exact numbers. -/
def exactEstimates : Estimates where
  exceeds depth limit := decide (limit * 2 < 5 ^ depth.toNat)
  optimalDepth limit := Nat.clog 5 limit

/-- A page that is collected and loaded. -/
def loadPage : KirProgram := ⟨[.constStr 0 "page", .collect 1 0, .loadGraph 2 1], some 2, 3⟩

theorem fresh_loadPage : loadPage.Fresh := by
  unfold KirProgram.Fresh
  decide

/-- The fused program has two operations and the ids 0 and 1. -/
theorem fresh_run_loadPage : ((queryPass .operatorFusion).run exactEstimates loadPage).Fresh := by
  refine (fresh_run_iff exactEstimates fresh_loadPage (queryPass .operatorFusion)).2 ?_
  have fused : QueryPass.newPipe exactEstimates .operatorFusion loadPage = some [.collect 2 0] := by decide
  simp only [KeepsFresh, QueryPass.Keeps, List.foldr_nil, fused]
  unfold QueryOptimizer.StaleBelow
  decide

/-- After the passes of the compiler the next id is 0, which the program uses. -/
theorem not_fresh_loadPage :
    loadPage.Fresh ∧ ¬(optimize.run exactEstimates loadPage).Fresh ∧
      (optimize.run exactEstimates loadPage).allocId.1 ∈ (optimize.run exactEstimates loadPage).mentioned := by
  refine ⟨fresh_loadPage, ?_⟩
  unfold KirProgram.Fresh
  decide

end Optimization

end TORdex
