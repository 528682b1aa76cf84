import TORdex.Lib.BackwardSearch
import TORdex.Tdxl.Dataflow
import TORdex.Tdxl.Kir

/-! The compiler-level passes: one copy of every string, no operation without a use. -/

namespace TORdex.Optimizer

/-- The maps of the first loop: the constant that a string was first seen in, and the constants that
are replaced by it. -/
structure Strings where
  seenStrings : HashMap String KirValueId
  replacements : HashMap KirValueId KirValueId

/-- One round of the first loop. -/
def noteString (s : Strings) : KirOp → Strings
  | .constStr output value =>
    match s.seenStrings.lookup value with
    | some existing => { s with replacements := s.replacements.insert output existing }
    | none => { s with seenStrings := s.seenStrings.insert value output }
  | _ => s

/-- The replacements for the repeated constants of a program. -/
def replacements (ops : List KirOp) : HashMap KirValueId KirValueId :=
  (ops.foldl noteString ⟨∅, ∅⟩).replacements

/-- `repl.get(id).copied().unwrap_or(*id)`. -/
def replaced (repl : HashMap KirValueId KirValueId) (id : KirValueId) : KirValueId :=
  (repl.lookup id).getD id

/-- The operation with its inputs replaced. -/
def rewriteInputs (op : KirOp) (repl : HashMap KirValueId KirValueId) : KirOp :=
  op.mapInputs (replaced repl)

/-- The constant is a repetition of an earlier one. -/
def isReplaced (repl : HashMap KirValueId KirValueId) : KirOp → Bool
  | .constStr output _ => (repl.lookup output).isSome
  | _ => false

/-- Merge duplicate string constants. -/
def eliminateRedundantStrings (program : KirProgram) : KirProgram :=
  let repl := replacements program.ops
  let kept := program.ops.filter fun op => !isReplaced repl op
  { KirProgram.new with
    ops := kept.map fun op => rewriteInputs op repl
    output := program.output.map (replaced repl) }

/-- Reserved for loop unrolling: a no-op. -/
def propagateLimits (program : KirProgram) : KirProgram := program

/-- The operation has no output, or a used one. -/
def keeps (used : List KirValueId) (op : KirOp) : Bool :=
  match op.outputId with
  | none => true
  | some id => id ∈ used

/-- Remove the operations whose output is never used. -/
def eliminateDeadCode (program : KirProgram) : KirProgram :=
  { KirProgram.new with
    ops := program.ops.filter (keeps program.usedValues)
    output := program.output }

/-- Run all passes. -/
def optimize (program : KirProgram) : KirProgram :=
  eliminateDeadCode (propagateLimits (eliminateRedundantStrings program))

end TORdex.Optimizer

/-!
## The compiler-level passes keep the dataflow

Merging equal string constants redirects a use to an earlier constant with the same tree; the removal of
unused operations keeps every producer that something uses.
-/

namespace TORdex.Optimizer

/-! ### Merging strings -/

/-- What the maps of the first loop say about the operations it has seen. -/
structure Merged (ops : List KirOp) (s : Strings) : Prop where
  seen : ∀ v e, s.seenStrings.lookup v = some e →
    .constStr e v ∈ ops ∧ s.replacements.lookup e = none
  repl : ∀ id e, s.replacements.lookup id = some e →
    (∃ v, [KirOp.constStr e v, .constStr id v].Sublist ops) ∧ s.replacements.lookup e = none

theorem Merged.mem_outputs {ops : List KirOp} {s : Strings} (h : Merged ops s) {id e : KirValueId}
    (he : s.replacements.lookup id = some e) : e ∈ outputs ops ∧ id ∈ outputs ops := by
  obtain ⟨⟨v, sub⟩, -⟩ := h.repl id e he
  exact ⟨TORdex.mem_outputs.2 ⟨.constStr e v, sub.subset (by simp), rfl⟩,
    TORdex.mem_outputs.2 ⟨.constStr id v, sub.subset (by simp), rfl⟩⟩

theorem Merged.concat {ops : List KirOp} {s : Strings} (h : Merged ops s) {op : KirOp}
    (fresh : ∀ id, op.outputId = some id → id ∉ outputs ops) :
    Merged (ops ++ [op]) (noteString s op) := by
  have grow : ∀ {l : List KirOp}, l.Sublist ops → l.Sublist (ops ++ [op]) := fun hl =>
    hl.trans (List.sublist_append_left _ _)
  have same : Merged (ops ++ [op]) s :=
    ⟨fun v e he => ⟨List.mem_append_left _ (h.seen v e he).1, (h.seen v e he).2⟩,
      fun id e he => ⟨(h.repl id e he).1.imp fun _ sub => grow sub, (h.repl id e he).2⟩⟩
  cases op with
  | constStr o v =>
    have new : o ∉ outputs ops := fresh o rfl
    -- The new constant is neither the first of a string nor replaced already.
    have free : ∀ {id}, id ∈ outputs ops → id ≠ o := by
      rintro id hid rfl
      exact new hid
    simp only [noteString]
    split
    · rename_i existing hex
      obtain ⟨hmem, hnone⟩ := h.seen v existing hex
      have old : existing ≠ o := free (TORdex.mem_outputs.2 ⟨_, hmem, rfl⟩)
      constructor
      · intro v' e he
        obtain ⟨hm, hn⟩ := h.seen v' e he
        refine ⟨List.mem_append_left _ hm, ?_⟩
        exact (Finmap.lookup_insert_of_ne _ (free (TORdex.mem_outputs.2 ⟨_, hm, rfl⟩))).trans hn
      · intro id e he
        dsimp only at he ⊢
        by_cases hid : id = o
        · subst hid
          rw [Finmap.lookup_insert] at he
          cases he
          refine ⟨⟨v, ?_⟩, (Finmap.lookup_insert_of_ne _ old).trans hnone⟩
          exact (List.singleton_sublist.2 hmem).append (List.Sublist.refl [KirOp.constStr id v])
        · rw [Finmap.lookup_insert_of_ne _ hid] at he
          obtain ⟨⟨v', sub⟩, hn⟩ := h.repl id e he
          exact ⟨⟨v', grow sub⟩,
            (Finmap.lookup_insert_of_ne _ (free (h.mem_outputs he).1)).trans hn⟩
    · refine ⟨fun v' e he => ?_, same.repl⟩
      dsimp only at he ⊢
      by_cases hv : v' = v
      · subst hv
        rw [Finmap.lookup_insert] at he
        cases he
        refine ⟨by simp, ?_⟩
        by_contra hsome
        obtain ⟨e, he⟩ := Option.ne_none_iff_exists'.1 hsome
        exact new (h.mem_outputs he).2
      · rw [Finmap.lookup_insert_of_ne _ hv] at he
        exact same.seen v' e he
  | _ => exact same

theorem merged_replacements {ops : List KirOp} (ok : OpsOk ops) :
    Merged ops (ops.foldl noteString ⟨∅, ∅⟩) := by
  induction ops using List.reverseRecOn with
  | nil => exact ⟨nofun, nofun⟩
  | append_singleton ops op ih =>
    obtain ⟨before, -, fresh⟩ := opsOk_concat.1 ok
    rw [List.foldl_concat]
    exact (ih before).concat fresh

section Replacements

variable {ops before after : List KirOp} {repl : HashMap KirValueId KirValueId} {x : KirValueId}

/-- The replacement map of a program. -/
structure Replaces (ops : List KirOp) (repl : HashMap KirValueId KirValueId) : Prop where
  ok : OpsOk ops
  pair : ∀ id e, repl.lookup id = some e →
    (∃ v, [KirOp.constStr e v, .constStr id v].Sublist ops) ∧ repl.lookup e = none

theorem replaces_replacements (ok : OpsOk ops) : Replaces ops (replacements ops) :=
  ⟨ok, (merged_replacements ok).repl⟩

/-- What replaces a constant is an earlier constant with the same text. -/
theorem Replaces.earlier (h : Replaces (before ++ after) repl) (hx : x ∈ outputs before)
    {e : KirValueId} (he : repl.lookup x = some e) :
    ∃ v, .constStr e v ∈ before ∧ .constStr x v ∈ before := by
  obtain ⟨⟨v, sub⟩, -⟩ := h.pair x e he
  have nodup := h.ok.nodup
  rw [outputs_append, List.nodup_append] at nodup
  have notAfter : .constStr x v ∉ after := fun hm =>
    nodup.2.2 x hx x (mem_outputs.2 ⟨_, hm, rfl⟩) rfl
  have both : ∀ op ∈ [KirOp.constStr e v, .constStr x v], op ∈ before ++ after := fun op ho =>
    sub.subset ho
  have second : .constStr x v ∈ before :=
    (List.mem_append.1 (both _ (by simp))).resolve_right notAfter
  obtain ⟨l₁, l₂, split, s₁, s₂⟩ := List.sublist_append_iff.1 sub
  cases l₁ with
  | nil =>
    rw [List.nil_append] at split
    exact absurd (s₂.subset (by rw [← split]; simp)) notAfter
  | cons op l₁ =>
    obtain ⟨rfl, -⟩ := List.cons.inj split
    exact ⟨v, s₁.subset (by simp), second⟩

theorem Replaces.isReplaced_iff (h : Replaces ops repl) {op : KirOp} (hop : op ∈ ops)
    {id : KirValueId} (ho : op.outputId = some id) :
    isReplaced repl op ↔ (repl.lookup id).isSome := by
  constructor
  · intro hr
    cases op with
    | constStr o v =>
      cases ho
      exact hr
    | _ => cases hr
  · intro hs
    obtain ⟨e, he⟩ := Option.isSome_iff_exists.1 hs
    obtain ⟨⟨v, sub⟩, -⟩ := h.pair id e he
    have same : op = .constStr id v :=
      producer_unique h.ok.nodup hop (sub.subset (by simp)) ho rfl
    rw [same]
    exact hs

theorem replaced_of_none (h : repl.lookup x = none) : replaced repl x = x := by simp [replaced, h]

theorem replaced_of_some {e : KirValueId} (h : repl.lookup x = some e) : replaced repl x = e := by
  simp [replaced, h]

/-- The operations after the merge. -/
def merge (repl : HashMap KirValueId KirValueId) (ops : List KirOp) : List KirOp :=
  (ops.filter fun op => !isReplaced repl op).map fun op => rewriteInputs op repl

theorem merge_append (l l' : List KirOp) : merge repl (l ++ l') = merge repl l ++ merge repl l' := by
  simp [merge]

theorem merge_singleton (op : KirOp) :
    merge repl [op] = if isReplaced repl op then [] else [rewriteInputs op repl] := by
  unfold merge
  cases h : isReplaced repl op <;> simp [h]

theorem outputs_merge (l : List KirOp) :
    outputs (merge repl l) = outputs (l.filter fun op => !isReplaced repl op) :=
  outputs_map fun op => KirOp.outputId_mapInputs op _

/-- What stands for a value is still produced. -/
theorem Replaces.mem_merge (h : Replaces (before ++ after) repl) (hx : x ∈ outputs before) :
    replaced repl x ∈ outputs (merge repl before) := by
  have kept : ∀ {id}, id ∈ outputs before → repl.lookup id = none →
      id ∈ outputs (merge repl before) := by
    intro id hid hnone
    obtain ⟨op, hop, ho⟩ := mem_outputs.1 hid
    rw [outputs_merge]
    refine mem_outputs.2 ⟨op, List.mem_filter.2 ⟨hop, ?_⟩, ho⟩
    have := h.isReplaced_iff (List.mem_append_left _ hop) ho
    simp [hnone] at this
    simp [this]
  cases he : repl.lookup x with
  | none =>
    rw [replaced_of_none he]
    exact kept hx he
  | some e =>
    obtain ⟨v, first, -⟩ := h.earlier hx he
    rw [replaced_of_some he]
    exact kept (mem_outputs.2 ⟨_, first, rfl⟩) (h.pair x e he).2

/-- What stands for a value that no later operation produces. -/
theorem Replaces.ne_of_mem (h : Replaces (before ++ after) repl) (hx : x ∈ outputs before)
    {op : KirOp} (hop : op ∈ after) : op.outputId ≠ some (replaced repl x) := by
  intro ho
  have nodup := h.ok.nodup
  rw [outputs_append, List.nodup_append] at nodup
  have member : replaced repl x ∈ outputs before := by
    have := h.mem_merge hx
    rw [outputs_merge] at this
    exact (outputs_sublist List.filter_sublist).subset this
  exact nodup.2.2 _ member _ (mem_outputs.2 ⟨op, hop, ho⟩) rfl

theorem treeOf_constStr {l : List KirOp} (nodup : (outputs l).Nodup) {id : KirValueId} {v : String}
    (hm : .constStr id v ∈ l) : treeOf l id = some (.node (.constStr 0 v) []) := by
  induction l using List.reverseRecOn with
  | nil => cases hm
  | append_singleton l op ih =>
    rcases List.mem_append.1 hm with hm | hm
    · have other : op.outputId ≠ some id := by
        intro ho
        rw [outputs_append, List.nodup_append] at nodup
        exact nodup.2.2 id (mem_outputs.2 ⟨_, hm, rfl⟩) id
          (mem_outputs.2 ⟨op, List.mem_singleton_self op, ho⟩) rfl
      rw [treeOf_concat_of_ne other]
      exact ih (nodup.sublist (outputs_sublist (List.sublist_append_left _ _))) hm
    · rw [← List.mem_singleton.1 hm, treeOf_concat]
      simp [KirOp.outputId, KirOp.inputIds, KirOp.label, KirOp.withOutput, KirOp.mapInputs]

/-- Every value keeps its tree, under the name that stands for it. -/
theorem Replaces.treeOf_merge (h : Replaces (before ++ after) repl) (hx : x ∈ outputs before) :
    treeOf (merge repl before) (replaced repl x) = treeOf before x := by
  induction before using List.reverseRecOn generalizing after x with
  | nil => cases hx
  | append_singleton l op ih =>
    have whole : Replaces (l ++ op :: after) repl := by simpa using h
    rw [merge_append, merge_singleton]
    by_cases ho : op.outputId = some x
    · have iff := h.isReplaced_iff (by simp) ho
      by_cases hr : isReplaced repl op
      · -- A repeated constant: the first one has the same tree.
        obtain ⟨e, he⟩ := Option.isSome_iff_exists.1 (iff.1 hr)
        obtain ⟨v, first, second⟩ := h.earlier hx he
        have unreplaced := (h.pair x e he).2
        have kept : .constStr e v ∈ merge repl (l ++ [op]) := by
          refine List.mem_map.2 ⟨.constStr e v, List.mem_filter.2 ⟨first, ?_⟩, rfl⟩
          simp [isReplaced, unreplaced]
        have nodup : (outputs (merge repl (l ++ [op]))).Nodup := by
          rw [outputs_merge]
          exact h.ok.left.nodup.sublist (outputs_sublist List.filter_sublist)
        rw [treeOf_constStr h.ok.left.nodup second, replaced_of_some he, ← treeOf_constStr nodup kept,
          merge_append, merge_singleton]
      · have none : repl.lookup x = none := by
          rw [iff] at hr
          simpa using hr
        have ho' : (rewriteInputs op repl).outputId = some x := by
          rw [rewriteInputs, KirOp.outputId_mapInputs, ho]
        rw [if_neg hr, replaced_of_none none, treeOf_concat, treeOf_concat, if_pos ho, if_pos ho',
          rewriteInputs, label_mapInputs, KirOp.inputIds_mapInputs, List.mapM_map]
        congr 1
        exact Positions.mapM_congr_of_mem fun y hy => ih whole (whole.ok.earlier l op after rfl y hy)
    · have old : x ∈ outputs l := by
        rw [outputs_append, List.mem_append] at hx
        refine hx.resolve_right fun hop => ?_
        obtain ⟨op', hm, ho'⟩ := mem_outputs.1 hop
        rw [List.mem_singleton.1 hm] at ho'
        exact ho ho'
      have skip : treeOf (merge repl l ++ if isReplaced repl op then [] else [rewriteInputs op repl])
          (replaced repl x) = treeOf (merge repl l) (replaced repl x) := by
        split_ifs
        · rw [List.append_nil]
        · apply treeOf_concat_of_ne
          rw [rewriteInputs, KirOp.outputId_mapInputs]
          exact whole.ne_of_mem old List.mem_cons_self
      rw [skip, treeOf_concat_of_ne ho]
      exact ih whole old

/-- The merge keeps a program well-formed. -/
theorem Replaces.opsOk_merge (h : Replaces (before ++ after) repl) : OpsOk (merge repl before) := by
  induction before using List.reverseRecOn generalizing after with
  | nil => exact ⟨List.nodup_nil, by rintro b op a split; simp [merge] at split⟩
  | append_singleton l op ih =>
    have whole : Replaces (l ++ op :: after) repl := by simpa using h
    rw [merge_append, merge_singleton]
    split_ifs
    · rw [List.append_nil]
      exact ih whole
    · refine opsOk_concat.2 ⟨ih whole, fun y hy => ?_, fun id ho => ?_⟩
      · rw [rewriteInputs, KirOp.inputIds_mapInputs] at hy
        obtain ⟨x, hx, rfl⟩ := List.mem_map.1 hy
        exact whole.mem_merge (whole.ok.earlier l op after rfl x hx)
      · rw [rewriteInputs, KirOp.outputId_mapInputs] at ho
        rw [outputs_merge]
        intro hm
        have fresh := (opsOk_concat.1 h.ok.left).2.2 id ho
        exact fresh ((outputs_sublist List.filter_sublist).subset hm)

theorem Replaces.treeOf_merge_self (h : Replaces ops repl) (hx : x ∈ outputs ops) :
    treeOf (merge repl ops) (replaced repl x) = treeOf ops x := by
  have whole : Replaces (ops ++ []) repl := by rwa [List.append_nil]
  exact whole.treeOf_merge hx

/-- The operations without output do the same with the same trees. -/
theorem Replaces.effects_merge (h : Replaces ops repl) : effects (merge repl ops) = effects ops := by
  have sinks : (merge repl ops).filter (fun op => op.outputId.isNone) =
      (ops.filter fun op => op.outputId.isNone).map fun op => rewriteInputs op repl := by
    unfold merge
    rw [List.filter_map, List.filter_filter]
    congr 1
    apply List.filter_congr
    intro op _
    cases op <;> simp [rewriteInputs, KirOp.mapInputs, KirOp.outputId, isReplaced]
  unfold effects
  rw [sinks, List.map_map]
  apply List.map_congr_left
  intro op hop
  obtain ⟨before, after, rfl⟩ := List.append_of_mem (List.mem_filter.1 hop).1
  simp only [Function.comp, rewriteInputs, label_mapInputs, KirOp.inputIds_mapInputs, List.map_map]
  congr 1
  apply List.map_congr_left
  intro y hy
  apply h.treeOf_merge_self
  rw [outputs_append]
  exact List.mem_append_left _ (h.ok.earlier before op after rfl y hy)

/-- The output of the program keeps its tree. -/
theorem Replaces.treeOf_output (h : Replaces ops repl) (x : KirValueId) :
    treeOf (merge repl ops) (replaced repl x) = treeOf ops x := by
  by_cases hx : x ∈ outputs ops
  · exact h.treeOf_merge_self hx
  · have none : repl.lookup x = none := by
      by_contra hsome
      obtain ⟨e, he⟩ := Option.ne_none_iff_exists'.1 hsome
      obtain ⟨⟨v, sub⟩, -⟩ := h.pair x e he
      exact hx (mem_outputs.2 ⟨.constStr x v, sub.subset (by simp), rfl⟩)
    have absent : x ∉ outputs (merge repl ops) := by
      rw [outputs_merge]
      exact fun hm => hx ((outputs_sublist List.filter_sublist).subset hm)
    rw [replaced_of_none none, treeOf_none hx, treeOf_none absent]

end Replacements

/-! ### Removing unused operations -/

section DeadCode

variable {used : List KirValueId} {ops : List KirOp} {x : KirValueId}

theorem keeps_of_output {op : KirOp} (hx : x ∈ used) (ho : op.outputId = some x) : keeps used op := by
  simp [keeps, ho, hx]

theorem mem_outputs_keeps (hx : x ∈ used) (h : x ∈ outputs ops) :
    x ∈ outputs (ops.filter (keeps used)) := by
  obtain ⟨op, hop, ho⟩ := mem_outputs.1 h
  exact mem_outputs.2 ⟨op, List.mem_filter.2 ⟨hop, keeps_of_output hx ho⟩, ho⟩

/-- The used values keep their trees. -/
theorem treeOf_keeps (uses : ∀ op ∈ ops, ∀ y ∈ op.inputIds, y ∈ used) (hx : x ∈ used) :
    treeOf (ops.filter (keeps used)) x = treeOf ops x := by
  induction ops using List.reverseRecOn generalizing x with
  | nil => rfl
  | append_singleton l op ih =>
    have before : ∀ op ∈ l, ∀ y ∈ op.inputIds, y ∈ used := fun o ho =>
      uses o (List.mem_append_left _ ho)
    rw [List.filter_append]
    by_cases ho : op.outputId = some x
    · rw [List.filter_cons_of_pos (keeps_of_output hx ho), List.filter_nil, treeOf_concat,
        treeOf_concat, if_pos ho, if_pos ho]
      congr 1
      exact Positions.mapM_congr_of_mem fun y hy => ih before (uses op (by simp) y hy)
    · rw [treeOf_concat_of_ne ho, ← ih before hx]
      by_cases hk : keeps used op
      · rw [List.filter_cons_of_pos hk, List.filter_nil, treeOf_concat_of_ne ho]
      · rw [List.filter_cons_of_neg hk, List.filter_nil, List.append_nil]

theorem opsOk_keeps (ok : OpsOk ops) (uses : ∀ op ∈ ops, ∀ y ∈ op.inputIds, y ∈ used) :
    OpsOk (ops.filter (keeps used)) := by
  induction ops using List.reverseRecOn with
  | nil => exact ok
  | append_singleton l op ih =>
    obtain ⟨left, inputs, fresh⟩ := opsOk_concat.1 ok
    have rest := ih left fun o ho => uses o (List.mem_append_left _ ho)
    rw [List.filter_append]
    by_cases hk : keeps used op
    · rw [List.filter_cons_of_pos hk, List.filter_nil]
      refine opsOk_concat.2 ⟨rest, fun y hy => ?_, fun id ho hm => ?_⟩
      · exact mem_outputs_keeps (uses op (by simp) y hy) (inputs y hy)
      · exact fresh id ho ((outputs_sublist List.filter_sublist).subset hm)
    · rw [List.filter_cons_of_neg hk, List.filter_nil, List.append_nil]
      exact rest

theorem effects_keeps (uses : ∀ op ∈ ops, ∀ y ∈ op.inputIds, y ∈ used) :
    effects (ops.filter (keeps used)) = effects ops := by
  have sinks : (ops.filter (keeps used)).filter (fun op => op.outputId.isNone) =
      ops.filter fun op => op.outputId.isNone := by
    rw [List.filter_filter]
    apply List.filter_congr
    intro op _
    unfold keeps
    cases op.outputId <;> simp
  unfold effects
  rw [sinks]
  apply List.map_congr_left
  intro op hop
  congr 1
  apply List.map_congr_left
  exact fun y hy => treeOf_keeps uses (uses op (List.mem_filter.1 hop).1 y hy)

end DeadCode

/-! ### The whole optimiser -/

theorem mem_usedValues {program : KirProgram} {op : KirOp} (hop : op ∈ program.ops) :
    ∀ y ∈ op.inputIds, y ∈ program.usedValues := fun _ hy =>
  List.mem_append_left _ (List.mem_flatMap.2 ⟨op, hop, hy⟩)

/-- The optimiser keeps what the operations without output do, the tree of the output and the
well-formedness of the program. -/
theorem optimize_dataflow (program : KirProgram) (ok : OpsOk program.ops) :
    effects (optimize program).ops = effects program.ops ∧
      (optimize program).output.map (treeOf (optimize program).ops) =
        program.output.map (treeOf program.ops) ∧
      OpsOk (optimize program).ops ∧
      ((∀ x ∈ program.output, x ∈ outputs program.ops) →
        ∀ x ∈ (optimize program).output, x ∈ outputs (optimize program).ops) := by
  have repl := replaces_replacements ok
  let merged := eliminateRedundantStrings program
  have uses : ∀ op ∈ merged.ops, ∀ y ∈ op.inputIds, y ∈ merged.usedValues := fun op hop =>
    mem_usedValues hop
  have outputUsed : ∀ x ∈ merged.output, x ∈ merged.usedValues := fun x hx =>
    List.mem_append_right _ (Option.mem_toList.2 hx)
  have mergedOk : OpsOk merged.ops := by
    have whole : Replaces (program.ops ++ []) (replacements program.ops) := by rwa [List.append_nil]
    exact whole.opsOk_merge
  refine ⟨?_, ?_, opsOk_keeps mergedOk uses, ?_⟩
  · exact (effects_keeps uses).trans repl.effects_merge
  · show merged.output.map (treeOf (merged.ops.filter (keeps merged.usedValues))) = _
    have trees : merged.output.map (treeOf (merged.ops.filter (keeps merged.usedValues))) =
        merged.output.map (treeOf merged.ops) := by
      cases ho : merged.output with
      | none => rfl
      | some x => exact congrArg some (treeOf_keeps uses (outputUsed x (by rw [ho]; rfl)))
    rw [trees]
    show (program.output.map (replaced _)).map (treeOf (merge _ program.ops)) = _
    cases program.output with
    | none => rfl
    | some x => exact congrArg some (repl.treeOf_output x)
  · intro produced x hx
    apply mem_outputs_keeps (outputUsed x hx)
    obtain ⟨y, hy, rfl⟩ := Option.mem_map.1 hx
    have whole : Replaces (program.ops ++ []) (replacements program.ops) := by rwa [List.append_nil]
    exact whole.mem_merge (produced y hy)

/-- A program with a repeated constant and an unused one. -/
def repeating : KirProgram :=
  ⟨[.constStr 0 "page", .constStr 1 "page", .sourceEntity 2 1, .constInt 3 5, .store 2 1], some 2, 4⟩

theorem optimize_dataflow_repeating :
    (optimize repeating).ops = [.constStr 0 "page", .sourceEntity 2 0, .store 2 0] ∧
      effects (optimize repeating).ops = effects repeating.ops :=
  ⟨by decide, (optimize_dataflow repeating (by decide)).1⟩

end TORdex.Optimizer
