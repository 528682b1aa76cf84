import TORdex.Tdxl.Dataflow
import TORdex.Tdxl.QueryOptimizer

/-!
# Moving the pipeline behind the rest

A rebuild first emits the operations outside the pipeline, then the pipeline.  The order is as good as the
old one when no operation outside the pipeline consumes a value of the pipeline.
-/

namespace TORdex.QueryOptimizer

/-! ## The pipeline goes forward -/

section Pipeline

variable {ops : List KirOp} {i j : ℕ} {v : KirValueId}

theorem mem_consumers : j ∈ consumers ops v ↔ ∃ op, ops[j]? = some op ∧ v ∈ op.inputIds := by
  unfold consumers
  simp only [List.mem_flatMap, List.mem_map, List.mem_filter, decide_eq_true_eq, Prod.exists,
    List.mem_zipIdx_iff_getElem?]
  constructor
  · rintro ⟨op, i, hi, x, ⟨hx, rfl⟩, rfl⟩
    exact ⟨op, hi, hx⟩
  · rintro ⟨op, hj, hv⟩
    exact ⟨op, j, hj, v, ⟨hv, rfl⟩, rfl⟩

/-- The second operation consumes the value of the first. -/
def Feeds (ops : List KirOp) (i j : ℕ) : Prop :=
  ∃ out, ops[i]?.bind KirOp.outputId = some out ∧ j ∈ consumers ops out

/-- Walking on appends a chain that starts at the current operation. -/
theorem walk_chain (ops : List KirOp) (rounds current : ℕ) (pipeline : List ℕ) :
    ∃ rest, walk ops rounds current pipeline = pipeline ++ rest ∧ rest.IsChain (Feeds ops) ∧
      ∀ i ∈ rest.head?, i = current := by
  have stop : ∀ (l : List ℕ) (c : ℕ), ∃ rest, l = l ++ rest ∧ rest.IsChain (Feeds ops) ∧
      ∀ i ∈ rest.head?, i = c := fun l c => ⟨[], (List.append_nil l).symm, .nil, by simp⟩
  have last : ∀ (l : List ℕ) (c : ℕ), ∃ rest, l ++ [c] = l ++ rest ∧ rest.IsChain (Feeds ops) ∧
      ∀ i ∈ rest.head?, i = c := fun l c => ⟨[c], rfl, .singleton _, by simp⟩
  induction rounds generalizing current pipeline with
  | zero => exact stop pipeline current
  | succ rounds ih =>
    unfold walk
    split_ifs with hc
    · exact stop pipeline current
    · dsimp only
      split
      · rename_i out hout
        split
        · rename_i next hnext
          obtain ⟨rest, eq, chain, head⟩ := ih next (pipeline ++ [current])
          refine ⟨current :: rest, by rw [eq, List.append_assoc]; rfl, ?_, by simp⟩
          have consumer : next ∈ consumers ops out := by
            have mem : next ∈ (consumers ops out).filter (· ∉ pipeline ++ [current]) := by
              rw [hnext]
              exact List.mem_singleton_self next
            exact (List.mem_filter.1 mem).1
          cases rest with
          | nil => exact .singleton _
          | cons i rest =>
            rw [head i rfl] at chain ⊢
            exact .cons_cons ⟨out, hout, consumer⟩ chain
        · exact last pipeline current
      · exact last pipeline current

theorem pipelineOps_chain (program : KirProgram) :
    (pipelineOps program).IsChain (Feeds program.ops) := by
  unfold pipelineOps
  split
  · rename_i start _
    obtain ⟨rest, eq, chain, -⟩ := walk_chain program.ops program.ops.length start []
    rw [eq]
    exact chain
  · exact .nil

/-- The value that the operation at an index produces. -/
def outputAt (ops : List KirOp) (i : ℕ) : Option KirValueId := ops[i]?.bind KirOp.outputId

theorem outputAt_inj (nodup : (outputs ops).Nodup) (hi : outputAt ops i = some v)
    (hj : outputAt ops j = some v) : i = j := by
  have apart := List.pairwise_iff_getElem.1 (List.pairwise_filterMap.1 nodup)
  obtain ⟨op, hop, ho⟩ := Option.bind_eq_some_iff.1 hi
  obtain ⟨op', hop', ho'⟩ := Option.bind_eq_some_iff.1 hj
  obtain ⟨hi, rfl⟩ := List.getElem?_eq_some_iff.1 hop
  obtain ⟨hj, rfl⟩ := List.getElem?_eq_some_iff.1 hop'
  rcases lt_trichotomy i j with lt | eq | lt
  · exact absurd rfl (apart i j hi hj lt v ho v ho')
  · exact eq
  · exact absurd rfl (apart j i hj hi lt v ho' v ho)

theorem produced_before (ok : OpsOk ops) {op : KirOp} (hi : ops[i]? = some op)
    (hv : v ∈ op.inputIds) : ∃ j < i, outputAt ops j = some v := by
  obtain ⟨lt, rfl⟩ := List.getElem?_eq_some_iff.1 hi
  obtain ⟨op', hop', ho⟩ := mem_outputs.1 ((opsOk_iff.1 ok).2 i lt v hv)
  obtain ⟨j, hj⟩ := List.mem_iff_getElem?.1 hop'
  rw [List.getElem?_take] at hj
  split_ifs at hj with h
  · exact ⟨j, h, by rw [outputAt, hj]; exact ho⟩

/-- In a well-formed program consumers come later. -/
theorem Feeds.lt (ok : OpsOk ops) (h : Feeds ops i j) : i < j := by
  obtain ⟨out, ho, hj⟩ := h
  obtain ⟨op, hop, hv⟩ := mem_consumers.1 hj
  obtain ⟨k, lt, hk⟩ := produced_before ok hop hv
  rwa [outputAt_inj ok.nodup ho hk]

theorem pipelineOps_sorted {program : KirProgram} (ok : OpsOk program.ops) :
    (pipelineOps program).Pairwise (· < ·) := by
  have chain := (pipelineOps_chain program).imp fun _ _ h => Feeds.lt ok h
  exact List.isChain_iff_pairwise.1 chain

end Pipeline

/-! ## Operations in another order -/

/-- The operations at some indices. -/
def opsOn (ops : List KirOp) (is : List ℕ) : List KirOp := is.filterMap fun i => ops[i]?

section Order

variable {ops : List KirOp} {is js : List ℕ} {x : KirValueId}

theorem opsOn_append : opsOn ops (is ++ js) = opsOn ops is ++ opsOn ops js := List.filterMap_append

theorem mem_outputs_opsOn : x ∈ outputs (opsOn ops is) ↔ ∃ i ∈ is, outputAt ops i = some x := by
  unfold opsOn outputs outputAt
  rw [List.filterMap_filterMap, List.mem_filterMap]

theorem outputs_opsOn_subset (h : x ∈ outputs (opsOn ops is)) : x ∈ outputs ops := by
  obtain ⟨i, -, hi⟩ := mem_outputs_opsOn.1 h
  obtain ⟨op, hop, ho⟩ := Option.bind_eq_some_iff.1 hi
  exact mem_outputs.2 ⟨op, List.mem_of_getElem? hop, ho⟩

/-- An order is well-formed when every operation comes after the producers of its inputs. -/
theorem opsOk_opsOn (ok : OpsOk ops) (nodup : is.Nodup)
    (after : ∀ l i l', is = l ++ i :: l' → ∀ op, ops[i]? = some op → ∀ x ∈ op.inputIds,
      ∃ j ∈ l, outputAt ops j = some x) : OpsOk (opsOn ops is) where
  nodup := by
    unfold opsOn outputs
    rw [List.filterMap_filterMap]
    exact nodup.filterMap fun i j v hi hj => outputAt_inj ok.nodup hi hj
  earlier before op later split x hx := by
    unfold opsOn at split
    obtain ⟨l, rest, rfl, rfl, hrest⟩ := List.filterMap_eq_append_iff.1 split
    obtain ⟨l₀, i, l', rfl, none, hi, rfl⟩ := List.filterMap_eq_cons_iff.1 hrest
    obtain ⟨j, hj, ho⟩ := after (l ++ l₀) i l' (by simp) op hi x hx
    rcases List.mem_append.1 hj with hj | hj
    · exact mem_outputs_opsOn.2 ⟨j, hj, ho⟩
    · rw [outputAt, none j hj] at ho
      cases ho

theorem filter_zipIdx (p : ℕ → Bool) (ops : List KirOp) :
    (ops.zipIdx.filter fun x => p x.2).map Prod.fst =
      opsOn ops ((List.range ops.length).filter p) := by
  induction ops using List.reverseRecOn with
  | nil => rfl
  | append_singleton ops op ih =>
    have old : opsOn (ops ++ [op]) ((List.range ops.length).filter p) =
        opsOn ops ((List.range ops.length).filter p) := by
      apply List.filterMap_congr
      intro i hi
      have lt := List.mem_range.1 (List.mem_filter.1 hi).1
      exact List.getElem?_append_left lt
    rw [List.zipIdx_append, List.filter_append, List.map_append, ih, List.length_append,
      List.length_singleton, List.range_succ, List.filter_append, opsOn_append, old]
    congr 1
    cases h : p ops.length <;> simp [opsOn, h]

end Order

/-! ## The pipeline last -/

section Last

variable {program : KirProgram}

/-- The indices outside the pipeline. -/
def keptIndices (program : KirProgram) : List ℕ :=
  (List.range program.ops.length).filter (· ∉ pipelineOps program)

theorem keptOps_eq (program : KirProgram) :
    keptOps program = opsOn program.ops (keptIndices program) :=
  filter_zipIdx (fun i => i ∉ pipelineOps program) program.ops

/-- The operations of the pipeline. -/
def pipeOps (program : KirProgram) : List KirOp := opsAt program (pipelineOps program)

/-- No operation outside the pipeline consumes a value of the pipeline. -/
def Closed (program : KirProgram) : Prop :=
  ∀ op ∈ keptOps program, ∀ x ∈ op.inputIds, x ∉ outputs (pipeOps program)

theorem mem_left_of_lt {l l' : List ℕ} {i j : ℕ} (sorted : (l ++ i :: l').Pairwise (· < ·))
    (hj : j ∈ l ++ i :: l') (lt : j < i) : j ∈ l := by
  rcases List.mem_append.1 hj with hj | hj
  · exact hj
  · have tail := List.pairwise_cons.1 (List.pairwise_append.1 sorted).2.1
    rcases List.mem_cons.1 hj with rfl | hj
    · omega
    · have := tail.1 j hj
      omega

/-- The pipeline can come last when nothing outside it consumes its values. -/
theorem opsOk_pipeLast (ok : OpsOk program.ops) (closed : Closed program) :
    OpsOk (keptOps program ++ pipeOps program) := by
  have sorted := pipelineOps_sorted ok
  have keptSorted : (keptIndices program).Pairwise (· < ·) :=
    List.pairwise_lt_range.sublist List.filter_sublist
  have inRange : ∀ j x, outputAt program.ops j = some x → j ∈ List.range program.ops.length := by
    intro j x hj
    obtain ⟨op, hop, -⟩ := Option.bind_eq_some_iff.1 hj
    exact List.mem_range.2 (List.getElem?_eq_some_iff.1 hop).1
  have apart : (keptIndices program ++ pipelineOps program).Nodup := by
    refine List.nodup_append.2 ⟨keptSorted.imp Nat.ne_of_lt, sorted.imp Nat.ne_of_lt, ?_⟩
    rintro i hi j hj rfl
    have out := (List.mem_filter.1 hi).2
    simp only [decide_eq_true_eq] at out
    exact out hj
  have order : keptOps program ++ pipeOps program =
      opsOn program.ops (keptIndices program ++ pipelineOps program) := by
    rw [opsOn_append, keptOps_eq]
    rfl
  rw [order]
  refine opsOk_opsOn ok apart fun l i l' split op hi x hx => ?_
  obtain ⟨j, lt, hj⟩ := produced_before ok hi hx
  refine ⟨j, ?_, hj⟩
  -- The producer of an operation of the pipeline is outside the pipeline or earlier in it.
  have inPipe : ∀ a, pipelineOps program = a ++ i :: l' → j ∈ keptIndices program ++ a := by
    intro a pipe
    by_cases hm : j ∈ pipelineOps program
    · rw [pipe] at hm sorted
      exact List.mem_append_right _ (mem_left_of_lt sorted hm lt)
    · exact List.mem_append_left _ (List.mem_filter.2 ⟨inRange j x hj, decide_eq_true hm⟩)
  rcases List.append_eq_append_iff.1 split with ⟨a, rfl, pipe⟩ | ⟨c, kept, rest⟩
  · exact inPipe a pipe
  · cases c with
    | nil =>
      rw [List.append_nil] at kept
      have := inPipe [] rest.symm
      rwa [kept, List.append_nil] at this
    | cons k c =>
      -- The producer of an operation outside the pipeline is outside it, too.
      obtain ⟨rfl, -⟩ := List.cons.inj rest
      have here : op ∈ keptOps program := by
        rw [keptOps_eq, kept]
        exact List.mem_filterMap.2 ⟨i, by simp, hi⟩
      have out : j ∉ pipelineOps program := fun hm =>
        closed op here x hx (mem_outputs_opsOn.2 ⟨j, hm, hj⟩)
      have member : j ∈ keptIndices program :=
        List.mem_filter.2 ⟨inRange j x hj, decide_eq_true out⟩
      rw [kept] at member keptSorted
      exact mem_left_of_lt keptSorted member lt

/-- Every value is produced outside the pipeline or by it. -/
theorem mem_outputs_pipeLast {x : KirValueId} (h : x ∈ outputs program.ops) :
    x ∈ outputs (keptOps program) ∨ x ∈ outputs (pipeOps program) := by
  obtain ⟨op, hop, ho⟩ := mem_outputs.1 h
  obtain ⟨i, hi⟩ := List.mem_iff_getElem?.1 hop
  have here : outputAt program.ops i = some x := by rw [outputAt, hi]; exact ho
  by_cases hm : i ∈ pipelineOps program
  · exact .inr (mem_outputs_opsOn.2 ⟨i, hm, here⟩)
  · have lt := (List.getElem?_eq_some_iff.1 hi).1
    rw [keptOps_eq]
    refine .inl (mem_outputs_opsOn.2 ⟨i, ?_, here⟩)
    exact List.mem_filter.2 ⟨List.mem_range.2 lt, decide_eq_true hm⟩

end Last

/-! ## Rewriting the pipeline -/

/-- A pipeline with some operations changed and some neighbours fused; a changed operation consumes what the
first of its operations did, and produces what one of them did. -/
inductive Rewrites : List KirOp → List KirOp → Prop
  | nil : Rewrites [] []
  | keep {op op' : KirOp} {pipe pipe' : List KirOp} (inputs : op'.inputIds = op.inputIds)
      (output : op'.outputId = op.outputId) (rest : Rewrites pipe pipe') :
      Rewrites (op :: pipe) (op' :: pipe')
  | fuse {op next op' : KirOp} {pipe pipe' : List KirOp} (inputs : op'.inputIds = op.inputIds)
      (output : op'.outputId = op.outputId ∨ op'.outputId = next.outputId)
      (rest : Rewrites pipe pipe') : Rewrites (op :: next :: pipe) (op' :: pipe')

section Rewriting

variable {pipe pipe' l : List KirOp}

theorem Rewrites.refl : ∀ pipe : List KirOp, Rewrites pipe pipe
  | [] => .nil
  | _ :: pipe => .keep rfl rfl (refl pipe)

theorem outputs_cons (op : KirOp) : outputs (op :: l) = op.outputId.toList ++ outputs l := by
  cases h : op.outputId <;> simp [outputs, h]

theorem Rewrites.outputs (h : Rewrites pipe pipe') :
    (TORdex.outputs pipe').Sublist (TORdex.outputs pipe) := by
  induction h with
  | nil => exact .slnil
  | keep _ output _ ih =>
    rw [outputs_cons, outputs_cons, output]
    exact (List.Sublist.refl _).append ih
  | fuse _ output _ ih =>
    rw [outputs_cons, outputs_cons, outputs_cons, ← List.append_assoc]
    refine List.Sublist.append ?_ ih
    rcases output with output | output
    · rw [output]
      exact List.sublist_append_left _ _
    · rw [output]
      exact List.sublist_append_right _ _

/-- A rewritten operation stands for one of the pipeline with the same inputs. -/
theorem Rewrites.split (h : Rewrites pipe pipe') {before after : List KirOp} {op : KirOp}
    (eq : pipe' = before ++ op :: after) : ∃ before' op' after', pipe = before' ++ op' :: after' ∧
      op.inputIds = op'.inputIds ∧
      (TORdex.outputs (op :: after)).Sublist (TORdex.outputs (op' :: after')) := by
  induction h generalizing before with
  | nil => simp at eq
  | @keep first first' pipe pipe' inputs output rest ih =>
    cases before with
    | nil =>
      obtain ⟨rfl, rfl⟩ := List.cons.inj eq
      exact ⟨[], first, pipe, rfl, inputs, (Rewrites.keep inputs output rest).outputs⟩
    | cons _ before =>
      obtain ⟨before', op', after', rfl, same, sub⟩ := ih (List.cons.inj eq).2
      exact ⟨first :: before', op', after', rfl, same, sub⟩
  | @fuse first next first' pipe pipe' inputs output rest ih =>
    cases before with
    | nil =>
      obtain ⟨rfl, rfl⟩ := List.cons.inj eq
      exact ⟨[], first, next :: pipe, rfl, inputs, (Rewrites.fuse inputs output rest).outputs⟩
    | cons _ before =>
      obtain ⟨before', op', after', rfl, same, sub⟩ := ih (List.cons.inj eq).2
      exact ⟨first :: next :: before', op', after', rfl, same, sub⟩

/-- The rewritten pipeline fits behind the same operations when nothing consumes what it has dropped. -/
theorem Rewrites.opsOk (h : Rewrites pipe pipe') (ok : OpsOk (l ++ pipe))
    (unused : ∀ x ∈ TORdex.outputs pipe, x ∉ TORdex.outputs pipe' →
      ∀ op ∈ pipe', x ∉ op.inputIds) : OpsOk (l ++ pipe') where
  nodup := by
    have nodup := ok.nodup
    rw [outputs_append] at nodup ⊢
    exact nodup.sublist ((List.Sublist.refl _).append h.outputs)
  earlier before op after split x hx := by
    have inPipe : ∀ a, pipe' = a ++ op :: after → x ∈ TORdex.outputs (l ++ a) := by
      rintro a rfl
      obtain ⟨before', op', after', rfl, same, sub⟩ := h.split rfl
      rw [outputs_append]
      have earlier := ok.earlier (l ++ before') op' after' (by simp) x (same ▸ hx)
      rw [outputs_append] at earlier
      rcases List.mem_append.1 earlier with old | old
      · exact List.mem_append_left _ old
      · have stays : x ∈ TORdex.outputs (a ++ op :: after) := by
          by_contra gone
          refine unused x ?_ gone op (by simp) hx
          rw [outputs_append]
          exact List.mem_append_left _ old
        rw [outputs_append] at stays
        rcases List.mem_append.1 stays with here | later
        · exact List.mem_append_right _ here
        · have nodup := ok.nodup
          rw [outputs_append, outputs_append, List.nodup_append] at nodup
          exact absurd rfl ((List.nodup_append.1 nodup.2.1).2.2 x old x (sub.subset later))
    rcases List.append_eq_append_iff.1 split with ⟨a, rfl, eq⟩ | ⟨c, rfl, rest⟩
    · exact inPipe a eq
    · cases c with
      | nil =>
        have := inPipe [] rest.symm
        simpa using this
      | cons k c =>
        obtain ⟨rfl, -⟩ := List.cons.inj rest
        exact ok.left.earlier before op c rfl x hx

end Rewriting

/-! ## Well-formed programs -/

/-- Every id is produced once and before its uses, and the output of the program is produced. -/
structure WellFormed (program : KirProgram) : Prop where
  ops : OpsOk program.ops
  output : ∀ x ∈ program.output, x ∈ outputs program.ops

instance (program : KirProgram) : Decidable (WellFormed program) :=
  decidable_of_iff (OpsOk program.ops ∧ ∀ x ∈ program.output, x ∈ outputs program.ops)
    ⟨fun h => ⟨h.1, h.2⟩, fun h => ⟨h.ops, h.output⟩⟩

/-- The program with another pipeline after the rest, under the old ids. -/
def regroup (program : KirProgram) (newPipe : List KirOp) : KirProgram :=
  { program with ops := keptOps program ++ newPipe }

/-- What the new pipeline needs: nothing outside the pipeline consumes its values, and nothing uses the
values that the new pipeline has dropped. -/
structure Detached (program : KirProgram) (newPipe : List KirOp) : Prop where
  closed : Closed program
  unused : ∀ x ∈ outputs (pipeOps program), x ∉ outputs newPipe →
    program.output ≠ some x ∧ ∀ op ∈ newPipe, x ∉ op.inputIds

instance (program : KirProgram) : Decidable (Closed program) :=
  inferInstanceAs (Decidable (∀ op ∈ keptOps program, ∀ x ∈ op.inputIds,
    x ∉ outputs (pipeOps program)))

instance (program : KirProgram) (newPipe : List KirOp) : Decidable (Detached program newPipe) :=
  decidable_of_iff (Closed program ∧ ∀ x ∈ outputs (pipeOps program), x ∉ outputs newPipe →
      program.output ≠ some x ∧ ∀ op ∈ newPipe, x ∉ op.inputIds)
    ⟨fun h => ⟨h.1, h.2⟩, fun h => ⟨h.closed, h.unused⟩⟩

theorem WellFormed.regroup {program : KirProgram} {newPipe : List KirOp} (h : WellFormed program)
    (rewrites : Rewrites (pipeOps program) newPipe) (detached : Detached program newPipe) :
    WellFormed (regroup program newPipe) where
  ops := rewrites.opsOk (opsOk_pipeLast h.ops detached.closed) fun x hx gone =>
    (detached.unused x hx gone).2
  output := by
    intro x hx
    show x ∈ outputs (keptOps program ++ newPipe)
    rw [outputs_append, List.mem_append]
    refine (mem_outputs_pipeLast (h.output x hx)).imp_right fun hp => ?_
    by_contra gone
    exact (detached.unused x hp gone).1 hx

/-! ## The rewritings of the passes -/

theorem rewrites_mergeFilters (pipe : List KirOp) : Rewrites pipe (mergeFilters pipe) := by
  fun_induction mergeFilters pipe with
  | case1 _ _ _ _ _ _ _ ih => exact .fuse rfl (.inr rfl) ih
  | case2 _ _ _ ih => exact .keep rfl rfl ih
  | case3 => exact .nil

theorem rewrites_fuseOps (pipe : List KirOp) : Rewrites pipe (fuseOps pipe) := by
  fun_induction fuseOps pipe with
  | case1 _ _ _ _ _ ih => exact .fuse rfl (.inr rfl) ih
  | case2 _ _ _ _ _ ih => exact .fuse rfl (.inl rfl) ih
  | case3 _ _ _ _ ih => exact .keep rfl rfl ih
  | case4 => exact .nil

theorem rewrites_pruneTraversals (est : Estimates) (pipe : List KirOp) :
    Rewrites pipe (pruneTraversals est pipe).1 := by
  induction pipe with
  | nil => exact .nil
  | cons op pipe ih =>
    cases op with
    | traverse o i r d =>
      simp only [pruneTraversals]
      cases (limitIn pipe).bind (prunedDepth est d) with
      | none => exact .keep rfl rfl ih
      | some new => exact .keep rfl rfl ih
    | _ => exact .keep rfl rfl ih

end TORdex.QueryOptimizer
