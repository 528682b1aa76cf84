import Mathlib.Data.List.SplitBy
import TORdex.Tdxl.Renaming

/-!
# When the query optimiser keeps a program well-formed

Ids apart, each pass regroups the program.  A pass leaves no id unmapped when its pipeline is detached from
the rest.
-/

namespace TORdex.QueryOptimizer

/-! ## Rewriting renamed pipelines -/

section Rename

variable (r : KirValueId → KirValueId) (est : Estimates)

theorem mergeFilters_rename : ∀ pipe : List KirOp,
    mergeFilters (pipe.map (KirOp.rename r)) = (mergeFilters pipe).map (KirOp.rename r)
  | [] => rfl
  | [op] => by cases op <;> rfl
  | op :: next :: pipe => by
    have rest := mergeFilters_rename (next :: pipe)
    have rest' := mergeFilters_rename pipe
    cases op with
    | filter o i f =>
      cases next with
      | filter o' i' g => exact congrArg (KirOp.filter (r o') (r i) (compound f g) :: ·) rest'
      | _ => exact congrArg (KirOp.filter (r o) (r i) f :: ·) rest
    | _ => exact congrArg (KirOp.rename r _ :: ·) rest

theorem fuseOps_rename : ∀ pipe : List KirOp,
    fuseOps (pipe.map (KirOp.rename r)) = (fuseOps pipe).map (KirOp.rename r)
  | [] => rfl
  | [op] => by cases op <;> rfl
  | op :: next :: pipe => by
    have rest := fuseOps_rename (next :: pipe)
    have rest' := fuseOps_rename pipe
    cases op with
    | collect o s =>
      cases next with
      | loadGraph o' i => exact congrArg (KirOp.collect (r o') (r s) :: ·) rest'
      | _ => exact congrArg (KirOp.collect (r o) (r s) :: ·) rest
    | observe o i =>
      cases next with
      | classify o' i' => exact congrArg (KirOp.observe (r o) (r i) :: ·) rest'
      | _ => exact congrArg (KirOp.observe (r o) (r i) :: ·) rest
    | _ => exact congrArg (KirOp.rename r _ :: ·) rest

theorem limitIn_rename (pipe : List KirOp) : limitIn (pipe.map (KirOp.rename r)) = limitIn pipe := by
  induction pipe with
  | nil => rfl
  | cons op pipe ih =>
    unfold limitIn at ih ⊢
    cases op <;> simp [KirOp.rename, KirOp.outputId, KirOp.mapInputs, KirOp.withOutput, ih]

theorem pruneTraversals_rename (pipe : List KirOp) :
    pruneTraversals est (pipe.map (KirOp.rename r)) =
      ((pruneTraversals est pipe).1.map (KirOp.rename r), (pruneTraversals est pipe).2) := by
  induction pipe with
  | nil => rfl
  | cons op pipe ih =>
    cases op with
    | traverse o i x d =>
      show pruneTraversals est (.traverse (r o) (r i) (r x) d :: pipe.map (KirOp.rename r)) = _
      simp only [pruneTraversals, ih, limitIn_rename]
      cases (limitIn pipe).bind (prunedDepth est d) <;> rfl
    | _ => exact congrArg (fun x : List KirOp × Bool => (KirOp.rename r _ :: x.1, x.2)) ih

end Rename

/-! ## Reordering changes nothing -/

section Reorder

/-- The second operation consumes the value of the first. -/
def Consumes (op next : KirOp) : Prop := ∃ out, op.outputId = some out ∧ out ∈ next.inputIds

theorem consumes_of_feeds {ops : List KirOp} {is : List ℕ} (h : is.IsChain (Feeds ops)) :
    (opsOn ops is).IsChain Consumes := by
  induction h with
  | nil => exact .nil
  | singleton i =>
    unfold opsOn
    cases h : ops[i]? <;> simp [h]
  | @cons_cons i j is feeds _ ih =>
    obtain ⟨out, ho, hj⟩ := feeds
    obtain ⟨op, hop, ho⟩ := Option.bind_eq_some_iff.1 ho
    obtain ⟨next, hnext, hx⟩ := mem_consumers.1 hj
    have tail : opsOn ops (j :: is) = next :: opsOn ops is := by simp [opsOn, hnext]
    have both : opsOn ops (i :: j :: is) = op :: next :: opsOn ops is := by
      rw [← tail]
      simp [opsOn, hop]
    rw [tail] at ih
    rw [both]
    exact .cons_cons ⟨out, ho, hx⟩ ih

/-- All selectivities are the default. -/
theorem selectivityOf_filter {op : KirOp} (h : op.isFilter) : selectivityOf op = ⟨false, 15, -2⟩ := by
  cases op with
  | filter o i c => rfl
  | _ => cases h

theorem rewire_chain {run : List KirOp} {prev : KirValueId} (filters : ∀ op ∈ run, op.isFilter)
    (chain : run.IsChain Consumes) (first : ∀ op ∈ run.head?, op.inputIds = [prev]) :
    rewire prev run = run := by
  induction run generalizing prev with
  | nil => rfl
  | cons op run ih =>
    cases op with
    | filter o i c =>
      have input : i = prev := (List.cons.inj (first _ rfl)).1
      have rest : rewire o run = run := by
        refine ih (fun op hop => filters op (List.mem_cons_of_mem _ hop)) chain.tail fun op hop => ?_
        cases run with
        | nil => cases hop
        | cons next run =>
          cases hop
          obtain ⟨out, ho, hx⟩ := (List.isChain_cons_cons.1 chain).1
          cases ho
          have filter := filters op (by simp)
          cases op with
          | filter o' i' c' => rw [List.mem_singleton.1 hx]; rfl
          | _ => cases filter
      rw [rewire, rest, input]
    | _ => exact absurd (filters _ List.mem_cons_self) (by simp [KirOp.isFilter])

theorem all_isFilter {op : KirOp} {run : List KirOp}
    (same : (op :: run).IsChain fun a b => a.isFilter == b.isFilter) (h : op.isFilter) :
    ∀ x ∈ op :: run, x.isFilter := by
  induction run generalizing op with
  | nil => exact List.forall_mem_singleton.2 h
  | cons next run ih =>
    obtain ⟨eq, rest⟩ := List.isChain_cons_cons.1 same
    have filter : next.isFilter := by rw [← eq_of_beq eq, h]
    exact List.forall_mem_cons.2 ⟨h, ih rest filter⟩

theorem sortRun_chain {run : List KirOp} (same : run.IsChain fun a b => a.isFilter == b.isFilter)
    (chain : run.IsChain Consumes) : sortRun run = run := by
  unfold sortRun
  split
  · rename_i o i c next rest
    have filters : ∀ op ∈ KirOp.filter o i c :: next :: rest, op.isFilter := all_isFilter same rfl
    have sorted : (KirOp.filter o i c :: next :: rest).mergeSort
        (fun a b => decimalLe (selectivityOf a) (selectivityOf b)) =
          KirOp.filter o i c :: next :: rest := by
      apply List.mergeSort_of_pairwise
      refine List.pairwise_of_forall_mem_list fun a ha b hb => ?_
      rw [selectivityOf_filter (filters a ha), selectivityOf_filter (filters b hb)]
      decide
    rw [sorted]
    exact rewire_chain filters chain fun op hop => by cases hop; rfl
  · rfl

theorem reorderFilters_pipeOps (program : KirProgram) :
    reorderFilters (pipeOps program) = pipeOps program := by
  have chain : (pipeOps program).IsChain Consumes := consumes_of_feeds (pipelineOps_chain program)
  have fixed : ∀ run ∈ (pipeOps program).splitBy (fun a b => a.isFilter == b.isFilter),
      sortRun run = run := by
    intro run hrun
    have inside := List.infix_of_mem_flatten hrun
    rw [List.flatten_splitBy] at inside
    have group : run.IsChain Consumes := List.IsChain.infix chain inside
    exact sortRun_chain (List.isChain_of_mem_splitBy hrun) group
  unfold reorderFilters
  rw [List.flatMap_def, List.map_congr_left fixed, List.map_id', List.flatten_splitBy]

end Reorder

/-! ## The passes under the old ids -/

variable (est : Estimates) (program : KirProgram)

/-- The pushdown, ids apart. -/
def pushed : KirProgram := regroup program (mergeFilters (pipeOps program))

/-- The pruning, ids apart. -/
def pruned : KirProgram :=
  if (pruneTraversals est (pipeOps program)).2 then
    regroup program (pruneTraversals est (pipeOps program)).1
  else program

/-- The reordering, ids apart: only the pipeline moves. -/
def reordered : KirProgram :=
  if (pipelineOps program).length < 2 then program else regroup program (pipeOps program)

/-- No pass leaves an id unmapped: the pipelines that the passes rebuild, each found in what the passes
before have regrouped, are detached. -/
structure Untangled : Prop where
  pushdown : Detached program (mergeFilters (pipeOps program))
  pruning : (pruneTraversals est (pipeOps (pushed program))).2 →
    Detached (pushed program) (pruneTraversals est (pipeOps (pushed program))).1
  reordering : 2 ≤ (pipelineOps (pruned est (pushed program))).length →
    Detached (pruned est (pushed program)) (pipeOps (pruned est (pushed program)))
  fusion : Detached (reordered (pruned est (pushed program)))
    (fuseOps (pipeOps (reordered (pruned est (pushed program)))))

/-- The program is a well-formed one, renamed. -/
def Mirrors (a q : KirProgram) : Prop := WellFormed a ∧ ∃ r, Image a q r

section Mirrors

variable {est} {a q : KirProgram}

theorem mirrors_self (h : WellFormed a) : Mirrors a a := by
  refine ⟨h, fun x => x, fun _ _ _ _ same => same, ?_, by simp⟩
  rw [List.map_congr_left fun op _ => KirOp.rename_id op, List.map_id']

theorem Mirrors.pipelineOps (h : Mirrors a q) :
    QueryOptimizer.pipelineOps q = QueryOptimizer.pipelineOps a := by
  obtain ⟨ok, r, image⟩ := h
  exact pipelineOps_image ok.ops image

/-- A rebuild with a rewriting that does the same on renamed pipelines. -/
theorem Mirrors.rebuild (h : Mirrors a q) {f : List KirOp → List KirOp}
    (rename : ∀ r pipe, f (pipe.map (KirOp.rename r)) = (f pipe).map (KirOp.rename r))
    (rewrites : Rewrites (pipeOps a) (f (pipeOps a))) (detached : Detached a (f (pipeOps a))) :
    Mirrors (regroup a (f (pipeOps a))) (rebuildFromPipeline q (f (pipeOps q))) := by
  obtain ⟨ok, r, image⟩ := h
  refine ⟨ok.regroup rewrites detached, ?_⟩
  rw [pipeOps_image ok.ops image, rename]
  exact Image.rebuild image ok rewrites detached

/-- Without a pipeline there is nothing to regroup. -/
theorem regroup_nil (h : QueryOptimizer.pipelineOps a = []) : regroup a [] = a := by
  have kept : keptOps a = a.ops := by
    unfold keptOps
    rw [h]
    simp
  unfold regroup
  rw [kept, List.append_nil]

theorem pipeOps_nil (h : QueryOptimizer.pipelineOps a = []) : pipeOps a = [] := by
  unfold pipeOps
  rw [h]
  rfl

/-- The pushdown and the fusion rebuild every program that has a pipeline. -/
theorem Mirrors.rebuild' (h : Mirrors a q) {f : List KirOp → List KirOp} (nil : f [] = [])
    (rename : ∀ r pipe, f (pipe.map (KirOp.rename r)) = (f pipe).map (KirOp.rename r))
    (rewrites : Rewrites (pipeOps a) (f (pipeOps a))) (detached : Detached a (f (pipeOps a))) :
    Mirrors (regroup a (f (pipeOps a))) (if (QueryOptimizer.pipelineOps q).isEmpty then q
      else rebuildFromPipeline q (f (pipeOps q))) := by
  split_ifs with empty
  · rw [h.pipelineOps, List.isEmpty_iff] at empty
    rwa [pipeOps_nil empty, nil, regroup_nil empty]
  · exact h.rebuild rename rewrites detached

theorem Mirrors.pushed (h : Mirrors a q) (detached : Detached a (mergeFilters (pipeOps a))) :
    Mirrors (pushed a) (predicatePushdown q) :=
  h.rebuild' rfl mergeFilters_rename (rewrites_mergeFilters _) detached

theorem Mirrors.fused (h : Mirrors a q) (detached : Detached a (fuseOps (pipeOps a))) :
    Mirrors (regroup a (fuseOps (pipeOps a))) (operatorFusion q) :=
  h.rebuild' rfl fuseOps_rename (rewrites_fuseOps _) detached

theorem Mirrors.pruned (h : Mirrors a q)
    (detached : (pruneTraversals est (pipeOps a)).2 →
      Detached a (pruneTraversals est (pipeOps a)).1) :
    Mirrors (pruned est a) (traversalPruning est q) := by
  have flag : (pruneTraversals est (pipeOps q)).2 = (pruneTraversals est (pipeOps a)).2 := by
    obtain ⟨ok, r, image⟩ := h
    rw [pipeOps_image ok.ops image, pruneTraversals_rename]
  have code : traversalPruning est q =
      if (QueryOptimizer.pipelineOps q).isEmpty then q
      else if (pruneTraversals est (pipeOps q)).2 then
        rebuildFromPipeline q (pruneTraversals est (pipeOps q)).1
      else q := rfl
  unfold QueryOptimizer.pruned
  rw [code, flag]
  split_ifs with changed empty empty
  · rw [h.pipelineOps, List.isEmpty_iff] at empty
    rw [pipeOps_nil empty] at changed
    cases changed
  · exact h.rebuild (f := fun pipe => (pruneTraversals est pipe).1)
      (fun r pipe => congrArg Prod.fst (pruneTraversals_rename r est pipe))
      (rewrites_pruneTraversals est _) (detached changed)
  · exact h
  · exact h

theorem Mirrors.reordered (h : Mirrors a q)
    (detached : 2 ≤ (QueryOptimizer.pipelineOps a).length → Detached a (pipeOps a)) :
    Mirrors (reordered a) (joinReordering q) := by
  unfold joinReordering QueryOptimizer.reordered
  dsimp only
  rw [h.pipelineOps]
  split_ifs with short
  · exact h
  · have same : reorderFilters (opsAt q (QueryOptimizer.pipelineOps a)) = pipeOps q := by
      rw [← h.pipelineOps]
      exact reorderFilters_pipeOps q
    rw [same]
    exact h.rebuild (f := fun pipe => pipe) (fun _ _ => rfl) (.refl _) (detached (by omega))

end Mirrors

/-- The query optimiser keeps a program well-formed when its pipelines are detached. -/
theorem wellFormed_optimizeQuery {est : Estimates} {program : KirProgram} (h : WellFormed program)
    (untangled : Untangled est program) : WellFormed (optimizeQuery est program) := by
  have first := (mirrors_self h).pushed untangled.pushdown
  have second := first.pruned untangled.pruning
  have third := second.reordered untangled.reordering
  obtain ⟨ok, r, image⟩ := third.fused untangled.fusion
  exact ok.image image

/-- `FROM a`, two filters and an inference. -/
def chained : KirProgram :=
  ⟨[.constStr 0 "a", .collect 1 0, .filter 2 1 ⟨"kind", "eq", "x"⟩, .filter 3 2 ⟨"size", "gt", "1"⟩,
    .constStr 4 "rule", .infer 5 3 4, .ret 5], some 5, 6⟩

theorem wellFormed_optimizeQuery_chained :
    WellFormed (optimizeQuery ⟨fun _ _ => false, fun _ => 0⟩ chained) := by
  apply wellFormed_optimizeQuery
  · decide
  · exact ⟨by decide, by decide, by decide, by decide⟩

/-- `FROM a` and `LIMIT 5`: the hint and the return share the collected value. -/
def limited : KirProgram :=
  ⟨[.constStr 0 "a", .collect 1 0, .limitHint 1 5, .ret 1], some 1, 2⟩

theorem limited_illFormed :
    WellFormed limited ∧ ¬WellFormed (optimizeQuery ⟨fun _ _ => false, fun _ => 0⟩ limited) := by
  decide

end TORdex.QueryOptimizer
