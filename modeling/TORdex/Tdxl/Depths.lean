import Mathlib.Algebra.Order.BigOperators.Group.List
import Mathlib.Data.List.SplitBy
import TORdex.Tdxl.Compile
import TORdex.Tdxl.Pipeline

/-!
# The depths of traversals

A statement's depth is lowered to an `i32`, and code generation loads it with an immediate.  In between the removal
of dead code drops depths, and the pruning of traversals cuts some down; the other passes at most reorder them.
-/

namespace TORdex

open Ast

/-- The depth of a `TRAVERSE`. -/
def Ast.Stmt.depth : Stmt → Option ℕ
  | .traverse _ depth => depth
  | _ => none

/-- The depth that an operation carries. -/
def KirOp.depth : KirOp → Option ℤ
  | .traverse _ _ _ depth => depth
  | _ => none

/-- The depths that operations carry. -/
def depthsOf (ops : List KirOp) : List ℤ := ops.filterMap KirOp.depth

@[simp] theorem depthsOf_push (prog : KirProgram) (op : KirOp) :
    depthsOf (prog.push op).ops = depthsOf prog.ops ++ op.depth.toList := by
  show depthsOf (prog.ops ++ [op]) = _
  unfold depthsOf
  rw [List.filterMap_append]
  cases h : op.depth <;> simp [h]

@[simp] theorem depthsOf_allocId (prog : KirProgram) : depthsOf prog.allocId.2.ops = depthsOf prog.ops := rfl

/-! ## Lowering -/

namespace Lowering

variable (prog : KirProgram) (input : Option KirValueId)

@[simp] theorem depthsOf_lowerRawString (s : String) :
    depthsOf (lowerRawString s prog).2.ops = depthsOf prog.ops := by
  simp [lowerRawString, KirOp.depth]

@[simp] theorem depthsOf_inputOrDummy : depthsOf (inputOrDummy input prog).2.ops = depthsOf prog.ops := by
  cases input with
  | some => rfl
  | none => simp [inputOrDummy, KirOp.depth]

/-- A statement adds its depth, as an `i32`. -/
theorem depthsOf_lowerStmt (stmt : Stmt) :
    depthsOf (lowerStmt stmt prog input).2.ops = depthsOf prog.ops ++ (stmt.depth.map asI32).toList := by
  have matching : ∀ expr, depthsOf (lowerMatch expr prog input).2.ops = depthsOf prog.ops := by
    intro expr
    cases expr <;> simp [lowerMatch, KirOp.depth]
  cases stmt with
  | matchExpr expr | whereExpr expr | filter expr =>
    simpa [lowerStmt, Stmt.depth] using matching expr
  | fromSource | load => simp [lowerStmt, lowerCollect, lowerString, Stmt.depth, KirOp.depth]
  | summarize | classify => simp [lowerStmt, lowerObserve, Stmt.depth, KirOp.depth]
  | _ => simp [lowerStmt, lowerString, Stmt.depth, KirOp.depth]

theorem depthsOf_lowerStmts (stmts : List Stmt) (state : Option KirValueId × KirProgram) :
    depthsOf (lowerStmts stmts state).2.ops =
      depthsOf state.2.ops ++ (stmts.filterMap Stmt.depth).map asI32 := by
  induction stmts generalizing state with
  | nil => exact (List.append_nil _).symm
  | cons stmt stmts ih =>
    have first := depthsOf_lowerStmt state.2 state.1 stmt
    show depthsOf (lowerStmts stmts (lowerStmt stmt state.2 state.1)).2.ops = _
    rw [ih, first, List.append_assoc]
    cases h : stmt.depth <;> simp [h]

/-- The depths of a lowered program are those of its statements. -/
theorem depthsOf_lowerAst (stmts : List Stmt) :
    depthsOf (lowerAst stmts).ops = (stmts.filterMap Stmt.depth).map asI32 := by
  have all := depthsOf_lowerStmts stmts (none, .new)
  unfold lowerAst
  split
  rename_i pipeline prog eq
  rw [eq] at all
  split
  · show depthsOf (prog.push _).ops = _
    rw [depthsOf_push, all]
    simp [depthsOf, KirProgram.new, KirOp.depth]
  · exact all

end Lowering

/-! ## Instructions -/

/-- The depths that a program loads. -/
def loadedDepths (instrs : List Vm.Instruction) : List ℤ :=
  instrs.filterMap fun i => if i.opcode = .loadImm ∧ i.regA = DEPTH then some i.imm.toInt else none

theorem loadedDepths_append (instrs instrs' : List Vm.Instruction) :
    loadedDepths (instrs ++ instrs') = loadedDepths instrs ++ loadedDepths instrs' := List.filterMap_append

namespace CodegenEngine

theorem loadedDepths_eq_nil {instrs : List Vm.Instruction} (other : ∀ i ∈ instrs, i.opcode ≠ .loadImm) :
    loadedDepths instrs = [] := by
  refine List.filterMap_eq_nil_iff.2 fun i hi => ?_
  simp [other i hi]

theorem loadedDepths_accCode (e : CodegenEngine) (id : KirValueId) : loadedDepths (e.accCode id) = [] :=
  loadedDepths_eq_nil fun i hi => by rw [eq_of_mem_accCode hi]; nofun

theorem loadedDepths_strCode (e : CodegenEngine) (id : KirValueId) (s : String) :
    loadedDepths (e.strCode id s) = [] :=
  loadedDepths_eq_nil fun i hi => by rw [eq_of_mem_strCode hi]; nofun

/-- An operation loads the depth that it carries. -/
theorem loadedDepths_opCode (e : CodegenEngine) (op : KirOp) :
    loadedDepths (e.opCode op) = (op.depth.map fun d => (Int32.ofInt d).toInt).toList := by
  cases op with
  | traverse o i r d =>
    rw [opCode, loadedDepths_append, loadedDepths_accCode]
    cases d <;> simp [loadedDepths, KirOp.depth, Vm.traverse, Vm.loadImm, Vm.Instruction.new,
      Vm.Instruction.withRegA, Vm.Instruction.withRegB, Vm.Instruction.withImm]
  | filter o i c =>
    have text : loadedDepths (e.filterCode o i c) = [] := loadedDepths_strCode _ _ _
    rw [opCode, ← List.singleton_append, loadedDepths_append, loadedDepths_append, loadedDepths_append, text,
      loadedDepths_accCode]
    rfl
  | observe | classify | loadGraph | resolve | infer | correlate | store | exportTo | snapshot =>
    rw [opCode, loadedDepths_append, loadedDepths_accCode]
    rfl
  | _ => rfl

variable {e : CodegenEngine}

theorem loadedDepths_emitOps (h : e.regs.Temps) (ops : List KirOp) :
    loadedDepths (ops.foldl emitOp e).instrs =
      loadedDepths e.instrs ++ (depthsOf ops).map fun d => (Int32.ofInt d).toInt := by
  induction ops generalizing e with
  | nil => exact (List.append_nil _).symm
  | cons op ops ih =>
    have next : (e.emitOp op).regs.Temps := by
      rw [emitOp_eq h]
      exact temps_opRegs h op
    rw [List.foldl_cons, ih next, emitOp_eq h, loadedDepths_append, loadedDepths_opCode, List.append_assoc]
    unfold depthsOf
    cases hd : op.depth <;> simp [hd]

theorem loadedDepths_preload (ops : List KirOp) :
    loadedDepths (ops.foldl preload e).instrs = loadedDepths e.instrs := by
  induction ops generalizing e with
  | nil => rfl
  | cons op ops ih =>
    rw [List.foldl_cons, ih]
    cases op with
    | constStr id s =>
      simp only [preload, emitLoadStr_eq]
      rw [loadedDepths_append, loadedDepths_strCode, List.append_nil]
    | _ => rfl

end CodegenEngine

/-- A program loads the depths that its operations carry. -/
theorem loadedDepths_codegenKir (program : KirProgram) :
    loadedDepths (codegenKir program).instructions =
      (depthsOf program.ops).map fun d => (Int32.ofInt d).toInt := by
  have temps := CodegenEngine.temps_preload (e := .new) RegAlloc.temps_new program.ops
  show loadedDepths ((CodegenEngine.new.emitAll program).instrs ++ [Vm.halt]) = _
  rw [loadedDepths_append]
  unfold CodegenEngine.emitAll
  rw [CodegenEngine.loadedDepths_emitOps temps, CodegenEngine.loadedDepths_preload]
  simp [loadedDepths, CodegenEngine.new, Vm.halt, Vm.Instruction.new]

/-! ## The passes -/

@[simp] theorem depth_mapInputs (op : KirOp) (r : KirValueId → KirValueId) : (op.mapInputs r).depth = op.depth := by
  cases op <;> rfl

@[simp] theorem depth_withOutput (op : KirOp) (n : KirValueId) : (op.withOutput n).depth = op.depth := by
  cases op <;> rfl

theorem depthsOf_append (ops ops' : List KirOp) : depthsOf (ops ++ ops') = depthsOf ops ++ depthsOf ops' :=
  List.filterMap_append

theorem depthsOf_cons (op : KirOp) (ops : List KirOp) : depthsOf (op :: ops) = op.depth.toList ++ depthsOf ops := by
  cases h : op.depth <;> simp [depthsOf, h]

/-- The traversal is kept: another operation uses its value. -/
def keptTraversal (program : KirProgram) (op : KirOp) : Bool :=
  Optimizer.keeps (Optimizer.eliminateRedundantStrings program).usedValues op

/-- The compiler-level passes keep the depths of the traversals whose value is used. -/
theorem depthsOf_optimize (program : KirProgram) :
    depthsOf (Optimizer.optimize program).ops = depthsOf (program.ops.filter (keptTraversal program)) := by
  show depthsOf (((program.ops.filter _).map _).filter _) = _
  unfold depthsOf
  rw [List.filterMap_filter, List.filterMap_map, List.filterMap_filter, List.filterMap_filter]
  refine List.filterMap_congr fun op _ => ?_
  cases op with
  | traverse o i r d => rfl
  | _ => simp [Optimizer.rewriteInputs, KirOp.depth, KirOp.mapInputs]

namespace QueryOptimizer

section Passes

variable {program : KirProgram} {ops pipe : List KirOp} {est : Estimates}

theorem depthsOf_emitKept (st : Rebuilt) (op : KirOp) :
    depthsOf (emitKept st op).1.ops = depthsOf st.1.ops ++ op.depth.toList := by
  simp [emitKept, remapOpInputs, remapOpOutput]

theorem depthsOf_emitPipe (st : Rebuilt) (op : KirOp) :
    depthsOf (emitPipe st op).1.ops = depthsOf st.1.ops ++ op.depth.toList := by
  unfold emitPipe
  split <;> simp [remapOpInputs, remapOpOutput]

theorem depthsOf_foldl {f : Rebuilt → KirOp → Rebuilt}
    (step : ∀ st op, depthsOf (f st op).1.ops = depthsOf st.1.ops ++ op.depth.toList) (ops : List KirOp)
    (st : Rebuilt) : depthsOf (ops.foldl f st).1.ops = depthsOf st.1.ops ++ depthsOf ops := by
  induction ops generalizing st with
  | nil => exact (List.append_nil _).symm
  | cons op ops ih => rw [List.foldl_cons, ih, step, depthsOf_cons, List.append_assoc]

/-- A rebuilt program has the depths from outside the pipeline, and then those of the new pipeline. -/
theorem depthsOf_rebuild (program : KirProgram) (pipe : List KirOp) :
    depthsOf (rebuildFromPipeline program pipe).ops = depthsOf (keptOps program) ++ depthsOf pipe := by
  show depthsOf (pipe.foldl emitPipe ((keptOps program).foldl emitKept (.new, ∅))).1.ops = _
  rw [depthsOf_foldl depthsOf_emitPipe, depthsOf_foldl depthsOf_emitKept]
  rfl

/-- The operations outside the pipeline and those of the pipeline are all operations. -/
theorem keptOps_append_pipeOps_perm (program : KirProgram) :
    (keptOps program ++ pipeOps program).Perm program.ops := by
  have path : SimplePath program.ops (pipelineOps program) := by
    unfold pipelineOps
    split
    · rename_i start found
      have inRange := (List.findIdx?_eq_some_iff_getElem.1 found).1
      have single : SimplePath program.ops ([] ++ [start]) := simplePath_singleton inRange
      exact (walk_spec single (Nat.le_add_left program.ops.length _)).1
    · exact simplePath_nil
  have indices : (keptIndices program ++ pipelineOps program).Perm (List.range program.ops.length) := by
    refine (List.perm_ext_iff_of_nodup ?_ List.nodup_range).2 fun i => ?_
    · refine List.nodup_append.2 ⟨List.nodup_range.filter _, path.nodup, fun i hi j hj same => ?_⟩
      have out := (List.mem_filter.1 hi).2
      simp only [decide_eq_true_eq] at out
      exact out (same ▸ hj)
    · rw [List.mem_append, keptIndices, List.mem_filter, decide_eq_true_eq, List.mem_range]
      have := path.inRange i
      tauto
  have whole : opsOn program.ops (List.range program.ops.length) = program.ops := by
    have all := filter_zipIdx (fun _ => true) program.ops
    rw [List.filter_true, List.filter_true, List.zipIdx_map_fst] at all
    exact all.symm
  rw [keptOps_eq]
  show (opsOn program.ops (keptIndices program) ++ opsOn program.ops (pipelineOps program)).Perm _
  rw [← opsOn_append]
  conv_rhs => rw [← whole]
  exact indices.filterMap _

/-- Rebuilding a program with as many depths in its pipeline as before. -/
theorem depthsOf_rebuild_perm (same : (depthsOf pipe).Perm (depthsOf (pipeOps program))) :
    (depthsOf (rebuildFromPipeline program pipe).ops).Perm (depthsOf program.ops) := by
  rw [depthsOf_rebuild]
  refine (same.append_left _).trans ?_
  rw [← depthsOf_append]
  exact (keptOps_append_pipeOps_perm program).filterMap _

theorem depthsOf_mergeFilters (ops : List KirOp) : depthsOf (mergeFilters ops) = depthsOf ops := by
  fun_induction mergeFilters ops with
  | case1 _ _ _ _ _ _ _ ih => simpa [depthsOf_cons, KirOp.depth] using ih
  | case2 _ _ _ ih => rw [depthsOf_cons, ih, ← depthsOf_cons]
  | case3 => rfl

theorem depthsOf_fuseOps (ops : List KirOp) : depthsOf (fuseOps ops) = depthsOf ops := by
  fun_induction fuseOps ops with
  | case1 _ _ _ _ _ ih => simpa [depthsOf_cons, KirOp.depth] using ih
  | case2 _ _ _ _ _ ih => simpa [depthsOf_cons, KirOp.depth] using ih
  | case3 _ _ _ _ ih => rw [depthsOf_cons, ih, ← depthsOf_cons]
  | case4 => rfl

theorem depthsOf_rewire (prev : KirValueId) (ops : List KirOp) : depthsOf (rewire prev ops) = depthsOf ops := by
  fun_induction rewire prev ops with
  | case1 _ _ _ _ _ ih => simpa [depthsOf_cons, KirOp.depth] using ih
  | case2 _ _ _ _ ih => rw [depthsOf_cons, ih, ← depthsOf_cons]
  | case3 => rfl

theorem depthsOf_sortRun (run : List KirOp) : (depthsOf (sortRun run)).Perm (depthsOf run) := by
  unfold sortRun
  split
  · rw [depthsOf_rewire]
    exact (List.mergeSort_perm _ _).filterMap _
  · exact .refl _

theorem depthsOf_reorderFilters (ops : List KirOp) : (depthsOf (reorderFilters ops)).Perm (depthsOf ops) := by
  have runs : ∀ l : List (List KirOp), (depthsOf (l.flatMap sortRun)).Perm (depthsOf l.flatten) := by
    intro l
    induction l with
    | nil => exact .refl _
    | cons run l ih =>
      rw [List.flatMap_cons, List.flatten_cons, depthsOf_append, depthsOf_append]
      exact (depthsOf_sortRun run).append ih
  have whole := runs (ops.splitBy fun a b => a.isFilter == b.isFilter)
  rwa [List.flatten_splitBy] at whole

/-! ### Pruning -/

/-- No limit cuts down a traversal before it. -/
def Uncut (est : Estimates) : List KirOp → Prop
  | .traverse _ _ _ (some depth) :: ops =>
    (∀ limit ∈ limitIn ops, est.exceeds depth limit = true → depth ≤ max (est.optimalDepth limit) 1) ∧ Uncut est ops
  | _ :: ops => Uncut est ops
  | [] => True

/-- A depth stays, or is cut down, but not below one. -/
def CutTo (depth new : ℤ) : Prop := new = depth ∨ 1 ≤ new ∧ new < depth

theorem prunedDepth_eq_none {depth : ℤ} {limit : ℕ} : prunedDepth est (some depth) limit = none ↔
    (est.exceeds depth limit = true → depth ≤ max (est.optimalDepth limit) 1) := by
  unfold prunedDepth
  simp only [Option.getD_some]
  split_ifs with exceeds less
  · simp only [exceeds, true_imp_iff, false_iff]
    omega
  · simp only [exceeds, true_imp_iff, true_iff]
    omega
  · simp [exceeds]

theorem prunedDepth_eq_some {depth : Option ℤ} {limit : ℕ} {new : ℤ} (cut : prunedDepth est depth limit = some new) :
    1 ≤ new ∧ ∃ d, depth = some d ∧ new < d := by
  unfold prunedDepth at cut
  dsimp only at cut
  split_ifs at cut with exceeds less
  rw [← Option.some.inj cut]
  cases depth with
  | none =>
    simp only [Option.getD_none] at less
    omega
  | some d =>
    simp only [Option.getD_some] at less ⊢
    exact ⟨by omega, d, rfl, less⟩

/-- Traversals that are not cut down stay. -/
theorem pruneTraversals_of_uncut (uncut : Uncut est ops) : pruneTraversals est ops = (ops, false) := by
  induction ops with
  | nil => rfl
  | cons op ops ih =>
    cases op with
    | traverse o i r depth =>
      have none : (limitIn ops).bind (prunedDepth est depth) = none := by
        cases found : limitIn ops with
        | none => rfl
        | some limit =>
          cases depth with
          | none =>
            cases cut : prunedDepth est none limit with
            | none => exact cut
            | some new => exact nomatch (prunedDepth_eq_some cut).2
          | some d => exact prunedDepth_eq_none.2 (uncut.1 limit found)
      have rest : Uncut est ops := by
        cases depth with
        | none => exact uncut
        | some d => exact uncut.2
      simp only [pruneTraversals, none, ih rest]
    | _ => simp only [pruneTraversals, ih uncut]

/-- What becomes of a traversal: it is cut down, or no limit asks for it. -/
theorem pruneTraversals_traverse (est : Estimates) (o i r : KirValueId) (depth : Option ℤ) (ops : List KirOp) :
    (∃ new d, depth = some d ∧ 1 ≤ new ∧ new < d ∧
        pruneTraversals est (.traverse o i r depth :: ops) =
          (.traverse o i r (some new) :: (pruneTraversals est ops).1, true)) ∨
      (Uncut est ops → Uncut est (.traverse o i r depth :: ops)) ∧
        pruneTraversals est (.traverse o i r depth :: ops) =
          (.traverse o i r depth :: (pruneTraversals est ops).1, (pruneTraversals est ops).2) := by
  cases cut : (limitIn ops).bind (prunedDepth est depth) with
  | none =>
    refine .inr ⟨fun uncut => ?_, by simp only [pruneTraversals, cut]⟩
    cases depth with
    | none => exact uncut
    | some d =>
      refine ⟨fun limit found => prunedDepth_eq_none.1 ?_, uncut⟩
      rwa [Option.mem_def.1 found] at cut
  | some new =>
    obtain ⟨limit, -, cut'⟩ := Option.bind_eq_some_iff.1 cut
    obtain ⟨least, d, rfl, less⟩ := prunedDepth_eq_some cut'
    exact .inl ⟨new, d, rfl, least, less, by simp only [pruneTraversals, cut]⟩

/-- The depths of a pruned pipeline: the same, or smaller ones somewhere. -/
theorem depths_pruneTraversals (est : Estimates) (ops : List KirOp) :
    List.Forall₂ CutTo (depthsOf ops) (depthsOf (pruneTraversals est ops).1) := by
  induction ops with
  | nil => exact .nil
  | cons op ops ih =>
    cases op with
    | traverse o i r depth =>
      rcases pruneTraversals_traverse est o i r depth ops with ⟨new, d, rfl, least, less, eq⟩ | ⟨-, eq⟩
      · rw [eq]
        exact .cons (.inr ⟨least, less⟩) ih
      · rw [eq, depthsOf_cons, depthsOf_cons]
        cases depth with
        | none => exact ih
        | some d => exact .cons (.inl rfl) ih
    | _ => exact ih

theorem sum_depths_pruneTraversals (est : Estimates) (ops : List KirOp) :
    (depthsOf (pruneTraversals est ops).1).sum ≤ (depthsOf ops).sum := by
  have pointwise := depths_pruneTraversals est ops
  refine List.Forall₂.sum_le_sum (pointwise.flip.imp fun new depth cut => ?_)
  rcases cut with rfl | ⟨-, less⟩
  · exact le_rfl
  · exact less.le

/-- A traversal that is cut down has the program rebuilt, with smaller depths. -/
theorem pruneTraversals_of_not_uncut (cut : ¬Uncut est ops) : (pruneTraversals est ops).2 = true ∧
    (depthsOf (pruneTraversals est ops).1).sum < (depthsOf ops).sum := by
  induction ops with
  | nil => exact absurd trivial cut
  | cons op ops ih =>
    cases op with
    | traverse o i r depth =>
      rcases pruneTraversals_traverse est o i r depth ops with ⟨new, d, rfl, -, less, eq⟩ | ⟨uncut, eq⟩
      · refine ⟨by rw [eq], ?_⟩
        have rest := sum_depths_pruneTraversals est ops
        rw [eq, depthsOf_cons, depthsOf_cons]
        simp only [KirOp.depth, Option.toList_some, List.singleton_append, List.sum_cons]
        omega
      · obtain ⟨modified, less⟩ := ih fun rest => cut (uncut rest)
        rw [eq, depthsOf_cons, depthsOf_cons, List.sum_append, List.sum_append]
        exact ⟨modified, Int.add_lt_add_left less _⟩
    | _ => exact ih cut

/-! ### All passes -/

theorem depthsOf_traversalPruning_perm (est : Estimates) (program : KirProgram) :
    (depthsOf (traversalPruning est program).ops).Perm
      (depthsOf (keptOps program) ++ depthsOf (pruneTraversals est (pipeOps program)).1) := by
  have whole : (depthsOf program.ops).Perm (depthsOf (keptOps program) ++ depthsOf (pipeOps program)) := by
    rw [← depthsOf_append]
    exact ((keptOps_append_pipeOps_perm program).filterMap _).symm
  unfold traversalPruning
  dsimp only
  show (depthsOf (if (pipelineOps program).isEmpty = true then program
    else if (pruneTraversals est (pipeOps program)).2 = true then
      rebuildFromPipeline program (pruneTraversals est (pipeOps program)).1 else program).ops).Perm _
  split_ifs with empty modified
  · have none : pipeOps program = [] := by
      rw [pipeOps, List.isEmpty_iff.1 empty]
      rfl
    rw [none] at whole ⊢
    exact whole
  · rw [depthsOf_rebuild]
  · have uncut : Uncut est (pipeOps program) := by
      by_contra cut
      exact modified (pruneTraversals_of_not_uncut cut).1
    rw [pruneTraversals_of_uncut uncut]
    exact whole

theorem depthsOf_predicatePushdown_perm (program : KirProgram) :
    (depthsOf (predicatePushdown program).ops).Perm (depthsOf program.ops) := by
  unfold predicatePushdown
  dsimp only
  split_ifs
  · exact .refl _
  · exact depthsOf_rebuild_perm (by rw [depthsOf_mergeFilters]; rfl)

theorem depthsOf_joinReordering_perm (program : KirProgram) :
    (depthsOf (joinReordering program).ops).Perm (depthsOf program.ops) := by
  unfold joinReordering
  dsimp only
  split_ifs
  · exact .refl _
  · exact depthsOf_rebuild_perm (depthsOf_reorderFilters _)

theorem depthsOf_operatorFusion_perm (program : KirProgram) :
    (depthsOf (operatorFusion program).ops).Perm (depthsOf program.ops) := by
  unfold operatorFusion
  dsimp only
  split_ifs
  · exact .refl _
  · exact depthsOf_rebuild_perm (by rw [depthsOf_fuseOps]; rfl)

/-- The pipeline that the pruning works on. -/
def prunedPipe (program : KirProgram) : List KirOp := pipeOps (predicatePushdown program)

theorem depthsOf_optimizeQuery_perm (est : Estimates) (program : KirProgram) :
    (depthsOf (optimizeQuery est program).ops).Perm
      (depthsOf (keptOps (predicatePushdown program)) ++ depthsOf (pruneTraversals est (prunedPipe program)).1) :=
  ((depthsOf_operatorFusion_perm _).trans (depthsOf_joinReordering_perm _)).trans
    (depthsOf_traversalPruning_perm est _)

/-- An optimised program has the depths of the program exactly if no traversal of the pipeline is cut down. -/
theorem depthsOf_optimizeQuery_perm_iff (est : Estimates) (program : KirProgram) :
    (depthsOf (optimizeQuery est program).ops).Perm (depthsOf program.ops) ↔ Uncut est (prunedPipe program) := by
  have optimized := depthsOf_optimizeQuery_perm est program
  have whole : (depthsOf program.ops).Perm
      (depthsOf (keptOps (predicatePushdown program)) ++ depthsOf (prunedPipe program)) := by
    refine (depthsOf_predicatePushdown_perm program).symm.trans ?_
    rw [← depthsOf_append]
    exact ((keptOps_append_pipeOps_perm _).filterMap _).symm
  constructor
  · intro same
    by_contra cut
    have sums := ((optimized.symm.trans same).trans whole).sum_eq
    rw [List.sum_append, List.sum_append] at sums
    have := (pruneTraversals_of_not_uncut cut).2
    omega
  · intro uncut
    rw [pruneTraversals_of_uncut uncut] at optimized
    exact optimized.trans whole.symm

/-- A depth of an optimised program is one of the program, or has been cut down from one. -/
theorem exists_cutTo {d : ℤ} (h : d ∈ depthsOf (optimizeQuery est program).ops) :
    ∃ depth ∈ depthsOf program.ops, CutTo depth d := by
  have whole : (depthsOf (keptOps (predicatePushdown program)) ++ depthsOf (prunedPipe program)).Perm
      (depthsOf program.ops) := by
    rw [← depthsOf_append]
    exact ((keptOps_append_pipeOps_perm _).filterMap _).trans (depthsOf_predicatePushdown_perm program)
  rcases List.mem_append.1 ((depthsOf_optimizeQuery_perm est program).subset h) with kept | pruned
  · exact ⟨d, whole.subset (List.mem_append_left _ kept), .inl rfl⟩
  · obtain ⟨length, pointwise⟩ := List.forall₂_iff_get.1 (depths_pruneTraversals est (prunedPipe program))
    obtain ⟨i, rfl⟩ := List.get_of_mem pruned
    have inside : i < (depthsOf (prunedPipe program)).length := by
      rw [length]
      exact i.2
    have there := List.get_mem (depthsOf (prunedPipe program)) ⟨i, inside⟩
    exact ⟨_, whole.subset (List.mem_append_right _ there), pointwise i inside i.2⟩

end Passes

end QueryOptimizer

/-! ## Compiled programs -/

/-- An `i32`. -/
def IsI32 (d : ℤ) : Prop := -2 ^ 31 ≤ d ∧ d < 2 ^ 31

theorem toInt_ofInt {d : ℤ} (h : IsI32 d) : (Int32.ofInt d).toInt = d := Int32.toInt_ofInt_of_le h.1 h.2

theorem isI32_asI32 (d : ℕ) : IsI32 (Lowering.asI32 d) := by
  unfold IsI32 Lowering.asI32 Int.bmod
  dsimp only
  split_ifs <;> omega

theorem isI32_compileKir {est : QueryOptimizer.Estimates} {stmts : List Stmt} {d : ℤ}
    (h : d ∈ depthsOf (compileKir est stmts).ops) : IsI32 d := by
  obtain ⟨depth, there, cut⟩ := QueryOptimizer.exists_cutTo h
  rw [depthsOf_optimize] at there
  have lowered : depth ∈ depthsOf (Lowering.lowerAst stmts).ops := (List.filter_sublist.filterMap _).subset there
  rw [Lowering.depthsOf_lowerAst] at lowered
  obtain ⟨n, -, same⟩ := List.mem_map.1 lowered
  have i32 : IsI32 depth := same ▸ isI32_asI32 n
  rcases cut with rfl | ⟨least, less⟩
  · exact i32
  · unfold IsI32 at i32 ⊢
    omega

/-- A compiled program loads the depths that its operations carry. -/
theorem loadedDepths_compileKir (est : QueryOptimizer.Estimates) (stmts : List Stmt) :
    loadedDepths (codegenKir (compileKir est stmts)).instructions = depthsOf (compileKir est stmts).ops := by
  rw [loadedDepths_codegenKir]
  exact (List.map_congr_left fun d hd => toInt_ofInt (isI32_compileKir hd)).trans (List.map_id' _)

end TORdex
