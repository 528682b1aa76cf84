import TORdex.Tdxl.Ast
import TORdex.Tdxl.Clobbering
import TORdex.Tdxl.Kir
import TORdex.Tdxl.Optimizer
import TORdex.Tdxl.QueryOptimizer

/-!
# Lowering TDXL to KIR

The pipeline value is the output of the last statement.  A statement that needs an input and finds
none collects the dummy source `_`.
-/

namespace TORdex

open Ast

namespace Lowering

/-- Lower a string to a constant. -/
def lowerRawString (s : String) (prog : KirProgram) : KirValueId × KirProgram :=
  let (output, prog) := prog.allocId
  (output, prog.push (.constStr output s))

/-- The string constant of a value. -/
def lowerString (val : Ast.Value) (prog : KirProgram) : KirValueId × KirProgram :=
  lowerRawString val.asString prog

/-- `input.unwrap_or_else(..)`: the dummy's id is allocated before its kind's. -/
def inputOrDummy (input : Option KirValueId) (prog : KirProgram) : KirValueId × KirProgram :=
  match input with
  | some input => (input, prog)
  | none =>
    let (dummy, prog) := prog.allocId
    let (kind, prog) := prog.allocId
    (dummy, (prog.push (.constStr kind "_")).push (.collect dummy kind))

/-- `d as i32`. -/
def asI32 (d : ℕ) : ℤ := Int.bmod d (2 ^ 32)

/-- The query text of a timeline. -/
def timelineQuery (start stop : Option Ast.Value) : String :=
  Json.render (.obj ((start.map fun v => ("from", .str v.asString)).toList ++
    (stop.map fun v => ("to", .str v.asString)).toList))

/-- `FROM` and `LOAD`. -/
def lowerCollect (val : Ast.Value) (prog : KirProgram) : Option KirValueId × KirProgram :=
  let (sourceId, prog) := lowerString val prog
  let (output, prog) := prog.allocId
  (some output, prog.push (.collect output sourceId))

/-- `MATCH`, `WHERE` and `FILTER`: only a field comparison becomes a filter. -/
def lowerMatch (expr : BinExpr) (prog : KirProgram) (input : Option KirValueId) :
    Option KirValueId × KirProgram :=
  let (input, prog) := inputOrDummy input prog
  match expr with
  | .field field op value =>
    let (output, prog) := prog.allocId
    (some output, prog.push (.filter output input ⟨field, op.lowercase, value.asString⟩))
  | _ => (some input, prog)

/-- `SUMMARIZE` and `CLASSIFY`. -/
def lowerObserve (prog : KirProgram) (input : Option KirValueId) :
    Option KirValueId × KirProgram :=
  let (input, prog) := inputOrDummy input prog
  let (output, prog) := prog.allocId
  (some output, prog.push (.observe output input))

/-- Lower a statement; returns its pipeline value. -/
def lowerStmt (stmt : Stmt) (prog : KirProgram) (input : Option KirValueId) :
    Option KirValueId × KirProgram :=
  match stmt with
  | .fromSource val => lowerCollect val prog
  | .matchExpr expr => lowerMatch expr prog input
  | .whereExpr expr => lowerMatch expr prog input
  | .traverse relation depth =>
    let (input, prog) := inputOrDummy input prog
    let (relationId, prog) := lowerString relation prog
    let (output, prog) := prog.allocId
    (some output, prog.push (.traverse output input relationId (depth.map asI32)))
  | .summarize => lowerObserve prog input
  | .infer val =>
    let (input, prog) := inputOrDummy input prog
    let (ruleId, prog) := lowerString val prog
    let (output, prog) := prog.allocId
    (some output, prog.push (.infer output input ruleId))
  | .correlate target =>
    let (input, prog) := inputOrDummy input prog
    let (targetId, prog) := lowerString target prog
    let (output, prog) := prog.allocId
    (some output, prog.push (.correlate output input targetId))
  | .similar target =>
    let (targetId, prog) := lowerString target prog
    let (output, prog) := prog.allocId
    (some output, prog.push (.similar output targetId (.finite ⟨false, 8, -1⟩)))
  | .classify _ => lowerObserve prog input
  | .timeline start stop =>
    let (queryId, prog) := lowerRawString (timelineQuery start stop) prog
    let (output, prog) := prog.allocId
    (some output, prog.push (.timeline output queryId))
  | .sort field order =>
    let (input, prog) := inputOrDummy input prog
    (some input, prog.push (.sortHint input field.asString (decide (order = .asc))))
  | .limit n =>
    let (input, prog) := inputOrDummy input prog
    (some input, prog.push (.limitHint input n))
  | .store val =>
    let (input, prog) := inputOrDummy input prog
    let (nameId, prog) := lowerString val prog
    (some input, prog.push (.store input nameId))
  | .exportTo val =>
    let (input, prog) := inputOrDummy input prog
    let (formatId, prog) := lowerString val prog
    (some input, prog.push (.exportTo input formatId))
  | .load val => lowerCollect val prog
  | .filter expr => lowerMatch expr prog input

/-- Lower the statements one after the other. -/
def lowerStmts (stmts : List Stmt) (state : Option KirValueId × KirProgram) :
    Option KirValueId × KirProgram :=
  stmts.foldl (fun state stmt => lowerStmt stmt state.2 state.1) state

/-- Every pipeline ends with an explicit `Return`. -/
def lowerAst (stmts : List Stmt) : KirProgram :=
  let (pipeline, prog) := lowerStmts stmts (none, .new)
  match pipeline with
  | some last => { prog.push (.ret last) with output := some last }
  | none => { prog with output := none }

end Lowering

end TORdex

/-!
## Compiled programs

Lowering takes a fresh id for every value, the compiler-level passes only remove producers, and a rebuild
numbers all values anew; so a compiled program produces every value once.
-/

namespace TORdex

/-- Every value is produced once, and its id is below the next one. -/
structure Fresh (program : KirProgram) : Prop where
  nodup : (outputs program.ops).Nodup
  below : ∀ x ∈ outputs program.ops, x < program.nextId

theorem fresh_new : Fresh .new := ⟨List.nodup_nil, List.forall_mem_nil _⟩

/-- The program has been extended by operations with new ids. -/
def Extends (program program' : KirProgram) : Prop :=
  program.nextId ≤ program'.nextId ∧ ∃ ops, program'.ops = program.ops ++ ops ∧ (outputs ops).Nodup ∧
    ∀ x ∈ outputs ops, program.nextId ≤ x ∧ x < program'.nextId

section Extends

variable {p p' p'' : KirProgram}

theorem Extends.refl (p : KirProgram) : Extends p p :=
  ⟨le_rfl, [], (List.append_nil _).symm, List.nodup_nil, List.forall_mem_nil _⟩

theorem Extends.trans (h : Extends p p') (h' : Extends p' p'') : Extends p p'' := by
  obtain ⟨le, ops, eq, nodup, range⟩ := h
  obtain ⟨le', ops', eq', nodup', range'⟩ := h'
  refine ⟨le.trans le', ops ++ ops', by rw [eq', eq, List.append_assoc], ?_, fun x hx => ?_⟩
  · rw [outputs_append, List.nodup_append]
    refine ⟨nodup, nodup', fun x hx y hy same => ?_⟩
    exact ((range x hx).2.trans_le (range' y hy).1).ne same
  · rw [outputs_append, List.mem_append] at hx
    rcases hx with hx | hx
    · exact ⟨(range x hx).1, (range x hx).2.trans_le le'⟩
    · exact ⟨le.trans (range' x hx).1, (range' x hx).2⟩

theorem Fresh.extend (h : Fresh p) (e : Extends p p') : Fresh p' := by
  obtain ⟨le, ops, eq, nodup, range⟩ := e
  constructor
  · rw [eq, outputs_append, List.nodup_append]
    refine ⟨h.nodup, nodup, fun x hx y hy same => ?_⟩
    exact ((h.below x hx).trans_le (range y hy).1).ne same
  · intro x hx
    rw [eq, outputs_append, List.mem_append] at hx
    rcases hx with hx | hx
    · exact (h.below x hx).trans_le le
    · exact (range x hx).2

/-- An operation without output. -/
theorem extends_push {op : KirOp} (h : op.outputId = none) : Extends p (p.push op) :=
  ⟨le_rfl, [op], rfl, by simp [outputs, h], by simp [outputs, h]⟩

/-- An operation with the next id. -/
theorem extends_alloc {op : KirOp} (h : op.outputId = some p.nextId) :
    Extends p (p.allocId.2.push op) :=
  ⟨Nat.le_succ _, [op], rfl, by simp [outputs, h],
    by simp [outputs, h, KirProgram.push, KirProgram.allocId]⟩

/-- An operation without output that takes an id nevertheless. -/
theorem extends_skip {op : KirOp} (h : op.outputId = none) : Extends p (p.allocId.2.push op) :=
  ⟨Nat.le_succ _, [op], rfl, by simp [outputs, h], by simp [outputs, h]⟩

end Extends

/-! ### Lowering -/

namespace Lowering

open Ast

variable {prog : KirProgram}

theorem extends_lowerRawString (s : String) : Extends prog (lowerRawString s prog).2 :=
  extends_alloc rfl

/-- The dummy's id is taken first, and its kind is produced first. -/
theorem extends_inputOrDummy (input : Option KirValueId) :
    Extends prog (inputOrDummy input prog).2 := by
  cases input with
  | some => exact .refl prog
  | none =>
    have next : (inputOrDummy none prog).2.nextId = prog.nextId + 2 := rfl
    refine ⟨by rw [next]; exact Nat.le_add_right _ _,
      [.constStr (prog.nextId + 1) "_", .collect prog.nextId (prog.nextId + 1)], ?_, ?_, ?_⟩
    · simp [inputOrDummy, KirProgram.allocId, KirProgram.push]
    · simp [outputs, KirOp.outputId]
    · rw [next]
      simp [outputs, KirOp.outputId]

theorem extends_lowerStmt (stmt : Stmt) (input : Option KirValueId) :
    Extends prog (lowerStmt stmt prog input).2 := by
  have dummy : Extends prog (inputOrDummy input prog).2 := extends_inputOrDummy input
  have matching : ∀ expr, Extends prog (lowerMatch expr prog input).2 := by
    intro expr
    cases expr with
    | field => exact dummy.trans (extends_alloc rfl)
    | _ => exact dummy
  cases stmt with
  | fromSource | load => exact (extends_lowerRawString _).trans (extends_alloc rfl)
  | similar | timeline => exact (extends_lowerRawString _).trans (extends_alloc rfl)
  | matchExpr expr | whereExpr expr | filter expr => exact matching expr
  | traverse | infer | correlate =>
    exact (dummy.trans (extends_lowerRawString _)).trans (extends_alloc rfl)
  | summarize | classify => exact dummy.trans (extends_alloc rfl)
  | sort | limit => exact dummy.trans (extends_push rfl)
  | store | exportTo => exact (dummy.trans (extends_lowerRawString _)).trans (extends_push rfl)

theorem extends_lowerStmts (stmts : List Stmt) (state : Option KirValueId × KirProgram) :
    Extends state.2 (lowerStmts stmts state).2 := by
  induction stmts generalizing state with
  | nil => exact .refl _
  | cons stmt stmts ih => exact (extends_lowerStmt stmt state.1).trans (ih _)

/-- A lowered program produces every value once. -/
theorem fresh_lowerAst (stmts : List Stmt) : Fresh (lowerAst stmts) := by
  have all : Fresh (lowerStmts stmts (none, .new)).2 :=
    fresh_new.extend (extends_lowerStmts stmts (none, .new))
  unfold lowerAst
  split
  rename_i pipeline prog eq
  rw [eq] at all
  split
  · rename_i last
    have ret : Fresh (prog.push (.ret last)) := all.extend (extends_push rfl)
    exact ⟨ret.nodup, ret.below⟩
  · exact ⟨all.nodup, all.below⟩

end Lowering

/-! ### The passes -/

namespace Optimizer

theorem nodup_optimize {program : KirProgram} (h : (outputs program.ops).Nodup) :
    (outputs (optimize program).ops).Nodup := by
  have merged : (outputs (eliminateRedundantStrings program).ops).Nodup := by
    rw [show outputs (eliminateRedundantStrings program).ops = _ from outputs_merge program.ops]
    exact h.sublist (outputs_sublist List.filter_sublist)
  exact merged.sublist (outputs_sublist List.filter_sublist)

end Optimizer

namespace QueryOptimizer

theorem fresh_emitKept {st : Rebuilt} (h : Fresh st.1) (op : KirOp) : Fresh (emitKept st op).1 := by
  cases ho : op.outputId with
  | some =>
    refine h.extend (extends_alloc ?_)
    simp [remapOpInputs, remapOpOutput, ho]
  | none => exact h.extend (extends_skip (by simp [remapOpInputs, remapOpOutput, ho]))

theorem fresh_emitPipe {st : Rebuilt} (h : Fresh st.1) (op : KirOp) : Fresh (emitPipe st op).1 := by
  unfold emitPipe
  cases ho : op.outputId with
  | some =>
    refine h.extend (extends_alloc ?_)
    simp [remapOpInputs, remapOpOutput, ho, KirProgram.allocId]
  | none => exact h.extend (extends_push (by simp [remapOpInputs, ho]))

theorem fresh_foldl {f : Rebuilt → KirOp → Rebuilt} (step : ∀ st op, Fresh st.1 → Fresh (f st op).1)
    (ops : List KirOp) {st : Rebuilt} (h : Fresh st.1) : Fresh (ops.foldl f st).1 := by
  induction ops generalizing st with
  | nil => exact h
  | cons op ops ih => exact ih (step st op h)

theorem nodup_rebuild (program : KirProgram) (pipe : List KirOp) :
    (outputs (rebuildFromPipeline program pipe).ops).Nodup := by
  have kept : Fresh ((keptOps program).foldl emitKept (.new, ∅)).1 :=
    fresh_foldl (fun _ op h => fresh_emitKept h op) _ fresh_new
  exact (fresh_foldl (fun _ op h => fresh_emitPipe h op) pipe kept).nodup

theorem nodup_optimizeQuery (est : Estimates) {program : KirProgram}
    (h : (outputs program.ops).Nodup) : (outputs (optimizeQuery est program).ops).Nodup := by
  have pushed : (outputs (predicatePushdown program).ops).Nodup := by
    unfold predicatePushdown
    dsimp only
    split_ifs
    · exact h
    · exact nodup_rebuild _ _
  have pruned : (outputs (traversalPruning est (predicatePushdown program)).ops).Nodup := by
    unfold traversalPruning
    dsimp only
    split_ifs
    · exact pushed
    · exact nodup_rebuild _ _
    · exact pushed
  have joined : (outputs (joinReordering (traversalPruning est (predicatePushdown program))).ops).Nodup := by
    unfold joinReordering
    dsimp only
    split_ifs
    · exact pruned
    · exact nodup_rebuild _ _
  unfold optimizeQuery operatorFusion
  dsimp only
  split_ifs
  · exact joined
  · exact nodup_rebuild _ _

end QueryOptimizer

/-! ### The registers of compiled programs -/

/-- Lower the statements and optimise twice. -/
def compileKir (est : QueryOptimizer.Estimates) (stmts : List Ast.Stmt) : KirProgram :=
  QueryOptimizer.optimizeQuery est (Optimizer.optimize (Lowering.lowerAst stmts))

variable (est : QueryOptimizer.Estimates) (stmts : List Ast.Stmt)

theorem nodup_compileKir : (outputs (compileKir est stmts).ops).Nodup :=
  QueryOptimizer.nodup_optimizeQuery est
    (Optimizer.nodup_optimize (Lowering.fresh_lowerAst stmts).nodup)

/-- In a compiled program the registers hold what code generation believes exactly when no constant is
overwritten before it is read. -/
theorem holdsConstants_compile_iff :
    HoldsConstants (compileKir est stmts) ↔ Undisturbed (compileKir est stmts) :=
  CodegenEngine.holdsConstants_iff (nodup_compileKir est stmts)

/-- `FROM a`, then three inferences: the fourth constant takes the register of the first. -/
def fourConstants : List Ast.Stmt :=
  [.fromSource (.ident "a"), .infer (.ident "b"), .infer (.ident "c"), .infer (.ident "d")]

theorem fourConstants_clobbered :
    ¬HoldsConstants (compileKir ⟨fun _ _ => false, fun _ => 0⟩ fourConstants) := by
  rw [CodegenEngine.holdsConstants_iff (nodup_compileKir _ _)]
  have compiled : compileKir ⟨fun _ _ => false, fun _ => 0⟩ fourConstants =
      ⟨[.constStr 0 "a", .constStr 1 "b", .constStr 2 "c", .constStr 3 "d"] ++ .collect 4 0 ::
        [.infer 5 4 1, .infer 6 5 2, .infer 7 6 3, .ret 7], some 7, 8⟩ := by decide
  rw [compiled]
  intro undisturbed
  have read := undisturbed _ _ _ rfl ([], 0) (by decide) "a" (by simp)
  revert read
  decide

/-! ### Compiled programs run to their halt -/

section Running

open Vm Vm.Executor

namespace CodegenEngine

variable {e : CodegenEngine}

theorem data_emitOps (temps : e.regs.Temps) (data : AllData e.instrs) (ops : List KirOp) :
    AllData (ops.foldl emitOp e).instrs := by
  induction ops generalizing e with
  | nil => exact data
  | cons op ops ih =>
    refine ih ?_ ?_ <;> rw [emitOp_eq temps]
    · exact temps_opRegs temps op
    · exact data.append (data_opCode e op)

theorem data_preload (data : AllData e.instrs) (ops : List KirOp) :
    AllData (ops.foldl preload e).instrs := by
  induction ops generalizing e with
  | nil => exact data
  | cons op ops ih =>
    refine ih ?_
    cases op with
    | constStr id s =>
      rw [preload, emitLoadStr_eq]
      exact data.append (allData_strCode e id s)
    | _ => exact data

/-- The code of a program, without the halt behind it. -/
def bodyCode (program : KirProgram) : List Instruction := (new.emitAll program).instrs

theorem data_bodyCode (program : KirProgram) : AllData (bodyCode program) :=
  data_emitOps (e := program.ops.foldl preload new) (temps_preload RegAlloc.temps_new _)
    (data_preload (e := new) (List.forall_mem_nil _) _) program.ops

theorem entryPoint_foldl_addConstant (consts : List String) (p : Program) :
    (consts.foldl (fun p s => p.addConstant (.str s)) p).entryPoint = p.entryPoint := by
  induction consts generalizing p with
  | nil => rfl
  | cons s consts ih => exact ih (p.addConstant (.str s))

theorem entryPoint_codegenKir (program : KirProgram) : (codegenKir program).entryPoint = 0 :=
  entryPoint_foldl_addConstant _ (Program.new "tdxl_program")

end CodegenEngine

section Execution

open CodegenEngine

variable {W : Type} (svc : Services W) (program : KirProgram) (w : W) (cycles : ℕ)

/-- A machine that has been given a compiled program and so many cycles. -/
def loaded : ExecutionContext W := { ExecutionContext.new (codegenKir program) w with maxCycles := cycles }

/-- **A compiled program runs straight to its halt.**  Its instructions are executed one after the other, to the
first error or the last cycle; it succeeds exactly if none of them fails and there is a cycle left for the halt. -/
theorem execute_codegenKir :
    (execute svc (loaded program w cycles)).1 =
        ((runCode svc (codegenKir program) ((bodyCode program).take cycles) (.new, w)).bind fun _ =>
          if (bodyCode program).length < cycles then .ok () else .error "execution exceeded max cycles") ∧
      ∀ done, execute svc (loaded program w cycles) = (.ok (), done) →
        runCode svc (codegenKir program) (bodyCode program) (.new, w) = .ok (done.regs, done.world) ∧
          done = { loaded program w cycles with
            regs := done.regs, world := done.world, pc := (bodyCode program).length
            cycles := (bodyCode program).length + 1 } := by
  let ctx : ExecutionContext W := { loaded program w cycles with running := true, cycles := 0 }
  have located : CodeAt ctx.program ctx.pc (bodyCode program ++ [halt]) :=
    ⟨[], [], (List.append_nil _).symm, (entryPoint_codegenKir program).symm⟩
  refine ⟨executeLoop_outcome (data_bodyCode program) located cycles, fun done halts => ?_⟩
  obtain ⟨run, after⟩ := executeLoop_ok (data_bodyCode program) located halts
  refine ⟨run, after.trans ?_⟩
  simp [ctx, afterBlock, loaded, ExecutionContext.new, entryPoint_codegenKir]

end Execution

end Running

end TORdex
