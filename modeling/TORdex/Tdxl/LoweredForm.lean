import TORdex.Tdxl.Compile

/-!
# Lowered programs are in SSA form

Every value is produced once and before its uses, and the pipeline value is always one of them.
-/

namespace TORdex

/-- Every input was produced before. -/
def InputsEarlier (ops : List KirOp) : Prop :=
  ∀ before op after, ops = before ++ op :: after → ∀ x ∈ op.inputIds, x ∈ outputs before

theorem inputsEarlier_concat {ops : List KirOp} {op : KirOp} (earlier : InputsEarlier ops)
    (inputs : ∀ x ∈ op.inputIds, x ∈ outputs ops) : InputsEarlier (ops ++ [op]) := by
  intro before op' after split
  rcases List.eq_nil_or_concat after with rfl | ⟨after, last, rfl⟩
  · obtain ⟨rfl, same⟩ := List.append_inj' split rfl
    cases same
    exact inputs
  · have init : ops = before ++ op' :: after := by
      have whole : ops ++ [op] = (before ++ op' :: after) ++ [last] := by simpa using split
      exact (List.append_inj' whole rfl).1
    exact earlier before op' after init

namespace Lowering

open Ast

/-- The program is extended, all its inputs come earlier, and the value is one that it produces. -/
structure Yields (prog : KirProgram) (result : KirValueId × KirProgram) : Prop where
  earlier : InputsEarlier result.2.ops
  produced : result.1 ∈ outputs result.2.ops
  extended : outputs prog.ops ⊆ outputs result.2.ops

section Parts

variable {prog prog' : KirProgram}

/-- An operation with the next id, whose inputs are there. -/
theorem yields_alloc {op : KirOp} (earlier : InputsEarlier prog.ops)
    (output : op.outputId = some prog.nextId) (inputs : ∀ x ∈ op.inputIds, x ∈ outputs prog.ops) :
    Yields prog (prog.nextId, prog.allocId.2.push op) where
  earlier := inputsEarlier_concat earlier inputs
  produced := mem_outputs.2 ⟨op, List.mem_append_right _ (List.mem_singleton_self op), output⟩
  extended := (outputs_sublist (List.sublist_append_left _ _)).subset

theorem yields_lowerRawString (s : String) (earlier : InputsEarlier prog.ops) :
    Yields prog (lowerRawString s prog) :=
  yields_alloc earlier rfl (List.forall_mem_nil _)

theorem yields_inputOrDummy {input : Option KirValueId} (earlier : InputsEarlier prog.ops)
    (produced : ∀ x ∈ input, x ∈ outputs prog.ops) : Yields prog (inputOrDummy input prog) := by
  cases input with
  | some x => exact ⟨earlier, produced x rfl, List.Subset.refl _⟩
  | none =>
    have kind : InputsEarlier (prog.ops ++ [.constStr (prog.nextId + 1) "_"]) :=
      inputsEarlier_concat earlier (List.forall_mem_nil _)
    have whole : InputsEarlier (prog.ops ++ [.constStr (prog.nextId + 1) "_"] ++
        [.collect prog.nextId (prog.nextId + 1)]) := by
      refine inputsEarlier_concat kind fun x hx => ?_
      rw [List.mem_singleton.1 hx]
      exact mem_outputs.2 ⟨_, List.mem_append_right _ (List.mem_singleton_self _), rfl⟩
    refine ⟨whole, mem_outputs.2 ⟨.collect prog.nextId (prog.nextId + 1), ?_, rfl⟩, ?_⟩
    · exact List.mem_append_right _ (List.mem_singleton_self _)
    · show outputs prog.ops ⊆ outputs (prog.ops ++ _ ++ _)
      rw [List.append_assoc]
      exact (outputs_sublist (List.sublist_append_left _ _)).subset

/-- The value before and a new string. -/
theorem Yields.string {r : KirValueId × KirProgram} (h : Yields prog r) (s : String) :
    Yields r.2 (lowerRawString s r.2) ∧ r.1 ∈ outputs (lowerRawString s r.2).2.ops := by
  have name := yields_lowerRawString s h.earlier
  exact ⟨name, name.extended h.produced⟩

end Parts

/-- What a statement leaves: all inputs come earlier, and there is a pipeline value that was produced. -/
structure Leaves (result : Option KirValueId × KirProgram) : Prop where
  earlier : InputsEarlier result.2.ops
  produced : ∃ x, result.1 = some x ∧ x ∈ outputs result.2.ops

section Statements

variable {prog prog' : KirProgram} {input : Option KirValueId}

theorem Yields.leaves {r : KirValueId × KirProgram} (h : Yields prog r) : Leaves (some r.1, r.2) :=
  ⟨h.earlier, r.1, rfl, h.produced⟩

/-- An operation with the next id gives the new value. -/
theorem leaves_alloc {op : KirOp} (earlier : InputsEarlier prog.ops)
    (inputs : ∀ x ∈ op.inputIds, x ∈ outputs prog.ops) (output : op.outputId = some prog.nextId) :
    Leaves (some prog.nextId, prog.allocId.2.push op) :=
  (yields_alloc earlier output inputs).leaves

/-- An operation without output passes the value through. -/
theorem Leaves.sink {x : KirValueId} {op : KirOp} (earlier : InputsEarlier prog.ops)
    (produced : x ∈ outputs prog.ops) (inputs : ∀ y ∈ op.inputIds, y ∈ outputs prog.ops) :
    Leaves (some x, prog.push op) :=
  ⟨inputsEarlier_concat earlier inputs, x, rfl,
    (outputs_sublist (List.sublist_append_left _ _)).subset produced⟩

theorem leaves_lowerCollect (val : Ast.Value) (earlier : InputsEarlier prog.ops) :
    Leaves (lowerCollect val prog) := by
  have source := yields_lowerRawString val.asString earlier
  exact leaves_alloc source.earlier (List.forall_mem_singleton.2 source.produced) rfl

theorem leaves_lowerMatch (expr : BinExpr) (earlier : InputsEarlier prog.ops)
    (produced : ∀ x ∈ input, x ∈ outputs prog.ops) : Leaves (lowerMatch expr prog input) := by
  have value := yields_inputOrDummy earlier produced
  cases expr with
  | field =>
    exact leaves_alloc value.earlier (List.forall_mem_singleton.2 value.produced) rfl
  | _ => exact value.leaves

theorem leaves_lowerObserve (earlier : InputsEarlier prog.ops)
    (produced : ∀ x ∈ input, x ∈ outputs prog.ops) : Leaves (lowerObserve prog input) := by
  have value := yields_inputOrDummy earlier produced
  exact leaves_alloc value.earlier (List.forall_mem_singleton.2 value.produced) rfl

/-- A statement keeps the form and leaves a pipeline value. -/
theorem leaves_lowerStmt (stmt : Stmt) (earlier : InputsEarlier prog.ops)
    (produced : ∀ x ∈ input, x ∈ outputs prog.ops) : Leaves (lowerStmt stmt prog input) := by
  have value := yields_inputOrDummy earlier produced
  have pair : ∀ {x y : KirValueId} {l : List KirValueId}, x ∈ l → y ∈ l → ∀ z ∈ [x, y], z ∈ l := by
    intro x y l hx hy
    exact List.forall_mem_cons.2 ⟨hx, List.forall_mem_singleton.2 hy⟩
  cases stmt with
  | fromSource val | load val => exact leaves_lowerCollect val earlier
  | matchExpr expr | whereExpr expr | filter expr => exact leaves_lowerMatch expr earlier produced
  | summarize | classify => exact leaves_lowerObserve earlier produced
  | traverse val | infer val | correlate val =>
    obtain ⟨other, kept⟩ := value.string val.asString
    exact leaves_alloc other.earlier (pair kept other.produced) rfl
  | similar target =>
    have other := yields_lowerRawString target.asString earlier
    exact leaves_alloc other.earlier (List.forall_mem_singleton.2 other.produced) rfl
  | timeline start stop =>
    have query := yields_lowerRawString (timelineQuery start stop) earlier
    exact leaves_alloc query.earlier (List.forall_mem_singleton.2 query.produced) rfl
  | sort | limit =>
    exact .sink value.earlier value.produced (List.forall_mem_singleton.2 value.produced)
  | store val | exportTo val =>
    obtain ⟨other, kept⟩ := value.string val.asString
    exact .sink other.earlier kept (pair kept other.produced)

theorem leaves_lowerStmts {stmts : List Stmt} (more : stmts ≠ []) (earlier : InputsEarlier prog.ops)
    (produced : ∀ x ∈ input, x ∈ outputs prog.ops) : Leaves (lowerStmts stmts (input, prog)) := by
  induction stmts generalizing input prog with
  | nil => exact absurd rfl more
  | cons stmt stmts ih =>
    have first := leaves_lowerStmt stmt earlier produced
    cases stmts with
    | nil => exact first
    | cons stmt' stmts =>
      obtain ⟨x, hx, there⟩ := first.produced
      exact ih (List.cons_ne_nil _ _) first.earlier fun y hy =>
        Option.some.inj (hx.symm.trans hy) ▸ there

end Statements

/-- A lowered program produces every value once, with an id below the next one and before its uses; it has
an output exactly when there are statements, and then the output was produced and is returned last. -/
theorem lowerAst_ssa (stmts : List Stmt) :
    OpsOk (lowerAst stmts).ops ∧
    (∀ x ∈ outputs (lowerAst stmts).ops, x < (lowerAst stmts).nextId) ∧
    ((lowerAst stmts).output = none ↔ stmts = []) ∧
    ∀ x, (lowerAst stmts).output = some x → x ∈ outputs (lowerAst stmts).ops ∧
      ∃ before, (lowerAst stmts).ops = before ++ [.ret x] := by
  have fresh := fresh_lowerAst stmts
  cases stmts with
  | nil => exact ⟨⟨fresh.nodup, by simp [lowerAst, lowerStmts, KirProgram.new]⟩, fresh.below,
      by simp [lowerAst, lowerStmts], by simp [lowerAst, lowerStmts]⟩
  | cons stmt stmts =>
    have leaves : Leaves (lowerStmts (stmt :: stmts) (none, .new)) :=
      leaves_lowerStmts (List.cons_ne_nil _ _) (by simp [InputsEarlier, KirProgram.new]) nofun
    obtain ⟨last, hl, there⟩ := leaves.produced
    have lowered : lowerAst (stmt :: stmts) =
        { (lowerStmts (stmt :: stmts) (none, .new)).2.push (.ret last) with output := some last } := by
      simp only [lowerAst, hl]
    have kept : last ∈ outputs (lowerAst (stmt :: stmts)).ops := by
      rw [lowered]
      exact (outputs_sublist (List.sublist_append_left _ _)).subset there
    have ops : (lowerAst (stmt :: stmts)).ops =
        (lowerStmts (stmt :: stmts) (none, .new)).2.ops ++ [.ret last] := by rw [lowered]; rfl
    have output : (lowerAst (stmt :: stmts)).output = some last := by rw [lowered]
    refine ⟨⟨fresh.nodup, ?_⟩, fresh.below, by simp [output], ?_⟩
    · rw [ops]
      exact inputsEarlier_concat leaves.earlier (List.forall_mem_singleton.2 there)
    · intro x hx
      obtain rfl : last = x := Option.some.inj (output.symm.trans hx)
      exact ⟨kept, _, ops⟩

end Lowering

end TORdex
