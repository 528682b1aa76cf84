import TORdex.Tdxl.Codegen
import TORdex.Vm.StraightLine

/-!
# What an operation emits

Code generation only appends.  `opCode` is the block of instructions that an operation appends, as a
function of the registers, the constants and the pipeline value before it.
-/

namespace TORdex

open Vm

/-- One of the three registers for temporaries. -/
def IsTemp (r : UInt8) : Prop := r = TMP1 ∨ r = TMP2 ∨ r = TMP3

theorem IsTemp.ne_ACC {r : UInt8} (h : IsTemp r) : r ≠ ACC := by
  rcases h with rfl | rfl | rfl <;> decide

theorem IsTemp.lt {r : UInt8} (h : IsTemp r) : r.toNat < 32 := by
  rcases h with rfl | rfl | rfl <;> decide

namespace RegAlloc

/-- All registers that the allocator hands out are temporaries. -/
structure Temps (regs : RegAlloc) : Prop where
  map : ∀ id r, regs.map.lookup id = some r → IsTemp r
  next : IsTemp regs.nextTmp

theorem temps_new : Temps new := ⟨fun _ _ h => by simp [new] at h, .inl rfl⟩

section Alloc

variable {regs : RegAlloc} (id : KirValueId)

theorem alloc_known {r : UInt8} (h : regs.map.lookup id = some r) : regs.alloc id = (r, regs) := by
  simp only [alloc, h]

theorem alloc_fresh (h : regs.map.lookup id = none) : regs.alloc id = (regs.nextTmp, { regs with
    map := regs.map.insert id regs.nextTmp
    nextTmp := if regs.nextTmp = TMP1 then TMP2 else if regs.nextTmp = TMP2 then TMP3
      else TMP1 }) := by
  simp only [alloc, h]

/-- After an allocation the value has its register. -/
theorem lookup_alloc : (regs.alloc id).2.map.lookup id = some (regs.alloc id).1 := by
  cases h : regs.map.lookup id with
  | some r => rw [alloc_known id h, h]
  | none =>
    rw [alloc_fresh id h]
    exact Finmap.lookup_insert _

/-- Asking twice gives the same register. -/
theorem alloc_alloc : (regs.alloc id).2.alloc id = ((regs.alloc id).1, (regs.alloc id).2) :=
  alloc_known id (lookup_alloc id)

theorem Temps.alloc (h : regs.Temps) : IsTemp (regs.alloc id).1 ∧ (regs.alloc id).2.Temps := by
  cases hl : regs.map.lookup id with
  | some r =>
    rw [alloc_known id hl]
    exact ⟨h.map id r hl, h⟩
  | none =>
    rw [alloc_fresh id hl]
    refine ⟨h.next, fun id' r hr => ?_, ?_⟩
    · by_cases hid : id' = id
      · subst hid
        rw [Finmap.lookup_insert] at hr
        cases hr
        exact h.next
      · rw [Finmap.lookup_insert_of_ne _ hid] at hr
        exact h.map id' r hr
    · dsimp only
      split_ifs
      · exact .inr (.inl rfl)
      · exact .inr (.inr rfl)
      · exact .inl rfl

end Alloc

end RegAlloc

namespace CodegenEngine

section Parts

variable (e : CodegenEngine) (s : String)

/-- The index that the constant pool gives a string, as a function of the pool. -/
def stringIndex (consts : List String) : UInt16 :=
  match consts.findIdx? (· = s) with
  | some idx => UInt16.ofNat idx
  | none => UInt16.ofNat consts.length

/-- The constant pool with a string in it. -/
def withString (consts : List String) : List String :=
  match consts.findIdx? (· = s) with
  | some _ => consts
  | none => consts ++ [s]

theorem addString_eq :
    e.addString s = (stringIndex s e.consts, { e with consts := withString s e.consts }) := by
  unfold addString stringIndex withString
  cases e.consts.findIdx? (· = s) <;> rfl

end Parts

/-! ## The instructions of the parts -/

section Code

variable (e : CodegenEngine) (id : KirValueId) (s : String)

/-- Bring a value into the accumulator. -/
def accCode : List Instruction :=
  if e.isPipeline id then [] else [mov ACC (e.regs.alloc id).1]

/-- The allocator after a value was brought into the accumulator. -/
def accRegs : RegAlloc := if e.isPipeline id then e.regs else (e.regs.alloc id).2

variable {e id} in
theorem eq_of_mem_accCode {i : Instruction} (h : i ∈ e.accCode id) : i = mov ACC (e.regs.alloc id).1 := by
  unfold accCode at h
  split_ifs at h
  · exact absurd h List.not_mem_nil
  · exact List.mem_singleton.1 h

theorem intoAcc_eq (h : e.regs.Temps) :
    e.intoAcc id = { e with instrs := e.instrs ++ e.accCode id, regs := e.accRegs id } := by
  unfold intoAcc accCode accRegs emitMovToAcc
  split_ifs with hp
  · simp
  · have temp := (h.alloc id).1.ne_ACC
    simp only [CodegenEngine.alloc, temp, ne_eq, not_false_eq_true, if_true, emit]

/-- Load a string into the register of a value, if no load was emitted for it. -/
def strCode : List Instruction :=
  if e.regs.isMaterialized id then []
  else [loadStr (e.regs.alloc id).1 (stringIndex s e.consts)]

variable {e id s} in
theorem eq_of_mem_strCode {i : Instruction} (h : i ∈ e.strCode id s) :
    i = loadStr (e.regs.alloc id).1 (stringIndex s e.consts) := by
  unfold strCode at h
  split_ifs at h
  · exact absurd h List.not_mem_nil
  · exact List.mem_singleton.1 h

theorem emitLoadStr_eq : e.emitLoadStr id s =
    ((e.regs.alloc id).1,
      { e with
        instrs := e.instrs ++ e.strCode id s
        consts := if e.regs.isMaterialized id then e.consts else withString s e.consts
        regs := if e.regs.isMaterialized id then (e.regs.alloc id).2
          else (e.regs.alloc id).2.markMaterialized id }) := by
  unfold emitLoadStr strCode
  split_ifs with hm
  · simp [CodegenEngine.alloc]
  · simp only [CodegenEngine.alloc, addString_eq, emit]

end Code

/-! ## The instructions of an operation -/

/-- The register of a further operand, allocated after the value was brought into the accumulator. -/
def secondReg (e : CodegenEngine) (input id : KirValueId) : UInt8 := ((e.accRegs input).alloc id).1

/-- What the loading of a filter's text emits; the text goes into the register of the output. -/
def filterCode (e : CodegenEngine) (output input : KirValueId) (cond : FilterCond) :
    List Instruction :=
  { e with regs := e.accRegs input }.strCode output (filterJson cond)

/-- The instructions of an operation. -/
def opCode (e : CodegenEngine) : KirOp → List Instruction
  | .collect _ s => [loadEntity ACC (e.regs.alloc s).1]
  | .sourceEntity _ k => [loadEntity ACC (e.regs.alloc k).1]
  | .sourceSearch _ q => [search ACC (e.regs.alloc q).1]
  | .observe _ i => e.accCode i ++ [classify ACC ACC]
  | .classify _ i => e.accCode i ++ [classify ACC ACC]
  | .loadGraph _ i => e.accCode i ++ [loadGraph ACC ACC]
  | .resolve _ i st => e.accCode i ++ [loadGraph TMP1 ACC, search ACC (e.secondReg i st)]
  | .filter o i c =>
    e.accCode i ++ loadGraph TMP1 ACC :: (e.filterCode o i c ++ [search ACC (e.secondReg i o)])
  | .traverse _ i r d =>
    e.accCode i ++ traverse ACC (e.secondReg i r) ::
      (d.map fun d => loadImm DEPTH (Int32.ofInt d)).toList
  | .infer _ i r => e.accCode i ++ [infer ACC ACC (e.secondReg i r)]
  | .correlate _ i t =>
    e.accCode i ++ [loadStr TMP2 (stringIndex "_target" e.consts),
      loadEntity TMP3 (e.secondReg i t), correlate ACC TMP3]
  | .similar _ t th => [loadImm NUM (timesTen th), similar ACC (e.regs.alloc t).1 NUM]
  | .timeline _ q => [timeline ACC (e.regs.alloc q).1]
  | .store v _ => e.accCode v ++ [storeVal ACC]
  | .exportTo v f => e.accCode v ++ [snapshot ACC (e.secondReg v f)]
  | .snapshot _ v k => e.accCode v ++ [snapshot ACC k]
  | .ret _ | .sortHint .. | .limitHint .. | .constStr .. | .constInt .. | .constFloat .. => []

/-- The constant pool after an operation. -/
def opConsts (e : CodegenEngine) : KirOp → List String
  | .filter o i c =>
    if (e.accRegs i).isMaterialized o then e.consts else withString (filterJson c) e.consts
  | .correlate _ _ _ => withString "_target" e.consts
  | _ => e.consts

/-- The allocator after an operation. -/
def opRegs (e : CodegenEngine) : KirOp → RegAlloc
  | .collect _ s => (e.regs.alloc s).2
  | .sourceEntity _ k => (e.regs.alloc k).2
  | .sourceSearch _ q => (e.regs.alloc q).2
  | .observe _ i | .classify _ i | .loadGraph _ i => e.accRegs i
  | .resolve _ i st => ((e.accRegs i).alloc st).2
  | .filter o i _ =>
    if (e.accRegs i).isMaterialized o then ((e.accRegs i).alloc o).2
    else ((e.accRegs i).alloc o).2.markMaterialized o
  | .traverse _ i r _ => ((e.accRegs i).alloc r).2
  | .infer _ i r => ((e.accRegs i).alloc r).2
  | .correlate _ i t => ((e.accRegs i).alloc t).2
  | .similar _ t _ => (e.regs.alloc t).2
  | .timeline _ q => (e.regs.alloc q).2
  | .store v n => ((e.accRegs v).alloc n).2
  | .exportTo v f => ((e.accRegs v).alloc f).2
  | .snapshot _ v _ => e.accRegs v
  | .ret _ | .sortHint .. | .limitHint .. | .constStr .. | .constInt .. | .constFloat .. => e.regs

theorem emitOp_eq {e : CodegenEngine} (h : e.regs.Temps) (op : KirOp) :
    e.emitOp op = ⟨e.opConsts op, e.instrs ++ e.opCode op, e.opRegs op,
      op.accValue.or e.pipelineVal⟩ := by
  cases op with
  | filter o i c =>
    have again : (if (e.accRegs i).isMaterialized o then ((e.accRegs i).alloc o).2
        else ((e.accRegs i).alloc o).2.markMaterialized o).alloc o =
        (((e.accRegs i).alloc o).1, if (e.accRegs i).isMaterialized o then ((e.accRegs i).alloc o).2
        else ((e.accRegs i).alloc o).2.markMaterialized o) := by
      split_ifs
      · exact RegAlloc.alloc_alloc o
      · exact RegAlloc.alloc_known o (RegAlloc.lookup_alloc o)
    simp only [emitOp, opCode, intoAcc_eq e i h, emit, emitLoadStr_eq, CodegenEngine.alloc, again,
      setPipeline, filterCode, secondReg, List.append_assoc, opConsts, opRegs]
    rfl
  | correlate o i t =>
    simp only [emitOp, opCode, intoAcc_eq e i h, addString_eq, secondReg, opConsts, opRegs,
      CodegenEngine.alloc, emit, setPipeline, List.append_assoc]
    rfl
  | traverse o i r d =>
    cases d <;>
      simp only [emitOp, opCode, intoAcc_eq e i h, secondReg, opConsts, opRegs,
        CodegenEngine.alloc, emit, setPipeline, List.append_assoc] <;> rfl
  | store v n =>
    simp only [emitOp, opCode, intoAcc_eq e v h, opConsts, opRegs, CodegenEngine.alloc, emit,
      List.append_assoc]
    rfl
  | collect | sourceEntity | sourceSearch | similar | timeline =>
    simp only [emitOp, opCode, opConsts, opRegs, CodegenEngine.alloc, emit, setPipeline,
      List.append_assoc]
    rfl
  | observe _ i | classify _ i | loadGraph _ i | resolve _ i _ | infer _ i _ | exportTo i _
  | snapshot _ i _ =>
    simp only [emitOp, opCode, intoAcc_eq e i h, secondReg, opConsts, opRegs,
      CodegenEngine.alloc, emit, setPipeline, List.append_assoc]
    rfl
  | ret => simp [emitOp, opCode, opConsts, opRegs, setPipeline, KirOp.accValue]
  | sortHint | limitHint | constStr | constInt | constFloat =>
    simp [emitOp, opCode, opConsts, opRegs, KirOp.accValue, KirOp.outputId]

theorem Temps.accRegs {e : CodegenEngine} (h : e.regs.Temps) (id : KirValueId) :
    (e.accRegs id).Temps := by
  unfold CodegenEngine.accRegs
  split_ifs
  · exact h
  · exact (h.alloc id).2

theorem temps_opRegs {e : CodegenEngine} (h : e.regs.Temps) (op : KirOp) : (e.opRegs op).Temps := by
  have acc := Temps.accRegs h
  cases op <;> simp only [opRegs]
  case filter o i c =>
    split_ifs
    · exact ((acc i).alloc o).2
    · exact ⟨((acc i).alloc o).2.map, ((acc i).alloc o).2.next⟩
  all_goals first
    | exact h
    | exact (h.alloc _).2
    | exact acc _
    | exact ((acc _).alloc _).2

/-! ## Whole programs -/

theorem temps_emitOps {e : CodegenEngine} (h : e.regs.Temps) (ops : List KirOp) :
    (ops.foldl emitOp e).regs.Temps := by
  induction ops generalizing e with
  | nil => exact h
  | cons op ops ih =>
    refine ih ?_
    rw [emitOp_eq h]
    exact temps_opRegs h op

/-- Emitting operations only appends instructions. -/
theorem instrs_emitOps {e : CodegenEngine} (h : e.regs.Temps) (ops : List KirOp) :
    ∃ code, (ops.foldl emitOp e).instrs = e.instrs ++ code := by
  induction ops generalizing e with
  | nil => exact ⟨[], (List.append_nil _).symm⟩
  | cons op ops ih =>
    have next : (e.emitOp op).regs.Temps := by
      rw [emitOp_eq h]
      exact temps_opRegs h op
    obtain ⟨code, hc⟩ := ih next
    refine ⟨e.opCode op ++ code, ?_⟩
    rw [List.foldl_cons, hc, emitOp_eq h, List.append_assoc]

theorem temps_preload {e : CodegenEngine} (h : e.regs.Temps) (ops : List KirOp) :
    (ops.foldl preload e).regs.Temps := by
  induction ops generalizing e with
  | nil => exact h
  | cons op ops ih =>
    refine ih ?_
    cases op with
    | constStr id s =>
      simp only [preload, emitLoadStr_eq]
      split_ifs
      · exact (h.alloc id).2
      · exact ⟨(h.alloc id).2.map, (h.alloc id).2.next⟩
    | _ => exact h

/-- The state before the operation after `before`: all constants are loaded. -/
def stateBefore (program : KirProgram) (before : List KirOp) : CodegenEngine :=
  before.foldl emitOp (program.ops.foldl preload new)

theorem temps_stateBefore (program : KirProgram) (before : List KirOp) :
    (stateBefore program before).regs.Temps :=
  temps_emitOps (temps_preload RegAlloc.temps_new program.ops) before

/-- The instructions of an operation stand in the finished program where those before it end. -/
theorem codeAt_opCode {program : KirProgram} {before after : List KirOp} {op : KirOp}
    (h : program.ops = before ++ op :: after) :
    Executor.CodeAt (codegenKir program) (stateBefore program before).instrs.length
      ((stateBefore program before).opCode op) := by
  have temps := temps_stateBefore program before
  have after_op : ((stateBefore program before).emitOp op).regs.Temps := by
    rw [emitOp_eq temps]
    exact temps_opRegs temps op
  obtain ⟨code, hc⟩ := instrs_emitOps after_op after
  refine ⟨(stateBefore program before).instrs, code ++ [halt], ?_, rfl⟩
  have whole : (codegenKir program).instructions = (new.emitAll program).instrs ++ [halt] := rfl
  have split : new.emitAll program = after.foldl emitOp ((stateBefore program before).emitOp op) := by
    unfold emitAll stateBefore
    rw [h, List.foldl_append (l := before), List.foldl_cons]
  rw [whole, split, hc, emitOp_eq temps]
  simp

/-- The instructions only write registers and talk to the outside world. -/
def AllData (code : List Instruction) : Prop := ∀ i ∈ code, i.opcode.isData

theorem AllData.append {code code' : List Instruction} (h : AllData code) (h' : AllData code') :
    AllData (code ++ code') := List.forall_mem_append.2 ⟨h, h'⟩

theorem allData_of_all {code : List Instruction} (h : code.all (fun i => i.opcode.isData) = true) :
    AllData code := List.all_eq_true.1 h

theorem allData_accCode (e : CodegenEngine) (id : KirValueId) : AllData (e.accCode id) := fun i hi => by
  rw [eq_of_mem_accCode hi]
  rfl

theorem allData_strCode (e : CodegenEngine) (id : KirValueId) (s : String) :
    AllData (e.strCode id s) := fun i hi => by
  rw [eq_of_mem_strCode hi]
  rfl

theorem data_opCode (e : CodegenEngine) (op : KirOp) : AllData (e.opCode op) := by
  have acc := allData_accCode e
  cases op with
  | filter o i c =>
    have text : AllData (e.filterCode o i c) := allData_strCode _ _ _
    exact (acc i).append (List.forall_mem_cons.2 ⟨rfl, text.append (allData_of_all rfl)⟩)
  | traverse o i r d => cases d <;> exact (acc i).append (allData_of_all rfl)
  | observe _ i | classify _ i | loadGraph _ i | resolve _ i _ | infer _ i _ | correlate _ i _
  | store i _ | exportTo i _ | snapshot _ i _ => exact (acc i).append (allData_of_all rfl)
  | _ => exact allData_of_all rfl

end CodegenEngine

end TORdex

/-!
## Operands of the emitted code

Which register the executor reads as which operand, which KIR input codegen keeps in which register,
and for which operations the two agree: every input reaches the operand that is its role, and the
result depends on it.
-/

namespace TORdex

open Vm Vm.Executor

/-- What an instruction uses a register for.  The executor has no operand for the relation of a
traversal, the name of a stored value, or the value and the format of a snapshot. -/
inductive Operand where
  | entityKind
  | graphEntity
  | traverseStart
  | traverseRelation
  | inferSubject
  | inferPredicate
  | similarValue
  | classifyContent
  | correlateLeft
  | timelineQuery
  | searchQuery
  | searchKind
  | storedValue
  | storedName
  | snapshotValue
  | snapshotFormat
  deriving DecidableEq

/-- The register that the executor reads for an operand. -/
def operandReg (instr : Instruction) (operand : Operand) : Option UInt8 :=
  match instr.opcode, operand with
  | .loadEntity, .entityKind => some instr.regB
  | .loadGraph, .graphEntity => some instr.regB
  | .traverse, .traverseStart => some instr.regB
  | .infer, .inferSubject => some instr.regB
  | .infer, .inferPredicate => some instr.extra
  | .similar, .similarValue => some instr.regB
  | .classify, .classifyContent => some instr.regB
  | .correlate, .correlateLeft => some instr.regA
  | .timeline, .timelineQuery => some instr.regB
  | .search, .searchQuery => some instr.regA
  | .search, .searchKind => some instr.regB
  | .store, .storedValue => some instr.regA
  | _, _ => none

/-- The operands that an instruction takes from its own bytes. -/
def literalOperands (instr : Instruction) : List UInt8 :=
  match instr.opcode with
  | .snapshot => [instr.regB]
  | _ => []

namespace CodegenEngine

/-- The register of the pipeline input. -/
def accReg (e : CodegenEngine) (id : KirValueId) : UInt8 :=
  if e.isPipeline id then ACC else (e.regs.alloc id).1

/-- The role of each KIR input of an operation that emits code, and its register. -/
def inputRegs (e : CodegenEngine) : KirOp → List (Operand × UInt8)
  | .collect _ s => [(.entityKind, (e.regs.alloc s).1)]
  | .sourceEntity _ k => [(.entityKind, (e.regs.alloc k).1)]
  | .sourceSearch _ q => [(.searchQuery, (e.regs.alloc q).1)]
  | .observe _ i => [(.classifyContent, e.accReg i)]
  | .classify _ i => [(.classifyContent, e.accReg i)]
  | .loadGraph _ i => [(.graphEntity, e.accReg i)]
  | .filter _ i _ => [(.searchQuery, e.accReg i)]
  | .resolve _ i s => [(.searchQuery, e.accReg i), (.searchKind, e.secondReg i s)]
  | .traverse _ i r _ => [(.traverseStart, e.accReg i), (.traverseRelation, e.secondReg i r)]
  | .correlate _ i t => [(.correlateLeft, e.accReg i), (.entityKind, e.secondReg i t)]
  | .similar _ t _ => [(.similarValue, (e.regs.alloc t).1)]
  | .infer _ i r => [(.inferSubject, e.accReg i), (.inferPredicate, e.secondReg i r)]
  | .timeline _ q => [(.timelineQuery, (e.regs.alloc q).1)]
  | .store v n => [(.storedValue, e.accReg v), (.storedName, e.secondReg v n)]
  | .exportTo v f => [(.snapshotValue, e.accReg v), (.snapshotFormat, e.secondReg v f)]
  | .snapshot _ v _ => [(.snapshotValue, e.accReg v)]
  | .ret _ | .sortHint .. | .limitHint .. | .constStr .. | .constInt .. | .constFloat .. => []

end CodegenEngine

/-- The literals that the KIR gives an operation. -/
def KirOp.literals : KirOp → List UInt8
  | .snapshot _ _ kind => [kind]
  | _ => []

section Agreement

variable (program : Program) (start : ℕ) (code : List Instruction)

/-- When the code is executed where it stands, one of its instructions reads, as the operand, what the
register held before the code. -/
def Fed (operand : Operand) (reg : UInt8) : Prop :=
  ∃ pre instr post r, code = pre ++ instr :: post ∧ operandReg instr operand = some r ∧
    ∀ (W : Type) (svc : Services W) (ctx ctx' : ExecutionContext W), ctx.program = program →
      ctx.pc = start → steps svc pre.length ctx = .ok ctx' →
      ctx'.regs.contents r = ctx.regs.contents reg

/-- Two executions of the code whose contexts differ in the register only leave different values in
the accumulator or store different values. -/
def Matters (reg : UInt8) : Prop :=
  ∃ (W : Type) (svc : Services W) (ctx ctx₁ ctx₂ : ExecutionContext W) (v₁ v₂ : RegisterValue),
    ctx.program = program ∧ ctx.pc = start ∧
    steps svc code.length { ctx with regs := ctx.regs.put reg v₁ } = .ok ctx₁ ∧
    steps svc code.length { ctx with regs := ctx.regs.put reg v₂ } = .ok ctx₂ ∧
    (ctx₁.regs.contents ACC ≠ ctx₂.regs.contents ACC ∨ ctx₁.world ≠ ctx₂.world)

/-- A depth is loaded before the traversal, which reads it. -/
def DepthUsed : KirOp → Prop
  | .traverse _ _ _ (some d) => ∃ pre instr post, code = pre ++ instr :: post ∧
      instr.opcode = .traverse ∧ loadImm DEPTH (Int32.ofInt d) ∈ pre ∧ DEPTH ∈ instr.reads
  | _ => True

end Agreement

/-- Codegen and executor agree on the operands of an operation. -/
structure OperandsAgree (program : Program) (e : CodegenEngine) (op : KirOp) : Prop where
  fed : ∀ x ∈ e.inputRegs op, Fed program e.instrs.length (e.opCode op) x.1 x.2
  matters : ∀ x ∈ e.inputRegs op, Matters program e.instrs.length (e.opCode op) x.2
  depth : DepthUsed (e.opCode op) op
  literals : ∀ instr ∈ e.opCode op, ∀ l ∈ literalOperands instr, l ∈ op.literals

/-- When they agree: the operation has the operands that the executor reads, and no instruction of it
overwrites the register of its second input before it is read. -/
def Unclobbered (e : CodegenEngine) : KirOp → Prop
  | .sourceSearch .. | .traverse .. | .store .. | .exportTo .. | .snapshot .. => False
  | .resolve _ i s => e.secondReg i s ≠ TMP1
  | .correlate _ i t => e.secondReg i t ≠ TMP2
  | _ => True

end TORdex
