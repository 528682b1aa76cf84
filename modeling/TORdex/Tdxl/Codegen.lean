import TORdex.Tdxl.Kir
import TORdex.Vm.Instruction

/-!
# From KIR to bytecode

All string constants are loaded first, into three registers in turn; then every operation emits its
instructions.  A `HashSet` of ids is a list.
-/

namespace TORdex

open Vm

/-- The pipeline accumulator. -/
def ACC : UInt8 := 0

/-- The first of the three registers in turn. -/
def TMP1 : UInt8 := 1

/-- The second one. -/
def TMP2 : UInt8 := 2

/-- The third one. -/
def TMP3 : UInt8 := 3

/-- The register of thresholds. -/
def NUM : UInt8 := 4

/-- The register of traversal depths. -/
def DEPTH : UInt8 := 5

/-- A register allocator. -/
structure RegAlloc where
  map : HashMap KirValueId UInt8
  nextTmp : UInt8
  materialized : List KirValueId

namespace RegAlloc

/-- Nothing is allocated. -/
def new : RegAlloc := ⟨∅, TMP1, []⟩

/-- Allocate a register for a value, round-robin. -/
def alloc (regs : RegAlloc) (id : KirValueId) : UInt8 × RegAlloc :=
  match regs.map.lookup id with
  | some reg => (reg, regs)
  | none =>
    let reg := regs.nextTmp
    (reg, { regs with
      map := regs.map.insert id reg
      nextTmp := if reg = TMP1 then TMP2 else if reg = TMP2 then TMP3 else TMP1 })

/-- The value has been loaded. -/
def markMaterialized (regs : RegAlloc) (id : KirValueId) : RegAlloc :=
  { regs with materialized := id :: regs.materialized }

/-- The value has been loaded before. -/
def isMaterialized (regs : RegAlloc) (id : KirValueId) : Bool := id ∈ regs.materialized

end RegAlloc

/-- The nearest `f64`, of two equally near ones the even one.  The significand has at most 53 bits, and the exponent
of two is at least -1074. -/
def Decimal.nearest (d : Decimal) : F64 :=
  let num := d.mantissa * 10 ^ d.exponent.toNat
  let den := 10 ^ (-d.exponent).toNat
  if num = 0 then .finite ⟨d.negative, 0, 0⟩
  else
    -- with this exponent or the next one the significand has 53 bits
    let low : ℤ := num.log2 - den.log2 - 53
    let fits := num * 2 ^ (-low).toNat < 2 ^ 53 * den * 2 ^ low.toNat
    let exponent := max (-1074) (if fits then low else low + 1)
    let top := num * 2 ^ (-exponent).toNat
    let bottom := den * 2 ^ exponent.toNat
    let whole := top / bottom
    let rest := 2 * (top % bottom)
    let significand := if bottom < rest || rest = bottom && whole % 2 = 1 then whole + 1 else whole
    if 2 ^ 1024 ≤ significand * 2 ^ exponent.toNat then .infinite d.negative
    else .finite ⟨d.negative, significand * 2 ^ exponent.toNat * 5 ^ (-exponent).toNat, min exponent 0⟩

/-- `x * 10.0`. -/
def F64.timesTen : F64 → F64
  | .finite d =>
    match d.nearest with
    | .finite d => { d with exponent := d.exponent + 1 : Decimal }.nearest
    | x => x
  | x => x

/-- The constants, the instructions and the registers so far, and the value in the accumulator. -/
structure CodegenEngine where
  consts : List String
  instrs : List Instruction
  regs : RegAlloc
  pipelineVal : Option KirValueId

namespace CodegenEngine

/-- Before the first instruction. -/
def new : CodegenEngine := ⟨[], [], .new, none⟩

/-- The index of a string in the constant pool, cut down to 16 bits. -/
def addString (e : CodegenEngine) (s : String) : UInt16 × CodegenEngine :=
  match e.consts.findIdx? (· = s) with
  | some idx => (UInt16.ofNat idx, e)
  | none => (UInt16.ofNat e.consts.length, { e with consts := e.consts ++ [s] })

/-- Add an instruction. -/
def emit (e : CodegenEngine) (instr : Instruction) : CodegenEngine :=
  { e with instrs := e.instrs ++ [instr] }

/-- The register of a value. -/
def alloc (e : CodegenEngine) (id : KirValueId) : UInt8 × CodegenEngine :=
  let (reg, regs) := e.regs.alloc id
  (reg, { e with regs })

/-- Load a string constant, unless it has been loaded. -/
def emitLoadStr (e : CodegenEngine) (id : KirValueId) (s : String) : UInt8 × CodegenEngine :=
  if e.regs.isMaterialized id then e.alloc id
  else
    let (reg, e) := e.alloc id
    let (idx, e) := e.addString s
    let e := e.emit (loadStr reg idx)
    (reg, { e with regs := e.regs.markMaterialized id })

/-- The value is in the accumulator. -/
def isPipeline (e : CodegenEngine) (id : KirValueId) : Bool := e.pipelineVal = some id

/-- Move a value to the accumulator. -/
def emitMovToAcc (e : CodegenEngine) (id : KirValueId) : CodegenEngine :=
  let (reg, e) := e.alloc id
  if reg ≠ ACC then e.emit (mov ACC reg) else e

/-- `if !self.is_pipeline(input) { self.emit_mov_to_acc(input) }`. -/
def intoAcc (e : CodegenEngine) (id : KirValueId) : CodegenEngine :=
  if e.isPipeline id then e else e.emitMovToAcc id

/-- The value is in the accumulator from here on. -/
def setPipeline (e : CodegenEngine) (id : KirValueId) : CodegenEngine :=
  { e with pipelineVal := some id }

/-- The text of a filter. -/
def filterJson (filter : FilterCond) : String :=
  Json.render (.obj [("field", .str filter.field), ("op", .str filter.op),
    ("value", .str filter.value)])

/-- `(threshold * 10.0) as i32`. -/
def timesTen (threshold : F64) : Int32 := Int32.ofInt (threshold.timesTen.saturate (-2 ^ 31) (2 ^ 31 - 1))

/-- The product of a threshold just below three tenths is rounded to three. -/
example : timesTen (.finite ⟨false, 29999999999999998, -17⟩) = 3 := by decide +kernel

/-- The instructions of an operation. -/
def emitOp (e : CodegenEngine) : KirOp → CodegenEngine
  | .collect output sourceId =>
    let (sourceReg, e) := e.alloc sourceId
    (e.emit (loadEntity ACC sourceReg)).setPipeline output
  | .sourceEntity output kindId =>
    let (kindReg, e) := e.alloc kindId
    (e.emit (loadEntity ACC kindReg)).setPipeline output
  | .sourceSearch output queryId =>
    let (queryReg, e) := e.alloc queryId
    (e.emit (search ACC queryReg)).setPipeline output
  | .observe output input => ((e.intoAcc input).emit (classify ACC ACC)).setPipeline output
  | .classify output input => ((e.intoAcc input).emit (classify ACC ACC)).setPipeline output
  | .loadGraph output input => ((e.intoAcc input).emit (loadGraph ACC ACC)).setPipeline output
  | .resolve output input strategyId =>
    let (strategyReg, e) := (e.intoAcc input).alloc strategyId
    ((e.emit (loadGraph TMP1 ACC)).emit (search ACC strategyReg)).setPipeline output
  | .filter output input filter =>
    let e := (e.intoAcc input).emit (loadGraph TMP1 ACC)
    let (_, e) := e.emitLoadStr output (filterJson filter)
    let (filterReg, e) := e.alloc output
    (e.emit (search ACC filterReg)).setPipeline output
  | .traverse output input relationId depth =>
    let (relReg, e) := (e.intoAcc input).alloc relationId
    let e := e.emit (traverse ACC relReg)
    let e :=
      match depth with
      | some d => e.emit (loadImm DEPTH (Int32.ofInt d))
      | none => e
    e.setPipeline output
  | .infer output input ruleId =>
    let (ruleReg, e) := (e.intoAcc input).alloc ruleId
    (e.emit (infer ACC ACC ruleReg)).setPipeline output
  | .correlate output input targetId =>
    let (tgtReg, e) := (e.intoAcc input).alloc targetId
    let (targetIdx, e) := e.addString "_target"
    (((e.emit (loadStr TMP2 targetIdx)).emit (loadEntity TMP3 tgtReg)).emit
      (correlate ACC TMP3)).setPipeline output
  | .similar output targetId threshold =>
    let (tgtReg, e) := e.alloc targetId
    ((e.emit (loadImm NUM (timesTen threshold))).emit (similar ACC tgtReg NUM)).setPipeline output
  | .timeline output queryId =>
    let (queryReg, e) := e.alloc queryId
    (e.emit (timeline ACC queryReg)).setPipeline output
  | .store valueId nameId =>
    let (_, e) := (e.intoAcc valueId).alloc nameId
    e.emit (storeVal ACC)
  | .exportTo valueId formatId =>
    let (fmtReg, e) := (e.intoAcc valueId).alloc formatId
    (e.emit (snapshot ACC fmtReg)).setPipeline valueId
  | .snapshot output valueId kind =>
    ((e.intoAcc valueId).emit (snapshot ACC kind)).setPipeline output
  | .ret valueId => e.setPipeline valueId
  | .sortHint .. | .limitHint .. | .constStr .. | .constInt .. | .constFloat .. => e

/-- Materialize a string constant. -/
def preload (e : CodegenEngine) : KirOp → CodegenEngine
  | .constStr output value => (e.emitLoadStr output value).2
  | _ => e

/-- Materialize all constants, then emit all operations. -/
def emitAll (e : CodegenEngine) (program : KirProgram) : CodegenEngine :=
  program.ops.foldl emitOp (program.ops.foldl preload e)

/-- The program, with `HALT` at its end. -/
def finish (e : CodegenEngine) : Program :=
  let e := e.emit halt
  { e.consts.foldl (fun p s => p.addConstant (.str s)) (Program.new "tdxl_program") with
    instructions := e.instrs }

end CodegenEngine

/-- Codegen: lower KIR to VM bytecode. -/
def codegenKir (program : KirProgram) : Program := (CodegenEngine.new.emitAll program).finish

end TORdex
