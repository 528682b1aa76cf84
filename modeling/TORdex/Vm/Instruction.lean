import TORdex.Core.Json
import TORdex.Lib.Bytes

/-! The instructions of the intelligence VM, their builders, and programs. -/

namespace TORdex.Vm

/-- The operations of the machine. -/
inductive Opcode where
  | nop
  | loadImm
  | loadStr
  | mov
  | loadEntity
  | loadGraph
  | traverse
  | compare
  | fact
  | query
  | relate
  | infer
  | similar
  | classify
  | reason
  | correlate
  | timeline
  | push
  | pop
  | dup
  | swap
  | jmp
  | jz
  | jnz
  | call
  | ret
  | halt
  | search
  | index
  | rank
  | recall
  | consolidate
  | forget
  | store
  | snapshot
  | sysCall
  | emit
  deriving DecidableEq, Repr

/-- An 8-byte instruction. -/
structure Instruction where
  opcode : Opcode
  regA : UInt8
  regB : UInt8
  extra : UInt8
  imm : Int32
  deriving DecidableEq

namespace Instruction

/-- An instruction without operands. -/
def new (opcode : Opcode) : Instruction := ⟨opcode, 0, 0, 0, 0⟩

/-- Set the first register. -/
def withRegA (i : Instruction) (reg : UInt8) : Instruction := { i with regA := reg }

/-- Set the second register. -/
def withRegB (i : Instruction) (reg : UInt8) : Instruction := { i with regB := reg }

/-- Set the third register. -/
def withExtra (i : Instruction) (val : UInt8) : Instruction := { i with extra := val }

/-- Set the immediate. -/
def withImm (i : Instruction) (val : Int32) : Instruction := { i with imm := val }

end Instruction

open Instruction

/-! ## Builders -/

/-- Load an immediate. -/
def loadImm (reg : UInt8) (value : Int32) : Instruction :=
  ((new .loadImm).withRegA reg).withImm value

/-- The index is a `u16`, widened. -/
def loadStr (reg : UInt8) (stringIdx : UInt16) : Instruction :=
  ((new .loadStr).withRegA reg).withImm (Int32.ofNat stringIdx.toNat)

/-- Copy a register. -/
def mov (dst src : UInt8) : Instruction := ((new .mov).withRegA dst).withRegB src

/-- Facts with a subject and a predicate. -/
def infer (dst subj pred : UInt8) : Instruction :=
  (((new .infer).withRegA dst).withRegB subj).withExtra pred

/-- Call relative to the next instruction. -/
def call (offset : Int32) : Instruction := (new .call).withImm offset

/-- Return. -/
def ret : Instruction := new .ret

/-- Halt. -/
def halt : Instruction := new .halt

/-- Search by an index. -/
def search (dst idx : UInt8) : Instruction := ((new .search).withRegA dst).withRegB idx

/-- Load an entity of a kind. -/
def loadEntity (dst kindReg : UInt8) : Instruction :=
  ((new .loadEntity).withRegA dst).withRegB kindReg

/-- Load the graph of an entity. -/
def loadGraph (dst entityReg : UInt8) : Instruction :=
  ((new .loadGraph).withRegA dst).withRegB entityReg

/-- Traverse from an entity. -/
def traverse (dst entityReg : UInt8) : Instruction :=
  ((new .traverse).withRegA dst).withRegB entityReg

/-- What is similar to a value. -/
def similar (dst valueReg thresholdReg : UInt8) : Instruction :=
  (((new .similar).withRegA dst).withRegB valueReg).withExtra thresholdReg

/-- Classify a content. -/
def classify (dst contentReg : UInt8) : Instruction :=
  ((new .classify).withRegA dst).withRegB contentReg

/-- Correlate two entities. -/
def correlate (dst entA : UInt8) : Instruction :=
  ((new .correlate).withRegA dst).withRegB entA

/-- The timeline of a query. -/
def timeline (dst queryReg : UInt8) : Instruction :=
  ((new .timeline).withRegA dst).withRegB queryReg

/-- Store a register. -/
def storeVal (reg : UInt8) : Instruction := (new .store).withRegA reg

/-- Take a snapshot. -/
def snapshot (dst kind : UInt8) : Instruction := ((new .snapshot).withRegA dst).withRegB kind

/-! ## Programs -/

/-- A sequence of instructions with its constants. -/
structure Program where
  name : String
  instructions : List Instruction
  constants : List Json
  entryPoint : ℕ

/-- `Program::new`. -/
def Program.new (name : String) : Program := ⟨name, [], [], 0⟩

/-- Add a constant. -/
def Program.addConstant (p : Program) (value : Json) : Program :=
  { p with constants := p.constants ++ [value] }

/-- The constant at an index. -/
def Program.getConstant (p : Program) (idx : UInt16) : Option Json := p.constants[idx.toNat]?

end TORdex.Vm

/-!
## Encoded instructions

An instruction is a word of eight bytes: opcode, two registers, an extra byte and an immediate.
-/

namespace TORdex.Vm

namespace Opcode

/-- `opcode as u8`, the discriminants. -/
def toU8 : Opcode → UInt8
  | nop => 0x00
  | loadImm => 0x01
  | loadStr => 0x02
  | mov => 0x03
  | loadEntity => 0x04
  | loadGraph => 0x05
  | traverse => 0x06
  | compare => 0x07
  | fact => 0x10
  | query => 0x11
  | relate => 0x12
  | infer => 0x13
  | similar => 0x14
  | classify => 0x15
  | reason => 0x16
  | correlate => 0x17
  | timeline => 0x18
  | push => 0x20
  | pop => 0x21
  | dup => 0x22
  | swap => 0x23
  | jmp => 0x30
  | jz => 0x31
  | jnz => 0x32
  | call => 0x33
  | ret => 0x34
  | halt => 0x35
  | search => 0x40
  | index => 0x41
  | rank => 0x42
  | «recall» => 0x50
  | consolidate => 0x51
  | forget => 0x52
  | store => 0x53
  | snapshot => 0x54
  | sysCall => 0x60
  | emit => 0x61

/-- The operation of a byte. -/
def fromU8 (byte : UInt8) : Option Opcode :=
  match byte with
  | 0x00 => some nop
  | 0x01 => some loadImm
  | 0x02 => some loadStr
  | 0x03 => some mov
  | 0x04 => some loadEntity
  | 0x05 => some loadGraph
  | 0x06 => some traverse
  | 0x07 => some compare
  | 0x10 => some fact
  | 0x11 => some query
  | 0x12 => some relate
  | 0x13 => some infer
  | 0x14 => some similar
  | 0x15 => some classify
  | 0x16 => some reason
  | 0x17 => some correlate
  | 0x18 => some timeline
  | 0x20 => some push
  | 0x21 => some pop
  | 0x22 => some dup
  | 0x23 => some swap
  | 0x30 => some jmp
  | 0x31 => some jz
  | 0x32 => some jnz
  | 0x33 => some call
  | 0x34 => some ret
  | 0x35 => some halt
  | 0x40 => some search
  | 0x41 => some index
  | 0x42 => some rank
  | 0x50 => some «recall»
  | 0x51 => some consolidate
  | 0x52 => some forget
  | 0x53 => some store
  | 0x54 => some snapshot
  | 0x60 => some sysCall
  | 0x61 => some emit
  | _ => none

/-- The two tables agree. -/
theorem fromU8_toU8 (op : Opcode) : fromU8 op.toU8 = some op := by
  cases op <;> rfl

/-- No two bytes are read as one opcode. -/
theorem toU8_fromU8 {byte : UInt8} {op : Opcode} (h : fromU8 byte = some op) : op.toU8 = byte := by
  unfold fromU8 at h
  split at h
  all_goals first
    | exact Option.some.inj h ▸ rfl
    | cases h

end Opcode

namespace Instruction

/-- `i32::to_le_bytes`. -/
def toLeBytes (x : Int32) : Vector UInt8 4 :=
  ⟨(LittleEndian.toBytes 4 x.toUInt32.toNat).toArray, LittleEndian.length_toBytes 4 _⟩

/-- `i32::from_le_bytes`. -/
def fromLeBytes (bytes : Vector UInt8 4) : Int32 :=
  (UInt32.ofNat (LittleEndian.ofBytes bytes.toList)).toInt32

/-- Encode this instruction into an 8-byte array. -/
def encode (i : Instruction) : Vector UInt8 8 :=
  #v[i.opcode.toU8, i.regA, i.regB, i.extra] ++ toLeBytes i.imm

/-- Decode an 8-byte array into an instruction. -/
def decode (bytes : Vector UInt8 8) : Option Instruction := do
  let opcode ← Opcode.fromU8 bytes[0]
  let imm := fromLeBytes (bytes.extract 4 8)
  some { opcode, regA := bytes[1], regB := bytes[2], extra := bytes[3], imm }

theorem fromLeBytes_toLeBytes (x : Int32) : fromLeBytes (toLeBytes x) = x := by
  show (UInt32.ofNat (LittleEndian.ofBytes (LittleEndian.toBytes 4 x.toUInt32.toNat))).toInt32 = x
  rw [LittleEndian.ofBytes_toBytes_of_lt x.toUInt32.toNat_lt, UInt32.ofNat_toNat, Int32.toInt32_toUInt32]

theorem toLeBytes_fromLeBytes (bytes : Vector UInt8 4) : toLeBytes (fromLeBytes bytes) = bytes := by
  have length : bytes.toList.length = 4 := bytes.length_toList
  have bound := LittleEndian.ofBytes_lt bytes.toList
  have back := LittleEndian.toBytes_ofBytes bytes.toList
  rw [length] at bound back
  apply Vector.toList_inj.1
  show LittleEndian.toBytes 4 (UInt32.ofNat _).toInt32.toUInt32.toNat = _
  rw [UInt32.toUInt32_toInt32, UInt32.toNat_ofNat', Nat.mod_eq_of_lt (show _ < 2 ^ 32 from bound), back]

/-- A word is its head and its immediate. -/
theorem word_eq (bytes : Vector UInt8 8) :
    bytes = #v[bytes[0], bytes[1], bytes[2], bytes[3]] ++ bytes.extract 4 8 := by
  ext i hi
  by_cases head : i < 4
  · rw [Vector.getElem_append_left head]
    match i, head with
    | 0, _ | 1, _ | 2, _ | 3, _ => rfl
  · have place : 4 + (i - 4) = i := by omega
    rw [Vector.getElem_append_right hi (by omega), Vector.getElem_extract]
    simp only [place]

/-- The parts of a word whose head and immediate are given. -/
theorem decode_append (op regA regB extra : UInt8) (imm : Vector UInt8 4) :
    decode (#v[op, regA, regB, extra] ++ imm) =
      (Opcode.fromU8 op).map fun opcode => ⟨opcode, regA, regB, extra, fromLeBytes imm⟩ := by
  have rest : (#v[op, regA, regB, extra] ++ imm).extract 4 8 = imm := by
    ext i hi
    rw [Vector.getElem_extract, Vector.getElem_append_right (by omega) (by omega)]
    simp only [Nat.add_sub_cancel_left]
  have head (k : ℕ) (hk : k < 4) : (#v[op, regA, regB, extra] ++ imm)[k] = #v[op, regA, regB, extra][k] :=
    Vector.getElem_append_left hk
  unfold decode
  rw [rest, head 0 (by omega), head 1 (by omega), head 2 (by omega), head 3 (by omega),
    Option.map_eq_bind]
  rfl

/-- The words that decode are the encodings, each to what it encodes. -/
theorem decode_eq_some_iff (i : Instruction) (bytes : Vector UInt8 8) :
    decode bytes = some i ↔ encode i = bytes := by
  constructor
  · intro h
    rw [word_eq bytes, decode_append] at h
    obtain ⟨op, hop, rfl⟩ := Option.map_eq_some_iff.1 h
    rw [encode, Opcode.toU8_fromU8 hop, toLeBytes_fromLeBytes]
    exact (word_eq bytes).symm
  · rintro rfl
    rw [encode, decode_append, Opcode.fromU8_toU8, fromLeBytes_toLeBytes]
    rfl

end Instruction

end TORdex.Vm
