import TORdex.Core.Json
import TORdex.Core.Ulid

/-! Registers and the inference stack. -/

namespace TORdex.Vm

/-- The value that a register can hold.  Knowledge and relationships are held by their JSON form, which
is all that the machine reads of them. -/
inductive RegisterValue where
  | int (v : ℤ)
  | float (v : F64)
  | boolean (b : Bool)
  | string (s : String)
  | knowledge (json : Json)
  | relationship (json : Json)
  | entity (kind id : String)
  | facts (items : List RegisterValue)
  | nil

/-- The JSON of an `f64`. -/
def floatJson (v : F64) : Json :=
  match v.toJson with
  | some d => .float d
  | none => .null

namespace RegisterValue

/-- What a conditional jump takes for true. -/
def isTruthy : RegisterValue → Bool
  | int v => v ≠ 0
  | float (.finite d) => d.mantissa ≠ 0
  | float _ => true
  | boolean b => b
  | string s => s ≠ ""
  | knowledge _ | relationship _ | entity _ _ => true
  | facts items => !items.isEmpty
  | nil => false

/-- A number, cut off to an integer. -/
def asInt : RegisterValue → Option ℤ
  | int v => some v
  | float v => some (v.saturate (-2 ^ 63) (2 ^ 63 - 1))
  | _ => none

/-- A string. -/
def asStr : RegisterValue → Option String
  | string s => some s
  | _ => none

mutual

/-- The derived serialization, a tagged value; object keys are sorted. -/
def serialize : RegisterValue → Json
  | int v => .obj [("Int", .int v)]
  | float v => .obj [("Float", floatJson v)]
  | boolean b => .obj [("Boolean", .bool b)]
  | string s => .obj [("String", .str s)]
  | knowledge json => .obj [("Knowledge", json)]
  | relationship json => .obj [("Relationship", json)]
  | entity kind id => .obj [("Entity", .obj [("id", .str id), ("kind", .str kind)])]
  | facts items => .obj [("Facts", .arr (serializeAll items))]
  | nil => .str "Nil"

/-- The values of a list as JSON. -/
def serializeAll : List RegisterValue → List Json
  | [] => []
  | v :: vs => v.serialize :: serializeAll vs

end

/-- `to_json`. -/
def toJson : RegisterValue → Json
  | int v => .int v
  | float v => floatJson v
  | boolean b => .bool b
  | string s => .str s
  | knowledge json => json
  | relationship json => json
  | entity kind id => .obj [("id", .str id), ("kind", .str kind)]
  | facts items => .arr (serializeAll items)
  | nil => .null

end RegisterValue

/-- The 32 registers. -/
abbrev RegisterFile := Vector RegisterValue 32

/-- The error of an access outside the register file. -/
def invalidRegister (idx : UInt8) : String := "invalid register index: " ++ toString idx.toNat

namespace RegisterFile

/-- 32 registers without a value. -/
def new : RegisterFile := Vector.replicate 32 .nil

/-- The value of a register. -/
def read (regs : RegisterFile) (idx : UInt8) : Except String RegisterValue :=
  match regs[idx.toNat]? with
  | some v => .ok v
  | none => .error (invalidRegister idx)

/-- Set a register. -/
def write (regs : RegisterFile) (idx : UInt8) (value : RegisterValue) :
    Except String RegisterFile :=
  if h : idx.toNat < 32 then .ok (regs.set idx.toNat value h) else .error (invalidRegister idx)

end RegisterFile

/-- The inference stack; its top is the head of the list. -/
structure InferenceStack where
  inner : List RegisterValue
  maxDepth : ℕ

namespace InferenceStack

/-- `InferenceStack::default`. -/
def default : InferenceStack := ⟨[], 1024⟩

/-- The error of an empty stack. -/
def underflow : String := "stack underflow"

/-- Push a value, up to the greatest depth. -/
def push (s : InferenceStack) (value : RegisterValue) : Except String InferenceStack :=
  if s.maxDepth ≤ s.inner.length then .error ("stack overflow: max depth " ++ toString s.maxDepth)
  else .ok { s with inner := value :: s.inner }

/-- Take the top off. -/
def pop (s : InferenceStack) : Except String (RegisterValue × InferenceStack) :=
  match s.inner with
  | [] => .error underflow
  | value :: rest => .ok (value, { s with inner := rest })

/-- Push the top again. -/
def dup (s : InferenceStack) : Except String InferenceStack :=
  match s.inner with
  | [] => .error underflow
  | top :: _ => s.push top

/-- Exchange the two topmost values. -/
def swap (s : InferenceStack) : Except String InferenceStack :=
  match s.inner with
  | a :: b :: rest => .ok { s with inner := b :: a :: rest }
  | _ => .error underflow

end InferenceStack

end TORdex.Vm

/-!
## What the machine talks to

The memories, the system calls, the clock and the ULID generator are functions on the state of the
outside world; the accelerator is a set of pure functions.  Serializations that contain timestamps are
left to the outside as well.
-/

namespace TORdex.Vm

/-- A semantic fact with confidence and provenance. -/
structure SemanticFact where
  id : Ulid
  subject : String
  predicate : String
  object : Json
  confidence : F64
  sourceIds : List String
  createdAt : OffsetDateTime
  ttl : Option ℤ

/-- The text that is embedded for a fact. -/
def SemanticFact.text (f : SemanticFact) : String :=
  f.subject ++ " " ++ f.predicate ++ " " ++ f.object.render

/-- A query for semantic memory. -/
structure SemanticQuery where
  subjects : Option (List String)
  predicates : Option (List String)
  minConfidence : F64
  limit : ℕ
  deriving DecidableEq

/-- `SemanticQuery::default`. -/
def SemanticQuery.default : SemanticQuery := ⟨none, none, .finite ⟨false, 0, 0⟩, 100⟩

/-- An entry of long-term memory. -/
structure LTEntry where
  id : Ulid
  kind : String
  content : Json
  sourceIds : List String
  confidence : F64
  createdAt : OffsetDateTime
  lastAccessedAt : OffsetDateTime
  accessCount : ℕ
  ttl : Option ℤ

/-- A query for long-term memory. -/
structure LTQuery where
  kinds : Option (List String)
  ids : Option (List String)
  minConfidence : F64
  createdAfter : Option OffsetDateTime
  createdBefore : Option OffsetDateTime
  limit : ℕ
  offset : ℕ

/-- `LTQuery::default`. -/
def LTQuery.default : LTQuery := ⟨none, none, .finite ⟨false, 0, 0⟩, none, none, 100, 0⟩

/-- The system calls. -/
inductive SyscallNumber where
  | log
  | emitEvent
  | spawnAgent
  | searchIndex
  | dispatchTask
  | getTime
  | sleep
  | readConfig
  | writeOutput
  | invokeProcessor
  | collectEvidence
  deriving DecidableEq, Repr

/-- `SyscallNumber::from_i32`. -/
def SyscallNumber.ofInt (n : ℤ) : Option SyscallNumber :=
  if 0 ≤ n then
    [log, emitEvent, spawnAgent, searchIndex, dispatchTask, getTime, sleep, readConfig, writeOutput,
      invokeProcessor, collectEvidence][n.toNat]?
  else none

/-- A system call with its arguments. -/
structure SyscallArgs where
  number : SyscallNumber
  arg0 : ℤ
  arg1 : ℤ
  arg2 : ℤ
  data : Option Json

/-- What a system call answers. -/
structure SyscallResult where
  success : Bool
  value : ℤ
  data : Option Json
  error : Option String

/-- The accelerator.  A search answers with positions of the vectors it was given. -/
structure Gpu where
  Embedding : Type
  Score : Type
  /-- The score of a decimal literal. -/
  literal : Decimal → Score
  /-- `threshold as f32 / 10.0`. -/
  tenths : ℕ → Score
  gt : Score → Score → Bool
  ge : Score → Score → Bool
  scoreJson : Score → Json
  embed : String → Embedding
  similarity : Embedding → Embedding → Score
  rank : List (String × Score) → ℕ → List (String × Score)
  vectorSearch : Embedding → List Embedding → ℕ → List (ℕ × Score)
  vectorSearch_lt : ∀ query vectors k, ∀ x ∈ vectorSearch query vectors k, x.1 < vectors.length

/-- The outside world, with states in `W`. -/
structure Services (W : Type) where
  querySemantic : W → SemanticQuery → Except String (List SemanticFact)
  retrieveLtm : W → LTQuery → Except String (List LTEntry)
  storeSemanticFact : W → SemanticFact → Except String Ulid × W
  storeLtm : W → LTEntry → Except String Ulid × W
  syscall : W → SyscallArgs → SyscallResult × W
  now : W → OffsetDateTime × W
  freshUlid : W → Ulid × W
  gpu : Gpu
  /-- `serde_json::to_string` of a fact and of an entry. -/
  factJson : SemanticFact → String
  entryJson : LTEntry → String
  /-- `OffsetDateTime::to_string`. -/
  showTime : OffsetDateTime → String

/-! ### A world for concrete runs -/

/-- Texts are their own embeddings, and their lengths are the scores. -/
def plainGpu : Gpu where
  Embedding := String
  Score := ℕ
  literal _ := 5
  tenths _ := 0
  gt a b := b < a
  ge _ _ := true
  scoreJson n := .int n
  embed text := text
  similarity a _ := a.length
  rank scored _ := scored
  vectorSearch _ vectors _ := (List.range vectors.length).map fun i => (i, 1)
  vectorSearch_lt _ vectors _ x hx := by
    obtain ⟨i, hi, rfl⟩ := List.mem_map.1 hx
    exact List.mem_range.1 hi

/-- A world that answers a query with facts about the texts that are picked from it. -/
def echo (pick : SemanticQuery → List String) : Services Unit where
  querySemantic _ query := .ok ((pick query).map fun subject =>
    ⟨.ofNat 0, subject, "", .null, .nan, [], 0, none⟩)
  retrieveLtm _ _ := .ok []
  storeSemanticFact _ fact := (.ok fact.id, ())
  storeLtm _ entry := (.ok entry.id, ())
  syscall _ _ := (⟨true, 0, none, none⟩, ())
  now _ := (0, ())
  freshUlid _ := (.ofNat 0, ())
  gpu := plainGpu
  factJson fact := fact.subject
  entryJson _ := ""
  showTime _ := ""

end TORdex.Vm
