import TORdex.Core.Json

/-!
# The knowledge IR

Every operation produces at most one value, named by an id.  `mapInputs` and `withOutput` are the two
renamings that the optimiser passes make.
-/

namespace TORdex

/-- The id of a value. -/
abbrev KirValueId := ℕ

/-- A structured filter condition. -/
structure FilterCond where
  field : String
  op : String
  value : String
  deriving DecidableEq, Repr

/-- A node of the dataflow graph.  A depth is an `i32`. -/
inductive KirOp where
  | collect (output sourceId : KirValueId)
  | sourceEntity (output kindId : KirValueId)
  | sourceSearch (output queryId : KirValueId)
  | observe (output input : KirValueId)
  | classify (output input : KirValueId)
  | loadGraph (output input : KirValueId)
  | filter (output input : KirValueId) (cond : FilterCond)
  | resolve (output input strategyId : KirValueId)
  | traverse (output input relationId : KirValueId) (depth : Option ℤ)
  | correlate (output input targetId : KirValueId)
  | similar (output targetId : KirValueId) (threshold : F64)
  | infer (output input ruleId : KirValueId)
  | timeline (output queryId : KirValueId)
  | ret (valueId : KirValueId)
  | store (valueId nameId : KirValueId)
  | exportTo (valueId formatId : KirValueId)
  | snapshot (output valueId : KirValueId) (kind : UInt8)
  | constStr (output : KirValueId) (value : String)
  | constInt (output : KirValueId) (value : ℤ)
  | constFloat (output : KirValueId) (value : F64)
  | sortHint (input : KirValueId) (field : String) (ascending : Bool)
  | limitHint (input : KirValueId) (limit : ℕ)
  deriving DecidableEq, Repr

namespace KirOp

/-- The value that the operation produces, if any. -/
def outputId : KirOp → Option KirValueId
  | collect o _ | sourceEntity o _ | sourceSearch o _ | observe o _ | classify o _ | loadGraph o _
  | filter o _ _ | resolve o _ _ | traverse o _ _ _ | correlate o _ _ | similar o _ _ | infer o _ _
  | timeline o _ | snapshot o _ _ | constStr o _ | constInt o _ | constFloat o _ => some o
  | ret _ | store _ _ | exportTo _ _ | sortHint _ _ _ | limitHint _ _ => none

/-- The values that the operation consumes. -/
def inputIds : KirOp → List KirValueId
  | collect _ s => [s]
  | sourceEntity _ k => [k]
  | sourceSearch _ q => [q]
  | observe _ i | classify _ i | loadGraph _ i | filter _ i _ => [i]
  | resolve _ i s => [i, s]
  | traverse _ i r _ => [i, r]
  | infer _ i r => [i, r]
  | correlate _ i t => [i, t]
  | similar _ t _ => [t]
  | timeline _ q => [q]
  | ret v => [v]
  | store v n => [v, n]
  | exportTo v f => [v, f]
  | snapshot _ v _ => [v]
  | sortHint i _ _ | limitHint i _ => [i]
  | constStr _ _ | constInt _ _ | constFloat _ _ => []

/-- The operation with its inputs renamed. -/
def mapInputs (r : KirValueId → KirValueId) : KirOp → KirOp
  | collect o s => collect o (r s)
  | sourceEntity o k => sourceEntity o (r k)
  | sourceSearch o q => sourceSearch o (r q)
  | observe o i => observe o (r i)
  | classify o i => classify o (r i)
  | loadGraph o i => loadGraph o (r i)
  | filter o i c => filter o (r i) c
  | resolve o i s => resolve o (r i) (r s)
  | traverse o i rel d => traverse o (r i) (r rel) d
  | correlate o i t => correlate o (r i) (r t)
  | similar o t th => similar o (r t) th
  | infer o i rule => infer o (r i) (r rule)
  | timeline o q => timeline o (r q)
  | ret v => ret (r v)
  | store v n => store (r v) (r n)
  | exportTo v f => exportTo (r v) (r f)
  | snapshot o v k => snapshot o (r v) k
  | sortHint i f a => sortHint (r i) f a
  | limitHint i l => limitHint (r i) l
  | constStr o v => constStr o v
  | constInt o v => constInt o v
  | constFloat o v => constFloat o v

/-- The operation with another output, if it has one. -/
def withOutput (n : KirValueId) : KirOp → KirOp
  | collect _ s => collect n s
  | sourceEntity _ k => sourceEntity n k
  | sourceSearch _ q => sourceSearch n q
  | observe _ i => observe n i
  | classify _ i => classify n i
  | loadGraph _ i => loadGraph n i
  | filter _ i c => filter n i c
  | resolve _ i s => resolve n i s
  | traverse _ i rel d => traverse n i rel d
  | correlate _ i t => correlate n i t
  | similar _ t th => similar n t th
  | infer _ i rule => infer n i rule
  | timeline _ q => timeline n q
  | snapshot _ v k => snapshot n v k
  | constStr _ v => constStr n v
  | constInt _ v => constInt n v
  | constFloat _ v => constFloat n v
  | op => op

/-- The value that the operation leaves in the accumulator, when it changes it. -/
def accValue : KirOp → Option KirValueId
  | exportTo v _ => some v
  | ret v => some v
  | constStr .. | constInt .. | constFloat .. => none
  | op => op.outputId

/-- `Collect`, `SourceEntity` or `SourceSearch`. -/
def isSource : KirOp → Bool
  | collect .. | sourceEntity .. | sourceSearch .. => true
  | _ => false

/-- The operation is a filter. -/
def isFilter : KirOp → Bool
  | filter .. => true
  | _ => false

section Renaming

variable (op : KirOp) (r : KirValueId → KirValueId) (n : KirValueId)

@[simp] theorem outputId_mapInputs : (op.mapInputs r).outputId = op.outputId := by cases op <;> rfl

@[simp] theorem inputIds_mapInputs : (op.mapInputs r).inputIds = op.inputIds.map r := by
  cases op <;> rfl

@[simp] theorem outputId_withOutput : (op.withOutput n).outputId = op.outputId.map fun _ => n := by
  cases op <;> rfl

@[simp] theorem inputIds_withOutput : (op.withOutput n).inputIds = op.inputIds := by
  cases op <;> rfl

@[simp] theorem isSource_mapInputs : (op.mapInputs r).isSource = op.isSource := by cases op <;> rfl

@[simp] theorem isSource_withOutput : (op.withOutput n).isSource = op.isSource := by
  cases op <;> rfl

theorem mapInputs_withOutput : (op.withOutput n).mapInputs r = (op.mapInputs r).withOutput n := by
  cases op <;> rfl

/-- Only the renaming of the inputs matters. -/
theorem mapInputs_congr {r r' : KirValueId → KirValueId} (h : ∀ x ∈ op.inputIds, r x = r' x) :
    op.mapInputs r = op.mapInputs r' := by
  cases op <;> simp_all [mapInputs, inputIds]

theorem withOutput_self {n : KirValueId} (h : op.outputId = none ∨ op.outputId = some n) :
    op.withOutput n = op := by
  cases op <;> simp_all [withOutput, outputId]

end Renaming

end KirOp

/-- A sequence of operations forming a dataflow graph. -/
structure KirProgram where
  ops : List KirOp
  output : Option KirValueId
  nextId : KirValueId
  deriving DecidableEq, Repr

namespace KirProgram

/-- A program without operations. -/
def new : KirProgram := ⟨[], none, 0⟩

/-- Allocate a new unique value id. -/
def allocId (p : KirProgram) : KirValueId × KirProgram :=
  (p.nextId, { p with nextId := p.nextId + 1 })

/-- Add an operation. -/
def push (p : KirProgram) (op : KirOp) : KirProgram := { p with ops := p.ops ++ [op] }

/-- The values that some operation consumes, or that are the output. -/
def usedValues (p : KirProgram) : List KirValueId :=
  p.ops.flatMap KirOp.inputIds ++ p.output.toList

end KirProgram

end TORdex
