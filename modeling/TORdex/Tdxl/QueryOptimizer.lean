import TORdex.Tdxl.Kir

/-!
# The query optimiser

Each pass extracts the pipeline, the chain of single consumers from the first source on, rewrites it,
and rebuilds the program: first the operations outside the pipeline, then the pipeline, all with fresh
ids.  The floating point of the traversal estimates is a parameter.
-/

namespace TORdex.QueryOptimizer

/-! ## Statistics -/

/-- The part of `GraphStatistics` that the passes look at. -/
structure GraphStatistics where
  predicateSelectivity : HashMap String Decimal
  defaultSelectivity : Decimal

/-- `GraphStatistics::default`. -/
def GraphStatistics.default : GraphStatistics := ⟨∅, ⟨false, 15, -2⟩⟩

/-- The selectivity of a predicate, or the default one. -/
def GraphStatistics.selectivity (stats : GraphStatistics) (field op : String) : Decimal :=
  (stats.predicateSelectivity.lookup (field ++ "_" ++ op)).getD stats.defaultSelectivity

/-- The selectivity of a filter. -/
def GraphStatistics.filterSelectivity (stats : GraphStatistics) (filter : FilterCond) : Decimal :=
  stats.selectivity filter.field filter.op

/-- `a <= b` for finite floats. -/
def decimalLe (a b : Decimal) : Bool :=
  let low := min a.exponent b.exponent
  let scaled (d : Decimal) : ℤ :=
    (if d.negative then -1 else 1) * d.mantissa * 10 ^ (d.exponent - low).toNat
  scaled a ≤ scaled b

/-- The estimates of the traversal pruning: `5.0.powf(depth) > limit * 2.0` and
`limit.log(5.0).ceil() as i32`. -/
structure Estimates where
  exceeds : ℤ → ℕ → Bool
  optimalDepth : ℕ → ℤ

/-! ## Pipeline extraction -/

/-- The entry of the consumers map for a value: the indices of the operations that consume it, once
for each operand. -/
def consumers (ops : List KirOp) (v : KirValueId) : List ℕ :=
  ops.zipIdx.flatMap fun (op, i) => (op.inputIds.filter (· = v)).map fun _ => i

/-- Walk forward: stop at a visited operation, at one without output, and at one whose output has not
exactly one consumer.  Every round visits another operation, so their number bounds the rounds. -/
def walk (ops : List KirOp) : ℕ → ℕ → List ℕ → List ℕ
  | 0, _, pipeline => pipeline
  | rounds + 1, current, pipeline =>
    if current ∈ pipeline then pipeline
    else
      let pipeline := pipeline ++ [current]
      match ops[current]?.bind KirOp.outputId with
      | some out =>
        match (consumers ops out).filter (· ∉ pipeline) with
        | [next] => walk ops rounds next pipeline
        | _ => pipeline
      | none => pipeline

/-- The indices of the main pipeline, from the first source on. -/
def pipelineOps (program : KirProgram) : List ℕ :=
  match program.ops.findIdx? KirOp.isSource with
  | some start => walk program.ops program.ops.length start []
  | none => []

/-- `pipe.iter().map(|&i| program.ops[i].clone())`. -/
def opsAt (program : KirProgram) (pipe : List ℕ) : List KirOp :=
  pipe.filterMap fun i => program.ops[i]?

/-! ## Rebuild -/

/-- Replace the output of an operation. -/
def remapOpOutput (op : KirOp) (newId : KirValueId) : KirOp := op.withOutput newId

/-- `map.get(id).copied().unwrap_or(*id)`. -/
def mapped (map : HashMap KirValueId KirValueId) (id : KirValueId) : KirValueId :=
  (map.lookup id).getD id

/-- Remap the inputs of an operation. -/
def remapOpInputs (op : KirOp) (map : HashMap KirValueId KirValueId) : KirOp :=
  op.mapInputs (mapped map)

/-- The new program and the map from old ids to new ones. -/
abbrev Rebuilt := KirProgram × HashMap KirValueId KirValueId

/-- Emit an operation from outside the pipeline: it takes a fresh id even without an output. -/
def emitKept (st : Rebuilt) (op : KirOp) : Rebuilt :=
  let (newId, prog) := st.1.allocId
  let idMap :=
    match op.outputId with
    | some old => st.2.insert old newId
    | none => st.2
  (prog.push (remapOpInputs (remapOpOutput op newId) idMap), idMap)

/-- Emit an operation of the pipeline. -/
def emitPipe (st : Rebuilt) (op : KirOp) : Rebuilt :=
  match op.outputId with
  | some old =>
    let (newId, prog) := st.1.allocId
    let idMap := st.2.insert old newId
    (prog.push (remapOpInputs (remapOpOutput op newId) idMap), idMap)
  | none => (st.1.push (remapOpInputs op st.2), st.2)

/-- The operations outside the pipeline. -/
def keptOps (program : KirProgram) : List KirOp :=
  let pipe := pipelineOps program
  (program.ops.zipIdx.filter fun x => x.2 ∉ pipe).map (·.1)

/-- Rebuild a program with other pipeline operations. -/
def rebuildFromPipeline (program : KirProgram) (newPipe : List KirOp) : KirProgram :=
  let kept := (keptOps program).foldl emitKept (.new, ∅)
  let (prog, idMap) := newPipe.foldl emitPipe kept
  { prog with output := program.output.map (mapped idMap) }

/-! ## Predicate pushdown -/

/-- The compound condition of two filters. -/
def compound (f g : FilterCond) : FilterCond where
  field := f.field ++ "_and_" ++ g.field
  op := "compound"
  value := f.field ++ " " ++ f.op ++ " " ++ f.value ++ " AND " ++ g.field ++ " " ++ g.op ++ " " ++
    g.value

/-- Merge consecutive filters, two at a time. -/
def mergeFilters : List KirOp → List KirOp
  | .filter _ input f :: .filter output _ g :: ops =>
    .filter output input (compound f g) :: mergeFilters ops
  | op :: ops => op :: mergeFilters ops
  | [] => []

/-- Merge consecutive filters of the pipeline. -/
def predicatePushdown (program : KirProgram) : KirProgram :=
  let pipe := pipelineOps program
  if pipe.isEmpty then program
  else rebuildFromPipeline program (mergeFilters (opsAt program pipe))

/-! ## Traversal pruning -/

/-- The first limit hint. -/
def limitIn (ops : List KirOp) : Option ℕ :=
  ops.findSome? fun
    | .limitHint _ limit => some limit
    | _ => none

/-- The depth that a traversal is cut down to by a limit after it. -/
def prunedDepth (est : Estimates) (depth : Option ℤ) (limit : ℕ) : Option ℤ :=
  let current := depth.getD 1
  if est.exceeds current limit then
    let new := min (max (est.optimalDepth limit) 1) current
    if new < current then some new else none
  else none

/-- Cap the depths; the flag tells whether one was changed. -/
def pruneTraversals (est : Estimates) : List KirOp → List KirOp × Bool
  | .traverse output input relationId depth :: ops =>
    let (rest, modified) := pruneTraversals est ops
    match (limitIn ops).bind (prunedDepth est depth) with
    | some new => (.traverse output input relationId (some new) :: rest, true)
    | none => (.traverse output input relationId depth :: rest, modified)
  | op :: ops =>
    let (rest, modified) := pruneTraversals est ops
    (op :: rest, modified)
  | [] => ([], false)

/-- Cap the depths of the traversals in the pipeline. -/
def traversalPruning (est : Estimates) (program : KirProgram) : KirProgram :=
  let pipe := pipelineOps program
  if pipe.isEmpty then program
  else
    let (ops, modified) := pruneTraversals est (opsAt program pipe)
    if modified then rebuildFromPipeline program ops else program

/-! ## Join reordering -/

/-- The selectivity by which a filter is sorted. -/
def selectivityOf : KirOp → Decimal
  | .filter _ _ cond => GraphStatistics.default.filterSelectivity cond
  | _ => ⟨false, 1, 0⟩

/-- Each filter reads the output of the one before it. -/
def rewire (prev : KirValueId) : List KirOp → List KirOp
  | .filter output _ cond :: ops => .filter output prev cond :: rewire output ops
  | op :: ops => op :: rewire prev ops
  | [] => []

/-- Sort a run of filters by selectivity, and rewire it from the input of its first one. -/
def sortRun (run : List KirOp) : List KirOp :=
  match run with
  | .filter _ input _ :: _ :: _ =>
    rewire input (run.mergeSort fun a b => decimalLe (selectivityOf a) (selectivityOf b))
  | _ => run

/-- Sort each run of consecutive filters. -/
def reorderFilters (pipe : List KirOp) : List KirOp :=
  (pipe.splitBy fun a b => a.isFilter == b.isFilter).flatMap sortRun

/-- Sort consecutive filters of the pipeline by selectivity. -/
def joinReordering (program : KirProgram) : KirProgram :=
  let pipe := pipelineOps program
  if pipe.length < 2 then program
  else rebuildFromPipeline program (reorderFilters (opsAt program pipe))

/-! ## Operator fusion -/

/-- Fuse `Collect` with `LoadGraph`, and drop a `Classify` after an `Observe`. -/
def fuseOps : List KirOp → List KirOp
  | .collect _ sourceId :: .loadGraph output _ :: ops => .collect output sourceId :: fuseOps ops
  | .observe output input :: .classify _ _ :: ops => .observe output input :: fuseOps ops
  | op :: ops => op :: fuseOps ops
  | [] => []

/-- Fuse pairs of adjacent operations of the pipeline. -/
def operatorFusion (program : KirProgram) : KirProgram :=
  let pipe := pipelineOps program
  if pipe.isEmpty then program
  else rebuildFromPipeline program (fuseOps (opsAt program pipe))

/-- Run all query optimization passes. -/
def optimizeQuery (est : Estimates) (program : KirProgram) : KirProgram :=
  operatorFusion (joinReordering (traversalPruning est (predicatePushdown program)))

end TORdex.QueryOptimizer
