import TORdex.Core.Json
import TORdex.Core.Ulid
import TORdex.Lib.Recursion

/-!
# Procedural memory

Procedures call one another by name, as sub-procedures and as fallbacks, and running one is a recursion with
fuel.  The steps for agents and processors look up a name in the lists of the runtime.
-/

namespace TORdex.Procedural

/-- What a step does. -/
inductive StepKind where
  | agent (agentName : String)
  | processor (processorId : String)
  | decision (rules : List String)
  | search (index : String) (query : Json)
  | collect (urlTemplate : String)
  | transform (expression : String)
  | subProcedure (procedureName : String)
  | script (language source : String)

/-- What a failed step leads to. -/
inductive FailureAction where
  | abort
  | retry (max : UInt32)
  | skip
  | fallback (procedureName : String)

/-- A step of a procedure. -/
structure ProcedureStep where
  kind : StepKind
  name : String
  onFailure : FailureAction

/-- A procedure with its steps. -/
structure Procedure where
  id : Ulid
  name : String
  steps : List ProcedureStep

/-- What became of a step. -/
structure StepResult where
  stepName : String
  success : Bool
  output : Option Json
  error : Option String

/-- What became of a procedure. -/
structure ProcedureOutcome where
  procedureId : Ulid
  success : Bool
  stepResults : List StepResult
  output : Option Json
  error : Option String

/-- The arguments of `execute`. -/
structure ExecuteCall where
  name : String
  input : Json
  sessionId : String

/-- The procedures by their names, and what can be run. -/
structure DefaultProceduralMemory where
  procedures : HashMap String Procedure
  agents : List String
  processors : List String

/-- A step that goes well with an output. -/
def StepResult.ok (step : ProcedureStep) (fields : List (String × Json)) : StepResult :=
  ⟨step.name, true, some (.obj fields), none⟩

/-- A step that failed with an error. -/
def StepResult.fail (step : ProcedureStep) (error : String) : StepResult :=
  ⟨step.name, false, none, some error⟩

/-- The rounds of `FailureAction::Retry`, which do not execute anything. -/
def retry : ℕ → StepResult → StepResult
  | 0, result => result
  | rounds + 1, result =>
    retry rounds (if !result.success then { result with success := true, error := none } else result)

/-- What is left of `execute` behind its loop. -/
structure LoopEnd where
  success : Bool
  stepResults : List StepResult
  finalError : Option String

namespace DefaultProceduralMemory

/-- Results of the calls that return. -/
abbrev Calls := ExecuteCall → Option (Except String ProcedureOutcome)

/-- Without procedures. -/
def new (agents processors : List String) : DefaultProceduralMemory := ⟨∅, agents, processors⟩

/-- Store a procedure under its name. -/
def storeProcedure (m : DefaultProceduralMemory) (procedure : Procedure) : DefaultProceduralMemory :=
  { m with procedures := m.procedures.insert procedure.name procedure }

variable (m : DefaultProceduralMemory) (call : Calls)

/-- The `match` on the kind of a step. -/
def stepResult (c : ExecuteCall) (step : ProcedureStep) : Option StepResult :=
  match step.kind with
  | .agent agentName => some <|
    if m.agents.any (· == agentName) then .ok step [("agent", .str agentName), ("status", .str "available")]
    else .fail step ("agent '" ++ agentName ++ "' not found")
  | .processor processorId => some <|
    if m.processors.any (· == processorId) then
      .ok step [("processor", .str processorId), ("status", .str "available")]
    else .fail step ("processor '" ++ processorId ++ "' not found")
  | .decision rules => some <| .ok step [("decision", .str "evaluated"), ("rules", .arr (rules.map .str))]
  | .search index query =>
    some <| .ok step [("index", .str index), ("query", query), ("status", .str "dispatched")]
  | .collect urlTemplate => some <| .ok step [("status", .str "dispatched"), ("url", .str urlTemplate)]
  | .transform expression => some <| .ok step [("expression", .str expression), ("status", .str "evaluated")]
  | .subProcedure procedureName =>
    match call { c with name := procedureName } with
    | none => none
    | some (.ok outcome) => some ⟨step.name, outcome.success, outcome.output, outcome.error⟩
    | some (.error e) => some (.fail step e)
  | .script language source => some <| .ok step
    [("language", .str language), ("source_length", .int source.utf8ByteSize),
      ("status", .str "script_placeholder")]

/-- A round of the loop, with the results so far: it ends the loop, or leads to the next round with more
results. -/
def runStep (c : ExecuteCall) (results : List StepResult) (step : ProcedureStep) :
    Option (LoopEnd ⊕ List StepResult) :=
  match m.stepResult call c step with
  | none => none
  | some result =>
    if !result.success then
      match step.onFailure with
      | .abort => some (.inl ⟨false, results ++ [result], result.error⟩)
      | .retry max => some (.inr (results ++ [retry max.toNat result]))
      | .skip => some (.inr (results ++ [result]))
      | .fallback procedureName =>
        match call { c with name := procedureName } with
        | none => none
        | some (.ok fb) => some (.inr (results ++
          [⟨step.name ++ " (fallback:" ++ procedureName ++ ")", fb.success, fb.output, fb.error⟩]))
        | some (.error e) => some (.inl ⟨false, results ++ [result], some e⟩)
    else some (.inr (results ++ [result]))

/-- The loop over the steps. -/
def runSteps (c : ExecuteCall) : List ProcedureStep → List StepResult → Option LoopEnd
  | [], results => some ⟨true, results, none⟩
  | step :: steps, results =>
    match m.runStep call c results step with
    | none => none
    | some (.inl loop) => some loop
    | some (.inr results) => runSteps c steps results

/-- `execute`, with the recursive calls as a parameter. -/
def executeWith (c : ExecuteCall) : Option (Except String ProcedureOutcome) :=
  match m.procedures.lookup c.name with
  | none => some (.error ("procedure '" ++ c.name ++ "' not found"))
  | some procedure =>
    (m.runSteps call c procedure.steps []).map fun loop => .ok {
      procedureId := procedure.id
      success := loop.success
      stepResults := loop.stepResults
      output := loop.stepResults.getLast?.bind StepResult.output
      error := loop.finalError }

/-- `execute`, with so many calls inside one another. -/
def execute (fuel : ℕ) (c : ExecuteCall) : Option (Except String ProcedureOutcome) :=
  Recursion.run m.executeWith fuel c

/-- `execute` returns this result. -/
def Returns (c : ExecuteCall) (result : Except String ProcedureOutcome) : Prop :=
  Recursion.Returns m.executeWith c result

end DefaultProceduralMemory

end TORdex.Procedural
