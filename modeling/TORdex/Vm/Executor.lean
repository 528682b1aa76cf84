import TORdex.Vm.Instruction
import TORdex.Vm.Services

/-!
# The executor

Most instructions compute a value from the registers and the memories and write it to their first
register: each of them has a function for its value, and `finish` writes it.
-/

namespace TORdex.Vm

open RegisterFile

/-- Result of a single execution step. -/
inductive StepResult where
  | continued
  | halted
  | called (addr : ℕ)
  | returned (addr : ℕ)
  | failed (message : String)
  deriving DecidableEq, Repr

/-- Execution context of the executor; the last return address is the head of its list. -/
structure ExecutionContext (W : Type) where
  regs : RegisterFile
  stack : InferenceStack
  pc : ℕ
  returnStack : List ℕ
  program : Program
  world : W
  running : Bool
  cycles : ℕ
  maxCycles : ℕ

/-- At the entry point of a program. -/
def ExecutionContext.new {W : Type} (program : Program) (world : W) : ExecutionContext W where
  regs := .new
  stack := .default
  pc := program.entryPoint
  returnStack := []
  program := program
  world := world
  running := false
  cycles := 0
  maxCycles := 1000000

/-- `SemanticQueryBuilder::from_json`: the text is a rendered value, so reading it gives the value
back. -/
def semanticQueryOfJson (v : Json) : SemanticQuery where
  subjects := (v.get "subjects").bind strings
  predicates := (v.get "predicates").bind strings
  minConfidence :=
    match v.get "min_confidence" with
    | some (.int n) => .finite ⟨n < 0, n.natAbs, 0⟩
    | some (.float d) => .finite d
    | _ => .finite ⟨false, 0, 0⟩
  limit :=
    match v.get "limit" with
    | some (.int n) => if 0 ≤ n ∧ n < 2 ^ 64 then n.toNat else 100
    | _ => 100
where
  strings : Json → Option (List String)
    | .arr items => items.mapM Json.asStr
    | _ => none

namespace Executor

section Values

variable {W : Type} (svc : Services W) (w : W) (regs : RegisterFile) (instr : Instruction)

/-- The facts as register values. -/
def factValues (facts : List SemanticFact) : List RegisterValue :=
  facts.map fun f => .string (svc.factJson f)

/-- Query the semantic memory, and hold the answer. -/
def queryFacts (query : SemanticQuery) : Except String RegisterValue := do
  let facts ← svc.querySemantic w query
  pure (.facts (factValues svc facts))

/-- The string constant at an index; the empty string where there is none. -/
def loadStrValue (program : Program) : RegisterValue :=
  let idx := UInt16.ofNat (instr.imm.toInt % 2 ^ 16).toNat
  .string (((program.getConstant idx).bind Json.asStr).getD "")

/-- The value of a register. -/
def movValue : Except String RegisterValue := regs.read instr.regB

/-- An entity of a kind, with the immediate as its id. -/
def loadEntityValue : Except String RegisterValue := do
  let kind ← regs.read instr.regB
  pure (.entity kind.toJson.render (toString instr.imm.toInt))

/-- The facts about an entity. -/
def loadGraphValue : Except String RegisterValue := do
  let entity ← regs.read instr.regB
  queryFacts svc w { SemanticQuery.default with subjects := some [entity.toJson.render] }

/-- The facts at the positions that a vector search returned. -/
def rankedFacts (facts : List SemanticFact) (ranked : List (ℕ × svc.gpu.Score)) :
    List RegisterValue :=
  factValues svc (ranked.filterMap fun x => facts[x.1]?)

/-- Rank facts by their similarity to a text. -/
def searchFacts (text : String) (facts : List SemanticFact) : List (ℕ × svc.gpu.Score) :=
  svc.gpu.vectorSearch (svc.gpu.embed text) (facts.map fun f => svc.gpu.embed f.text) facts.length

/-- The facts about an entity, ranked. -/
def traverseValue : Except String RegisterValue := do
  let start ← regs.read instr.regB
  let entity := start.toJson.render
  let facts ← svc.querySemantic w { SemanticQuery.default with subjects := some [entity] }
  pure (.facts (rankedFacts svc facts (searchFacts svc entity facts)))

/-- Two values are equal when their JSON texts are. -/
def compareValue : Except String RegisterValue := do
  let a ← regs.read instr.regA
  let b ← regs.read instr.regB
  pure (.boolean (a.toJson.render == b.toJson.render))

/-- The facts that a query in a register asks for. -/
def queryValue : Except String RegisterValue := do
  let query ← regs.read instr.regB
  queryFacts svc w (semanticQueryOfJson query.toJson)

/-- The facts with a subject and a predicate. -/
def inferValue : Except String RegisterValue := do
  let subj ← regs.read instr.regB
  let pred ← regs.read instr.extra
  queryFacts svc w { SemanticQuery.default with
    subjects := some [subj.toJson.render]
    predicates := some [pred.toJson.render] }

/-- The facts about a text whose similarity to it reaches the threshold, in tenths. -/
def similarValue : Except String RegisterValue := do
  let value ← regs.read instr.regB
  let thresholdReg ← regs.read instr.extra
  let threshold := ((thresholdReg.asInt.getD 8) % 2 ^ 32).toNat
  let facts ← svc.querySemantic w { SemanticQuery.default with
    subjects := value.toJson.asStr.map fun s => [s]
    limit := 20 }
  let ranked := searchFacts svc value.toJson.render facts
  pure (.facts (rankedFacts svc facts
    (ranked.filter fun x => svc.gpu.ge x.2 (svc.gpu.tenths threshold))))

/-- The class prototypes. -/
def classes : List (String × String) :=
  [("url", "http://example.com/page"),
    ("document", "long form text document with multiple paragraphs of content"),
    ("email", "user@example.com subject line body"),
    ("numeric_id", "1234567890"),
    ("text", "general text content")]

/-- The class that is most similar to a text. -/
def classifyValue : Except String RegisterValue := do
  let content ← regs.read instr.regB
  let vec := svc.gpu.embed (content.toJson.asStr.getD "")
  let best := classes.foldl (fun best cls =>
    let sim := svc.gpu.similarity vec (svc.gpu.embed cls.2)
    if svc.gpu.gt sim best.2 then (cls.1, sim) else best)
    ("unknown", svc.gpu.literal ⟨true, 1, 0⟩)
  pure (.string best.1)

/-- The facts with their similarity to a text, the most similar first. -/
def scoredFacts (text : String) (facts : List SemanticFact) :
    List (SemanticFact × svc.gpu.Score) :=
  (facts.map fun f => (f, svc.gpu.similarity (svc.gpu.embed text) (svc.gpu.embed f.text))).mergeSort
    fun a b => !svc.gpu.gt b.2 a.2

/-- The facts about a subject that are similar enough to a text. -/
def reasonValue : Except String RegisterValue := do
  let fact ← regs.read instr.regB
  let facts ← svc.querySemantic w { SemanticQuery.default with
    subjects := fact.toJson.asStr.map fun s => [s]
    limit := 50 }
  let derived := (scoredFacts svc fact.toJson.render facts).filter fun x =>
    svc.gpu.ge x.2 (svc.gpu.literal ⟨false, 35, -2⟩)
  pure (.facts (factValues svc (derived.map (·.1))))

/-- How strongly two texts are correlated, as a JSON text. -/
def correlateValue : Except String RegisterValue := do
  let a ← regs.read instr.regA
  let b ← regs.read instr.regB
  let score := svc.gpu.similarity (svc.gpu.embed (a.toJson.asStr.getD ""))
    (svc.gpu.embed (b.toJson.asStr.getD ""))
  let label :=
    if svc.gpu.gt score (svc.gpu.literal ⟨false, 85, -2⟩) then "strong"
    else if svc.gpu.gt score (svc.gpu.literal ⟨false, 6, -1⟩) then "moderate"
    else if svc.gpu.gt score (svc.gpu.literal ⟨false, 3, -1⟩) then "weak"
    else "none"
  pure (.string (Json.render (.obj [("correlation", .str label), ("entity_a", a.toJson),
    ("entity_b", b.toJson), ("score", svc.gpu.scoreJson score)])))

/-- An episode of a timeline. -/
def episode (x : SemanticFact × svc.gpu.Score) : Json :=
  .obj [("fact", .obj [("object", x.1.object), ("predicate", .str x.1.predicate),
      ("subject", .str x.1.subject)]),
    ("relevance", svc.gpu.scoreJson x.2), ("timestamp", .str (svc.showTime x.1.createdAt))]

/-- The episodes that are similar to a query, as a JSON text. -/
def timelineValue : Except String RegisterValue := do
  let query ← regs.read instr.regB
  let facts ← svc.querySemantic w { SemanticQuery.default with limit := 200 }
  let scored := (scoredFacts svc (query.toJson.asStr.getD "") facts).take 50
  let episodes := (scored.filter fun x => svc.gpu.gt x.2 (svc.gpu.literal ⟨false, 3, -1⟩)).map
    (episode svc)
  pure (.string (Json.render (.obj [("episodes", .arr episodes), ("query", query.toJson),
    ("status", .str "built"), ("total", .int episodes.length)])))

/-- The facts with a subject and a predicate that two registers name. -/
def searchValue : Except String RegisterValue := do
  let queryVal ← regs.read instr.regA
  let kindVal ← regs.read instr.regB
  queryFacts svc w { SemanticQuery.default with
    subjects := queryVal.toJson.asStr.map fun s => [s]
    predicates := kindVal.toJson.asStr.map fun s => [s]
    limit := 50 }

/-- The texts of the facts in a register, ranked by their similarity to a value. -/
def rankValue : Except String RegisterValue := do
  let results ← regs.read instr.regB
  let facts :=
    match results with
    | .facts facts => facts
    | .string s => [.string s]
    | _ => []
  let text :=
    match regs.read instr.regA with
    | .ok v => v.toJson.render
    | .error _ => ""
  let scored := facts.map fun v =>
    (v.toJson.render, svc.gpu.similarity (svc.gpu.embed text) (svc.gpu.embed v.toJson.render))
  pure (.facts ((svc.gpu.rank scored scored.length).map fun x => .string x.1))

/-- What a snapshot at a time writes. -/
def snapshotValue (now : OffsetDateTime) : RegisterValue :=
  let kind := instr.regB.toNat
  let type :=
    match kind with
    | 0 => "graph"
    | 1 => "memory"
    | _ => "full"
  .string (Json.render (.obj [("kind", .int kind), ("status", .str "captured"),
    ("timestamp", .str (svc.showTime now)), ("type", .str type)]))

end Values

/-! ## Steps -/

section Steps

variable {W : Type} (svc : Services W) (instr : Instruction) (ctx : ExecutionContext W)

/-- Advance the program counter. -/
def advance : Except String StepResult × ExecutionContext W :=
  (.ok .continued, { ctx with pc := ctx.pc + 1 })

/-- Write a value to the first register of the instruction, and advance. -/
def finish (value : Except String RegisterValue) : Except String StepResult × ExecutionContext W :=
  match value with
  | .error e => (.error e, ctx)
  | .ok v =>
    match ctx.regs.write instr.regA v with
    | .error e => (.error e, ctx)
    | .ok regs => advance { ctx with regs }

/-- An instruction that only reads registers. -/
def inspect (indices : List UInt8) : Except String StepResult × ExecutionContext W :=
  match indices.mapM ctx.regs.read with
  | .error e => (.error e, ctx)
  | .ok _ => advance ctx

/-- `(pc as i32 + imm) as usize`, in wrapping arithmetic. -/
def jumpTarget : ℕ := ((Int32.ofNat ctx.pc + instr.imm).toInt % 2 ^ 64).toNat

/-- A conditional jump. -/
def jumpIf (taken : RegisterValue → Bool) : Except String StepResult × ExecutionContext W :=
  match ctx.regs.read instr.regA with
  | .error e => (.error e, ctx)
  | .ok v => if taken v then (.ok .continued, { ctx with pc := jumpTarget instr ctx }) else advance ctx

/-- Change the stack, and advance. -/
def onStack (stack : Except String InferenceStack) :
    Except String StepResult × ExecutionContext W :=
  match stack with
  | .error e => (.error e, ctx)
  | .ok stack => advance { ctx with stack }

/-- A fact from three registers goes to the semantic memory. -/
def stepFact : Except String StepResult × ExecutionContext W :=
  match ctx.regs.read instr.regA, ctx.regs.read instr.regB, ctx.regs.read instr.extra with
  | .ok subj, .ok pred, .ok obj =>
    let (id, world) := svc.freshUlid ctx.world
    let (createdAt, world) := svc.now world
    match svc.storeSemanticFact world {
      id
      subject := subj.toJson.render
      predicate := pred.toJson.render
      object := obj.toJson
      confidence := .finite ⟨false, 1, 0⟩
      sourceIds := ["vm"]
      createdAt
      ttl := none } with
    | (.error e, world) => (.error e, { ctx with world })
    | (.ok _, world) => advance { ctx with world }
  | .error e, _, _ => (.error e, ctx)
  | _, .error e, _ => (.error e, ctx)
  | _, _, .error e => (.error e, ctx)

/-- `POP`. -/
def stepPop : Except String StepResult × ExecutionContext W :=
  match ctx.stack.pop with
  | .error e => (.error e, ctx)
  | .ok (v, stack) => finish instr { ctx with stack } (.ok v)

/-- An entry is looked up by the ULID in a register; anything else is skipped. -/
def stepRecall : Except String StepResult × ExecutionContext W :=
  match ctx.regs.read instr.regB with
  | .error e => (.error e, ctx)
  | .ok v =>
    match v.asStr.bind Ulid.fromString with
    | none => advance ctx
    | some id =>
      finish instr ctx do
        let entries ← svc.retrieveLtm ctx.world { LTQuery.default with
          ids := some [id.toString]
          limit := 1 }
        pure (match entries.head? with
          | some e => .string (svc.entryJson e)
          | none => .nil)

/-- Store a value in the long-term memory. -/
def storeValue (world : W) (v : RegisterValue) : Except String Ulid × W :=
  let (id, world) := svc.freshUlid world
  let (createdAt, world) := svc.now world
  let (lastAccessedAt, world) := svc.now world
  svc.storeLtm world {
    id
    kind := "vm_stored"
    content := v.toJson
    sourceIds := ["vm::store"]
    confidence := .finite ⟨false, 1, 0⟩
    createdAt
    lastAccessedAt
    accessCount := 0
    ttl := none }

/-- The value of a register is stored; the id of its entry replaces it. -/
def stepStore : Except String StepResult × ExecutionContext W :=
  match ctx.regs.read instr.regA with
  | .error e => (.error e, ctx)
  | .ok v =>
    match storeValue svc ctx.world v with
    | (.error e, world) => (.error e, { ctx with world })
    | (.ok id, world) => finish instr { ctx with world } (.ok (.string id.toString))

/-- `SNAPSHOT`. -/
def stepSnapshot : Except String StepResult × ExecutionContext W :=
  let (now, world) := svc.now ctx.world
  finish instr { ctx with world } (.ok (snapshotValue svc instr now))

/-- `SYSCALL`. -/
def stepSysCall : Except String StepResult × ExecutionContext W :=
  match SyscallNumber.ofInt instr.imm.toInt with
  | none => (.error ("invalid syscall number: " ++ toString instr.imm.toInt), ctx)
  | some number =>
    let (result, world) := svc.syscall ctx.world
      ⟨number, instr.regA.toNat, instr.regB.toNat, instr.extra.toNat, none⟩
    if result.success then advance { ctx with world }
    else (.error (result.error.getD "syscall failed"), { ctx with world })

/-- `EMIT`. -/
def stepEmit : Except String StepResult × ExecutionContext W :=
  match ctx.regs.read instr.regA with
  | .error e => (.error e, ctx)
  | .ok v =>
    advance { ctx with world := (svc.syscall ctx.world ⟨.emitEvent, 0, 0, 0, some v.toJson⟩).2 }

/-- Execute an instruction. -/
def exec : Except String StepResult × ExecutionContext W :=
  match instr.opcode with
  | .nop => advance ctx
  | .loadImm => finish instr ctx (.ok (.int instr.imm.toInt))
  | .loadStr => finish instr ctx (.ok (loadStrValue instr ctx.program))
  | .mov => finish instr ctx (movValue ctx.regs instr)
  | .loadEntity => finish instr ctx (loadEntityValue ctx.regs instr)
  | .loadGraph => finish instr ctx (loadGraphValue svc ctx.world ctx.regs instr)
  | .traverse => finish instr ctx (traverseValue svc ctx.world ctx.regs instr)
  | .compare => finish instr ctx (compareValue ctx.regs instr)
  | .fact => stepFact svc instr ctx
  | .query => finish instr ctx (queryValue svc ctx.world ctx.regs instr)
  | .push =>
    match ctx.regs.read instr.regA with
    | .error e => (.error e, ctx)
    | .ok v => onStack ctx (ctx.stack.push v)
  | .pop => stepPop instr ctx
  | .dup => onStack ctx ctx.stack.dup
  | .swap => onStack ctx ctx.stack.swap
  | .jmp => (.ok .continued, { ctx with pc := jumpTarget instr ctx })
  | .jz => jumpIf instr ctx fun v => !v.isTruthy
  | .jnz => jumpIf instr ctx RegisterValue.isTruthy
  | .call => (.ok (.called (jumpTarget instr ctx)), ctx)
  | .ret =>
    match ctx.returnStack with
    | addr :: returnStack => (.ok (.returned addr), { ctx with returnStack })
    | [] => (.ok (.returned (ctx.pc + 1)), ctx)
  | .halt => (.ok .halted, ctx)
  | .relate => inspect ctx [instr.regA, instr.regB, instr.extra]
  | .infer => finish instr ctx (inferValue svc ctx.world ctx.regs instr)
  | .similar => finish instr ctx (similarValue svc ctx.world ctx.regs instr)
  | .classify => finish instr ctx (classifyValue svc ctx.regs instr)
  | .reason => finish instr ctx (reasonValue svc ctx.world ctx.regs instr)
  | .correlate => finish instr ctx (correlateValue svc ctx.regs instr)
  | .timeline => finish instr ctx (timelineValue svc ctx.world ctx.regs instr)
  | .search => finish instr ctx (searchValue svc ctx.world ctx.regs instr)
  | .index => inspect ctx [instr.regA, instr.regB]
  | .rank => finish instr ctx (rankValue svc ctx.regs instr)
  | .recall => stepRecall svc instr ctx
  | .consolidate => advance ctx
  | .forget => inspect ctx [instr.regA]
  | .store => stepStore svc instr ctx
  | .snapshot => stepSnapshot svc instr ctx
  | .sysCall => stepSysCall svc instr ctx
  | .emit => stepEmit svc instr ctx

/-- Execute a single instruction and advance the program counter. -/
def step : Except String StepResult × ExecutionContext W :=
  match ctx.program.instructions[ctx.pc]? with
  | none => (.error ("invalid pc: " ++ toString ctx.pc), ctx)
  | some instr => exec svc instr ctx

end Steps

/-- The loop of `execute` with so many cycles left. -/
def executeLoop {W : Type} (svc : Services W) :
    ℕ → ExecutionContext W → Except String Unit × ExecutionContext W
  | 0, ctx => (.error "execution exceeded max cycles", ctx)
  | cycles + 1, ctx =>
    match step svc ctx with
    | (.error e, ctx) => (.error e, ctx)
    | (.ok result, ctx) =>
      let ctx := { ctx with cycles := ctx.cycles + 1 }
      match result with
      | .halted => (.ok (), { ctx with running := false })
      | .called addr =>
        executeLoop svc cycles { ctx with returnStack := ctx.pc :: ctx.returnStack, pc := addr }
      | .returned addr => executeLoop svc cycles { ctx with pc := addr }
      | .failed message => (.error message, { ctx with running := false })
      | .continued => executeLoop svc cycles ctx

/-- Execute a program to completion. -/
def execute {W : Type} (svc : Services W) (ctx : ExecutionContext W) :
    Except String Unit × ExecutionContext W :=
  executeLoop svc ctx.maxCycles { ctx with running := true, cycles := 0 }

end Executor

end TORdex.Vm
