import TORdex.Core.Primitives
import TORdex.Fabric.Crawler
import TORdex.Ule.Builder

/-!
# The language frontends

Every frontend scans the source line by line.  What a line means depends on its text alone, so a frontend is
a function from lines to recognised calls.  The regex crate and the JSON parser are parameters: `re pattern
text` is `Regex::new(pattern).captures(text)`.
-/

namespace TORdex

open Crawler (cut startsWith)

/-- The text of each group that takes part in the match, and the text after the match. -/
structure Captures where
  group : ℕ → SourceText
  rest : SourceText

/-- A regular expression finds its first match. -/
abbrev Regex := String → SourceText → Option Captures

/-! ## Text -/

/-- `str::lines`, up to a carriage return at the end of a line and an empty last line: every line is trimmed,
and an empty one is skipped. -/
def sourceLines (source : SourceText) : List SourceText := source.splitOn '\n'

/-- `str::contains`. -/
def containsText (s : SourceText) (pattern : String) : Bool := (cut pattern.toList s).isSome

/-- `split_whitespace().last()`. -/
def lastWord (s : SourceText) : Option SourceText :=
  let word := (s.rdropWhile isWhiteSpace).rtakeWhile fun c => !isWhiteSpace c
  if word.isEmpty then none else some word

/-- `parse::<i32>()` of a group `(\d+)`: only ASCII digits are read. -/
def parseI32 (digits : SourceText) : Option ℤ :=
  if digits.all Char.isDigit && !digits.isEmpty then
    let n := digits.foldl (fun n c => 10 * n + (c.toNat - '0'.toNat)) 0
    if n < 2 ^ 31 then some n else none
  else none

section Frontends

variable (re : Regex) (fromStr : SourceText → Option Json)

/-- The depth that a pattern with one group finds. -/
def depthOf (pattern : String) (text : SourceText) : Option ℤ :=
  (re pattern text).bind fun d => parseI32 (d.group 1)

/-- The filter of a JSON object. -/
def filterOf : Json → Option FilterCond
  | .obj fields =>
    let text (key : String) (default : String) := (((Json.obj fields).get key).bind Json.asStr).getD default
    some ⟨text "field" "", text "op" "eq", text "value" ""⟩
  | _ => none

/-! ## Python -/

/-- The text up to the brace that closes the first one, or all of it. -/
def matchingBrace : ℕ → SourceText → SourceText
  | _, [] => []
  | depth, c :: rest =>
    let depth := if c = '{' then depth + 1 else if c = '}' then depth - 1 else depth
    if depth = 0 then [c] else c :: matchingBrace depth rest

/-- Extract a filter dict from the arguments. -/
def extractFilter (args : SourceText) : Option FilterCond :=
  ["where=", "filter="].findSome? fun key => do
    let (_, rest) ← cut key.toList args
    let (_, json) ← cut ['{'] rest
    let v ← fromStr (matchingBrace 0 ('{' :: json))
    filterOf v

/-- The filter in the arguments of a Python call. -/
def pythonFilter (args : SourceText) : Option FilterCond :=
  if containsText args "where" || containsText args "filter" then extractFilter fromStr args else none

/-- `extract_int_arg(args, "depth")`. -/
def extractIntArg (args : SourceText) : Option ℤ := depthOf re r#"depth\s*=\s*(\d+)"# args

/-- The dispatch on the name of the call. -/
def pythonCall (trimmed : SourceText) (varName : Option SourceText) (args : SourceText) :
    String → Option KnowledgeLine
  | "collect" => (re r#"collect\s*\(\s*"([^"]*)"\s*"# trimmed).map fun inner =>
    ⟨.collect (inner.group 1) (pythonFilter fromStr args), varName⟩
  | "search" => (re r#"search\s*\(\s*"([^"]*)"\s*"# trimmed).map fun inner =>
    ⟨.search (inner.group 1) (pythonFilter fromStr args), varName⟩
  | "traverse" => (re r#"traverse\s*\(\s*(\w+)\s*,\s*"([^"]*)"# trimmed).map fun inner =>
    let depth := if containsText args "depth" then extractIntArg re args else none
    ⟨.traverse (inner.group 1) (inner.group 2) depth, varName⟩
  | "classify" =>
    match re r#"classify\s*\(\s*(\w+)\s*\)"# trimmed with
    | some inner => some ⟨.classify (.var (inner.group 1)), varName⟩
    -- `result = knowledge.classify()`: only an assignment takes the pipeline as input
    | none => varName.map fun vn => ⟨.classify .pipeline, some vn⟩
  | "reason" | "infer" => (re r#"reason\s*\(\s*(\w+)"# trimmed).map fun inner =>
    ⟨.infer (.var (inner.group 1)), varName⟩
  | "correlate" => (re r#"correlate\s*\(\s*(\w+)\s*,\s*(\w+)"# trimmed).map fun inner =>
    ⟨.correlate (inner.group 1) (inner.group 2), varName⟩
  | "similar" | "similarity" => (re r#"similar\s*\(\s*(\w+)\s*,\s*(\w+)"# trimmed).map fun inner =>
    ⟨.similar (inner.group 1), varName⟩
  | "observe" => (re r#"observe\s*\(\s*(\w+)\s*\)"# trimmed).map fun inner =>
    ⟨.observe (.var (inner.group 1)), varName⟩
  | "store" => (re r#"store\s*\(\s*key\s*=\s*"([^"]*)"# trimmed).map fun inner =>
    ⟨.store (inner.group 1), none⟩
  | "snapshot" => (re r#"snapshot\s*\(\s*"([^"]*)"\s*\)"# trimmed).map fun _ => ⟨.snapshot, none⟩
  | _ => none

/-- What a line of Python calls. -/
def pythonLine (line : SourceText) : Option KnowledgeLine :=
  let trimmed := trimText line
  if trimmed.isEmpty || startsWith trimmed "#" then none
  else
    let varName := (re r#"(\w+)\s*=\s*(knowledge|kg|graph|ctx)\."# trimmed).map (·.group 1)
    (re r#"(knowledge|kg|graph|ctx)\.(\w+)\s*\(([^)]*)\)"# trimmed).bind fun caps =>
      pythonCall re fromStr trimmed varName (caps.group 3) (String.ofList (caps.group 2))

/-! ## JavaScript -/

/-- Only the text up to the first closing brace is parsed, with double quotes for single ones. -/
def extractJsFilter (args : SourceText) : Option FilterCond :=
  if args.any fun c => c = '{' || c = ':' then
    ["where:", "filter:", "query:"].findSome? fun key => do
      let (_, rest) ← cut key.toList args
      let (_, json) ← cut ['{'] rest
      let (obj, _) ← cut ['}'] ('{' :: json)
      let v ← fromStr ((obj ++ ['}']).map fun c => if c = '\'' then '"' else c)
      filterOf v
  else none

/-- The filter in the arguments of a JavaScript call. -/
def jsFilter (args : SourceText) : Option FilterCond :=
  if containsText args "where" || containsText args "filter" || containsText args "query" then
    extractJsFilter fromStr args
  else none

/-- The input of `classify`, `reason` and `observe`: the pipeline when the pattern does not match. -/
def jsInput (pattern : String) (trimmed : SourceText) : CallInput :=
  match re pattern trimmed with
  | some inner => .var (inner.group 1)
  | none => .pipeline

/-- What a call of JavaScript does, by its method. -/
def jsCall (trimmed : SourceText) (varName : Option SourceText) (args : SourceText) :
    String → Option KnowledgeLine
  | "collect" => (re r#"collect\s*\(\s*"([^"]*)"# trimmed).map fun inner =>
    ⟨.collect (inner.group 1) (jsFilter fromStr args), varName⟩
  | "search" => (re r#"search\s*\(\s*"([^"]*)"# trimmed).map fun inner =>
    ⟨.search (inner.group 1) none, varName⟩
  | "traverse" => (re r#"traverse\s*\(\s*(\w+)\s*,\s*"([^"]*)"# trimmed).map fun inner =>
    let depth := if containsText args "depth" then depthOf re r#"depth\s*:\s*(\d+)"# args else none
    ⟨.traverse (inner.group 1) (inner.group 2) depth, varName⟩
  | "classify" => some ⟨.classify (jsInput re r#"classify\s*\(\s*(\w+)\s*\)"# trimmed), varName⟩
  | "reason" | "infer" => some ⟨.infer (jsInput re r#"reason\s*\(\s*(\w+)"# trimmed), varName⟩
  | "observe" => some ⟨.observe (jsInput re r#"observe\s*\(\s*(\w+)\s*\)"# trimmed), varName⟩
  | "store" => (re r#"store\s*\(\s*"([^"]*)"\s*,"# trimmed).map fun inner =>
    ⟨.store (inner.group 1), none⟩
  | "snapshot" => (re r#"snapshot\s*\(\s*"([^"]*)"\s*\)"# trimmed).map fun _ => ⟨.snapshot, none⟩
  | _ => none

/-- The lines that JavaScript, Rust and Go skip. -/
def isSkipped (trimmed : SourceText) : Bool :=
  trimmed.isEmpty || startsWith trimmed "//" || startsWith trimmed "/*"

/-- What a line of JavaScript calls. -/
def jsLine (line : SourceText) : Option KnowledgeLine :=
  let trimmed := trimText line
  if isSkipped trimmed then none
  else
    let varName := (re r#"(?:const|let|var)\s+(\w+)\s*=\s*(?:await\s+)?(?:knowledge|kg|graph|ctx)\."#
      trimmed).map (·.group 1)
    (re r#"(?:await\s+)?(?:knowledge|kg|graph|ctx)\.(\w+)\s*\(([^)]*)\)"# trimmed).bind fun caps =>
      jsCall re fromStr trimmed varName (caps.group 2) (String.ofList (caps.group 1))

/-! ## Rust -/

/-- The branches in order: the first pattern that matches decides. -/
def rustLine (line : SourceText) : Option KnowledgeLine :=
  let trimmed := trimText line
  if isSkipped trimmed then none
  else
    let varName := (re r#"let\s+(mut\s+)?(\w+)\s*="# trimmed).map (·.group 2)
    ((re r#"knowledge::collect\s*\(\s*"([^"]*)"\s*\)"# trimmed).map fun caps =>
      ⟨.collect (caps.group 1) none, varName⟩) <|>
    ((re r#"(\w+)\.traverse\s*\(\s*"([^"]*)"\s*\)"# trimmed).map fun caps =>
      ⟨.traverse (caps.group 1) (caps.group 2) (depthOf re r#"\.depth\s*\(\s*(\d+)\s*\)"# trimmed),
        varName⟩) <|>
    ((re r#"(\w+)\.classify\s*\(\s*\)"# trimmed).map fun caps =>
      ⟨.classify (.var (caps.group 1)), varName⟩) <|>
    ((re r#"knowledge::search\s*\(\s*"([^"]*)"\s*,"# trimmed).map fun caps =>
      ⟨.search (caps.group 1) none, varName⟩) <|>
    ((re r#"(\w+)\.correlate\s*\(\s*&(\w+)"# trimmed).map fun caps =>
      ⟨.correlate (caps.group 1) (caps.group 2), varName⟩) <|>
    ((re r#"(\w+)\.similar\s*\(\s*&(\w+)"# trimmed).map fun caps =>
      ⟨.similar (caps.group 1), varName⟩) <|>
    ((re r#"knowledge::observe\s*\(\s*&(\w+)"# trimmed).map fun caps =>
      ⟨.observe (.var (caps.group 1)), varName⟩) <|>
    ((re r#"knowledge::store\s*\(\s*"([^"]*)"\s*,"# trimmed).map fun caps =>
      ⟨.store (caps.group 1), none⟩) <|>
    ((re r#"knowledge::snapshot\s*\(\s*"([^"]*)"\s*\)"# trimmed).map fun _ => ⟨.snapshot, varName⟩) <|>
    ((re r#"knowledge::infer\s*\(\s*(\w+)"# trimmed).map fun caps =>
      ⟨.infer (.var (caps.group 1)), varName⟩)

/-! ## Java -/

/-- Detect `Type var =` assignments: the last word before the first `=`. -/
def javaVarName (trimmed : SourceText) : Option SourceText :=
  match cut ['='] trimmed with
  | some (before, _) =>
    if containsText trimmed "Knowledge." || containsText trimmed "knowledge." then lastWord before else none
  | none => none

/-- What a line of Java calls. -/
def javaLine (line : SourceText) : Option KnowledgeLine :=
  let trimmed := trimText line
  if trimmed.isEmpty || startsWith trimmed "/" || startsWith trimmed "*" then none
  else
    let varName := javaVarName trimmed
    ((re r#"Knowledge\.collect\s*\(\s*"([^"]*)"\s*\)"# trimmed).map fun caps =>
      ⟨.collect (caps.group 1) none, varName⟩) <|>
    ((re r#"(\w+)\.traverse\s*\(\s*"([^"]*)"\s*\)"# trimmed).map fun caps =>
      ⟨.traverse (caps.group 1) (caps.group 2) (depthOf re r#"\.depth\s*\(\s*(\d+)\s*\)"# trimmed),
        if (re r#"\.execute\s*\(\s*\)"# trimmed).isSome then varName else none⟩) <|>
    ((re r#"Knowledge\.classify\s*\(\s*(\w+)\s*\)"# trimmed).map fun caps =>
      ⟨.classify (.var (caps.group 1)), varName⟩) <|>
    ((re r#"Knowledge\.search\s*\(\s*"([^"]*)"\s*,"# trimmed).map fun caps =>
      ⟨.search (caps.group 1) none, varName⟩) <|>
    ((re r#"Knowledge\.reason\s*\(\s*(\w+)"# trimmed).map fun caps =>
      ⟨.infer (.var (caps.group 1)), varName⟩) <|>
    ((re r#"Knowledge\.observe\s*\(\s*(\w+)\s*\)"# trimmed).map fun caps =>
      ⟨.observe (.var (caps.group 1)), varName⟩) <|>
    ((re r#"Knowledge\.store\s*\(\s*"([^"]*)"\s*,"# trimmed).map fun caps =>
      ⟨.store (caps.group 1), none⟩) <|>
    ((re r#"Knowledge\.snapshot\s*\(\s*"([^"]*)"\s*\)"# trimmed).map fun _ => ⟨.snapshot, none⟩)

/-! ## Go -/

/-- The depth of a traversal is the first number before a closing parenthesis in the rest of the line. -/
def goLine (line : SourceText) : Option KnowledgeLine :=
  let trimmed := trimText line
  if isSkipped trimmed then none
  else
    let varName := (re r#"(\w+)\s*[_:]?=\s*(?:knowledge|kg|graph)\."# trimmed).map (·.group 1)
    ((re r#"(?:knowledge|kg|graph)\.Collect\s*\(\s*"([^"]*)"\s*\)"# trimmed).map fun caps =>
      ⟨.collect (caps.group 1) none, varName⟩) <|>
    ((re r#"([\w.]+)\.Traverse\s*\(\s*"([^"]*)"\s*"# trimmed).map fun caps =>
      ⟨.traverse (caps.group 1) (caps.group 2) (depthOf re r#"(\d+)\s*\)"# caps.rest), varName⟩) <|>
    ((re r#"(?:knowledge|kg)\.Classify\s*\(\s*(\w+)\s*\)"# trimmed).map fun caps =>
      ⟨.classify (.var (caps.group 1)), varName⟩) <|>
    ((re r#"(?:knowledge|kg|graph)\.Search\s*\(\s*"([^"]*)"\s*"# trimmed).map fun caps =>
      ⟨.search (caps.group 1) none, varName⟩) <|>
    ((re r#"(?:knowledge|kg)\.Reason\s*\(\s*(\w+)"# trimmed).map fun caps =>
      ⟨.infer (.var (caps.group 1)), varName⟩) <|>
    ((re r#"(?:knowledge|kg)\.Correlate\s*\(\s*(\w+)\s*,\s*(\w+)"# trimmed).map fun caps =>
      ⟨.correlate (caps.group 1) (caps.group 2), varName⟩) <|>
    ((re r#"(?:knowledge|kg)\.Observe\s*\(\s*(\w+)\s*\)"# trimmed).map fun caps =>
      ⟨.observe (.var (caps.group 1)), varName⟩) <|>
    ((re r#"(?:knowledge|kg)\.Store\s*\(\s*"([^"]*)"\s*,"# trimmed).map fun caps =>
      ⟨.store (caps.group 1), none⟩) <|>
    ((re r#"(?:knowledge|kg)\.Snapshot\s*\(\s*"([^"]*)"\s*\)"# trimmed).map fun _ =>
      ⟨.snapshot, varName⟩) <|>
    ((re r#"(?:knowledge|kg)\.Infer\s*\(\s*(\w+)"# trimmed).map fun caps =>
      ⟨.infer (.var (caps.group 1)), varName⟩)

/-! ## Compilation -/

/-- The registered frontends. -/
inductive LanguageFrontend where
  | python
  | javaScript
  | rust
  | java
  | go
  deriving DecidableEq, Repr

namespace LanguageFrontend

/-- What a line of the language means. -/
def recognise : LanguageFrontend → SourceText → Option KnowledgeLine
  | python => pythonLine re fromStr
  | javaScript => jsLine re fromStr
  | rust => rustLine re
  | java => javaLine re
  | go => goLine re

/-- Java's builder has no `push_op`. -/
def push : LanguageFrontend → ProgramBuilder → KirOp → ProgramBuilder
  | python | javaScript | rust | go => ProgramBuilder.pushOp
  | java => ProgramBuilder.pushDirect

/-- The calls that the frontend recognises in a source, in order. -/
def calls (f : LanguageFrontend) (source : SourceText) : List KnowledgeLine :=
  (sourceLines source).filterMap (f.recognise re fromStr)

/-- `compile_python`, `compile_js`, `compile_rust`, `compile_java` and `compile_go`: the error type is never
used. -/
def compile (f : LanguageFrontend) (source : SourceText) : Except String KirProgram :=
  .ok (buildProgram f.push (f.calls re fromStr source))

theorem push_appends (f : LanguageFrontend) : Appends f.push := by
  cases f with
  | java => exact pushDirect_appends
  | python | javaScript | rust | go => exact pushOp_appends

/-- A frontend emits a well-formed program exactly when the first call it recognises, if any, emits a string
constant before its operation: the operations without one fall back to the id `0`, which then is their own. -/
theorem compile_ssaOk_iff (f : LanguageFrontend) (source : SourceText) :
    (∀ p, f.compile re fromStr source = .ok p → SsaOk p) ↔
      ∀ first, (f.calls re fromStr source).head? = some first → first.call.constFirst = true := by
  rw [← buildProgram_ssaOk_iff f.push_appends]
  constructor
  · exact fun h => h _ rfl
  · rintro ok p ⟨⟩
    exact ok

end LanguageFrontend

end Frontends

namespace LanguageFrontend

/-- The matches of the frontend's patterns in `ClassificationResult result = Knowledge.classify(entity);`. -/
def classifyEntity : Regex := fun pattern _ =>
  if pattern = r#"Knowledge\.classify\s*\(\s*(\w+)\s*\)"# then some ⟨fun _ => "entity".toList, [';']⟩
  else none

/-- The value of an undefined variable is the id of the operation that uses it. -/
theorem classify_undefined : ∃ p, java.compile classifyEntity (fun _ => none)
    "ClassificationResult result = Knowledge.classify(entity);".toList = .ok p ∧ ¬ SsaOk p :=
  ⟨_, rfl, fun ok => absurd ok.ops (by decide)⟩

end LanguageFrontend

end TORdex
