import TORdex.Tdxl.Token

/-! The parser.  Indexing the tokens out of range is a panic; the loop of `parse` has fuel. -/

namespace TORdex.Tdxl

open Ast

/-- The tokens and the place of the next one. -/
structure Parser where
  tokens : List Spanned
  pos : ℕ

/-- Code that runs on a parser. -/
abbrev Parse := StateT Parser (Except Stop)

namespace Parser

/-- At the first token. -/
def new (tokens : List Spanned) : Parser := ⟨tokens, 0⟩

/-- The next token, or `EOF` behind the last. -/
def peek (p : Parser) : Token := p.tokens[p.pos]?.elim .eof (·.1)

/-- The position of the next token. -/
def peekLinecol (p : Parser) : ℕ × ℕ := p.tokens[p.pos]?.elim (0, 0) (·.2)

/-- Take the next token; behind the last one the code panics. -/
def advance : Parse Spanned := fun p =>
  match p.tokens[p.pos]? with
  | some tok => .ok (tok, { p with pos := p.pos + 1 })
  | none => .error .panic

/-- The next token is of the expected kind. -/
def check (p : Parser) (expected : Token) : Bool := p.peek.discriminant = expected.discriminant

/-- `while self.check(Token::Newline) { self.advance(); }`. -/
def skipNewlines (p : Parser) : Parser :=
  let newlines := (p.tokens.drop p.pos).takeWhile fun tok =>
    tok.1.discriminant = Token.newline.discriminant
  { p with pos := p.pos + newlines.length }

/-- `n as usize`. -/
def asUsize (n : ℤ) : ℕ := (n % 2 ^ 64).toNat

section

variable (text : Text)

/-- An error at a position. -/
def fail {α : Type} (linecol : ℕ × ℕ) (message : String) : Parse α :=
  throw (.error (.parse linecol.1 linecol.2 message))

/-- Take a token of the expected kind. -/
def expect (expected : Token) : Parse Spanned := do
  let p ← get
  if p.check expected then advance
  else fail p.peekLinecol ("expected " ++ expected.debug text ++ ", got " ++ p.peek.debug text)

/-- `self.expect(expected).ok()`: an error is dropped. -/
def expectOk (expected : Token) : Parse Unit := fun p =>
  match expect text expected p with
  | .ok (_, p) => .ok ((), p)
  | .error (.error _) => .ok ((), p)
  | .error stop => .error stop

/-- A literal or a name. -/
def parseValue : Parse Ast.Value := do
  let tok ← advance
  match tok.1 with
  | .integer v => pure (.integer v)
  | .float v => pure (.float v)
  | .str s => pure (.string s)
  | .bool b => pure (.bool b)
  | .null => pure .null
  | .ident s => pure (.ident s)
  | _ => fail tok.2 ("expected value, got " ++ tok.1.debug text)

/-- The next token is an operator. -/
def isBinOp (p : Parser) : Bool :=
  match p.peek with
  | .eq | .neq | .ge | .le | .gt | .lt | .and | .or => true
  | _ => false

/-- An operator. -/
def parseBinOp : Parse BinOp := do
  let linecol := (← get).peekLinecol
  let tok ← advance
  match tok.1 with
  | .eq => pure .eq
  | .neq => pure .neq
  | .ge => pure .ge
  | .le => pure .le
  | .gt => pure .gt
  | .lt => pure .lt
  | .and => pure .and
  | .or => pure .or
  | _ => do
    let p ← get
    fail linecol ("expected binary operator, got " ++ p.peek.debug text)

/-- A value, or an operator between two operands. -/
def parseBinExpr : Parse BinExpr := do
  let lhs ← parseValue text
  let p ← get
  if p.isBinOp then
    let op ← parseBinOp text
    let rhs ← parseValue text
    pure (.field lhs.asString op rhs)
  else pure (.value lhs)

/-- A keyword and a value. -/
def parseArgument (make : Ast.Value → Stmt) : Parse Stmt := do
  let _ ← advance
  let value ← parseValue text
  pure (make value)

/-- A keyword, a second keyword that can be left out, and a value. -/
def parseArgumentAfter (word : Token) (make : Ast.Value → Stmt) : Parse Stmt := do
  let _ ← advance
  expectOk text word
  let value ← parseValue text
  pure (make value)

/-- A keyword and an expression. -/
def parseCondition (make : BinExpr → Stmt) : Parse Stmt := do
  let _ ← advance
  let expr ← parseBinExpr text
  pure (make expr)

/-- A keyword and a value, or nothing. -/
def parseOption (keyword : Token) : Parse (Option Ast.Value) := do
  let p ← get
  if p.check keyword then
    let _ ← advance
    let value ← parseValue text
    pure (some value)
  else pure none

/-- `FROM source`. -/
def parseFrom : Parse Stmt := parseArgument text .fromSource

/-- `MATCH condition`. -/
def parseMatch : Parse Stmt := parseCondition text .matchExpr

/-- `WHERE condition`. -/
def parseWhere : Parse Stmt := parseCondition text .whereExpr

/-- The depth in a value: a number cast to `usize`, or 1. -/
def depthOf : Ast.Value → ℕ
  | .integer n => asUsize n
  | _ => 1

/-- `TRAVERSE relation DEPTH n`. -/
def parseTraverse : Parse Stmt := do
  let _ ← advance
  let relation ← parseValue text
  let depth ← parseOption text .depth
  pure (.traverse relation (depth.map depthOf))

/-- `INFER predicate`. -/
def parseInfer : Parse Stmt := parseArgument text .infer

/-- `CORRELATE WITH target`. -/
def parseCorrelate : Parse Stmt := parseArgumentAfter text .withKw .correlate

/-- `SIMILAR TO target`. -/
def parseSimilar : Parse Stmt := parseArgumentAfter text .toKw .similar

/-- `CLASSIFY AS class`. -/
def parseClassify : Parse Stmt := parseArgumentAfter text .asKw .classify

/-- `TIMELINE FROM start TO stop`. -/
def parseTimeline : Parse Stmt := do
  let _ ← advance
  let start ← parseOption text .fromKw
  let stop ← parseOption text .toKw
  pure (.timeline start stop)

/-- `ASC` when neither word comes. -/
def parseOrder : Parse Order := do
  let p ← get
  if p.check .asc then
    let _ ← advance
    pure .asc
  else if p.check .desc then
    let _ ← advance
    pure .desc
  else pure .asc

/-- `SORT BY field` with a direction. -/
def parseSort : Parse Stmt := do
  let _ ← advance
  expectOk text .byKw
  let field ← parseValue text
  let order ← parseOrder
  pure (.sort field order)

/-- `LIMIT n`. -/
def parseLimit : Parse Stmt := do
  let _ ← advance
  let value ← parseValue text
  match value with
  | .integer n => pure (.limit (asUsize n))
  | val => do
    let p ← get
    fail (p.tokens[p.pos - 1]?.elim (0, 0) (·.2)) ("LIMIT requires an integer, got " ++ debugValue text val)

/-- `STORE AS name`. -/
def parseStore : Parse Stmt := parseArgumentAfter text .asKw .store

/-- `EXPORT format`. -/
def parseExport : Parse Stmt := parseArgument text .exportTo

/-- `LOAD name`. -/
def parseLoad : Parse Stmt := parseArgument text .load

/-- `FILTER condition`. -/
def parseFilter : Parse Stmt := parseCondition text .filter

/-- A statement, by its first token. -/
def parseStatement : Parse Stmt := do
  let p ← get
  match p.peek with
  | .fromKw => parseFrom text
  | .matchKw => parseMatch text
  | .whereKw => parseWhere text
  | .traverse => parseTraverse text
  | .summarize => do
    let _ ← advance
    pure .summarize
  | .infer => parseInfer text
  | .correlate => parseCorrelate text
  | .similar => parseSimilar text
  | .classify => parseClassify text
  | .timeline => parseTimeline text
  | .sort => parseSort text
  | .limit => parseLimit text
  | .store => parseStore text
  | .exportKw => parseExport text
  | .load => parseLoad text
  | .filter => parseFilter text
  | .ident _ => do
    let value ← parseValue text
    pure (.load value)
  | tok =>
    fail p.peekLinecol ("unexpected token " ++ tok.debug text ++ ", expected statement keyword")

/-- The loop of `parse`. -/
def parseLoop : ℕ → List Stmt → Parser → Except Stop (List Stmt)
  | 0, _, _ => .error .outOfFuel
  | fuel + 1, statements, p =>
    let p := p.skipNewlines
    if p.check .eof then .ok statements
    else
      match parseStatement text p with
      | .error stop => .error stop
      | .ok (stmt, p) => parseLoop fuel (statements ++ [stmt]) p

/-- All statements up to `EOF`. -/
def parse (fuel : ℕ) (p : Parser) : Except Stop (List Stmt) := parseLoop text fuel [] p

end

end Parser

end TORdex.Tdxl
