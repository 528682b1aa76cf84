import TORdex.Tdxl.Token

/-!
# The lexer

The loops that push characters as long as they satisfy a test are `takeWhile`; the other loops of the
source are recursions on the characters that are left, and the loop of `tokenize` has fuel.
-/

namespace TORdex.Tdxl

/-- The characters from `pos` on. -/
structure Lexer where
  rest : List Char
  line : ℕ
  col : ℕ

namespace Lexer

/-- At the beginning of a text. -/
def new (input : String) : Lexer := ⟨input.toList, 1, 1⟩

/-- The next character. -/
def peek (lx : Lexer) : Option Char := lx.rest.head?

/-- The character `n` places on. -/
def peekNth (lx : Lexer) (n : ℕ) : Option Char := lx.rest[n]?

/-- One character on; a newline begins a line. -/
def advance (lx : Lexer) : Lexer :=
  match lx.rest with
  | [] => lx
  | c :: rest => if c = '\n' then ⟨rest, lx.line + 1, 1⟩ else ⟨rest, lx.line, lx.col + 1⟩

@[simp] theorem advance_rest (lx : Lexer) : lx.advance.rest = lx.rest.tail := by
  unfold advance
  cases h : lx.rest with
  | nil => exact h
  | cons c rest =>
    dsimp only
    split_ifs <;> rfl

/-- Push the next characters as long as they satisfy `p`. -/
def takeWhile (p : Char → Bool) (lx : Lexer) : List Char × Lexer :=
  let s := lx.rest.takeWhile p
  (s, s.foldl (fun lx _ => lx.advance) lx)

theorem advances_rest (s : List Char) (lx : Lexer) :
    (s.foldl (fun lx _ => lx.advance) lx).rest = lx.rest.drop s.length := by
  induction s generalizing lx with
  | nil => rfl
  | cons c s ih =>
    rw [List.foldl_cons, ih, advance_rest, List.drop_tail]
    rfl

@[simp] theorem takeWhile_rest (p : Char → Bool) (lx : Lexer) :
    (lx.takeWhile p).2.rest = lx.rest.dropWhile p := by
  have split : lx.rest.takeWhile p ++ lx.rest.dropWhile p = lx.rest := List.takeWhile_append_dropWhile
  show (List.foldl _ lx _).rest = _
  rw [advances_rest]
  nth_rewrite 2 [← split]
  exact List.drop_left

theorem peek_eq_some {lx : Lexer} {c : Char} : lx.peek = some c ↔ ∃ rest, lx.rest = c :: rest := by
  unfold peek
  cases lx.rest with
  | nil => simp
  | cons c' rest => simp [eq_comm]

theorem advance_shorter {lx : Lexer} {c : Char} (h : lx.peek = some c) :
    lx.advance.rest.length < lx.rest.length := by
  obtain ⟨rest, hr⟩ := peek_eq_some.1 h
  rw [advance_rest, hr]
  exact Nat.lt_succ_self _

theorem dropWhile_shorter {p : Char → Bool} {c : Char} {rest : List Char} (h : p c = true) :
    ((c :: rest).dropWhile p).length < (c :: rest).length := by
  rw [List.dropWhile_cons_of_pos h]
  exact Nat.lt_succ_of_le (List.dropWhile_sublist p).length_le

theorem takeWhile_shorter {lx : Lexer} {p : Char → Bool} {c : Char} (h : lx.peek = some c)
    (hp : p c = true) : (lx.takeWhile p).2.rest.length < lx.rest.length := by
  obtain ⟨rest, hr⟩ := peek_eq_some.1 h
  rw [takeWhile_rest, hr]
  exact dropWhile_shorter hp

/-- Pass over blanks and comments. -/
def skipWhitespace (lx : Lexer) : Lexer :=
  match _h : lx.peek with
  | none => lx
  | some c =>
    if c = ' ' ∨ c = '\t' ∨ c = '\r' then skipWhitespace lx.advance
    else if _comment : c = '#' then skipWhitespace (lx.takeWhile (· ≠ '\n')).2
    else lx
termination_by lx.rest.length
decreasing_by
  · exact advance_shorter ‹_›
  · apply takeWhile_shorter ‹lx.peek = some c›
    rw [‹c = '#'›]
    decide

/-- Digits and points; a number that is too large or not a number is zero. -/
def readNumber (text : Text) (line col : ℕ) (lx : Lexer) : Spanned × Lexer :=
  let (s, lx) := lx.takeWhile fun c => c.isDigit || c = '.'
  if '.' ∈ s then
    ((.float ((text.parseFloat (String.ofList s)).getD (.finite ⟨false, 0, 0⟩)), line, col), lx)
  else
    let v : ℤ := Nat.ofDigitChars 10 s 0
    ((.integer (if v ≤ i64Max then v else 0), line, col), lx)

/-- The character that a backslash and `c` stand for. -/
def unescape : Char → Char
  | 'n' => '\n'
  | 't' => '\t'
  | 'r' => '\r'
  | c => c

/-- The loop of `read_string`. -/
def readStringLoop (s : List Char) (lx : Lexer) : Except Error (List Char × Lexer) :=
  match _h : lx.peek with
  | none => .error (.lex lx.line lx.col "unterminated string")
  | some c =>
    if c = '"' then .ok (s, lx.advance)
    else if c = '\\' then
      match _h' : lx.advance.peek with
      | none => .error (.lex lx.advance.line lx.advance.col "unterminated string escape")
      | some c' => readStringLoop (s ++ [unescape c']) lx.advance.advance
    else readStringLoop (s ++ [c]) lx.advance
termination_by lx.rest.length
decreasing_by
  · exact (advance_shorter ‹_›).trans (advance_shorter ‹lx.peek = some c›)
  · exact advance_shorter ‹_›

/-- A string in double quotes. -/
def readString (line col : ℕ) (lx : Lexer) : Except Error (Spanned × Lexer) := do
  let (s, lx) ← readStringLoop [] lx.advance
  pure ((.str (String.ofList s), line, col), lx)

/-- A string in single quotes, without escapes. -/
def readRawString (line col : ℕ) (lx : Lexer) : Except Error (Spanned × Lexer) :=
  let (s, lx) := lx.advance.takeWhile (· ≠ '\'')
  match lx.peek with
  | none => .error (.lex lx.line lx.col "unterminated raw string")
  | some _ => .ok ((.str (String.ofList s), line, col), lx.advance)

/-- The spellings of the keywords. -/
def keywords : List (List String × Token) := [
  (["FROM", "from", "From"], .fromKw),
  (["MATCH", "match", "Match"], .matchKw),
  (["WHERE", "where", "Where"], .whereKw),
  (["TRAVERSE", "traverse", "Traverse"], .traverse),
  (["DEPTH", "depth", "Depth"], .depth),
  (["SUMMARIZE", "summarize", "Summarize"], .summarize),
  (["INFER", "infer", "Infer"], .infer),
  (["CORRELATE", "correlate", "Correlate"], .correlate),
  (["WITH", "with", "With"], .withKw),
  (["SIMILAR", "similar", "Similar"], .similar),
  (["TO", "to", "To"], .toKw),
  (["CLASSIFY", "classify", "Classify"], .classify),
  (["AS", "as", "As"], .asKw),
  (["TIMELINE", "timeline", "Timeline"], .timeline),
  (["SORT", "sort", "Sort"], .sort),
  (["BY", "by", "By"], .byKw),
  (["ASC", "asc", "Asc"], .asc),
  (["DESC", "desc", "Desc"], .desc),
  (["LIMIT", "limit", "Limit"], .limit),
  (["STORE", "store", "Store"], .store),
  (["EXPORT", "export", "Export"], .exportKw),
  (["LOAD", "load", "Load"], .load),
  (["FILTER", "filter", "Filter"], .filter),
  (["AND", "and", "And"], .and),
  (["OR", "or", "Or"], .or),
  (["NOT", "not", "Not"], .not),
  (["true", "True", "TRUE"], .bool true),
  (["false", "False", "FALSE"], .bool false),
  (["null", "Null", "NULL"], .null)]

/-- The token of a word. -/
def identOrKeyword (s : String) : Token :=
  match keywords.find? fun keyword => s ∈ keyword.1 with
  | some keyword => keyword.2
  | none => .ident s

/-- The characters of identifiers. -/
def isWordChar (text : Text) (c : Char) : Bool := text.isAlphanumeric c || c = '_'

theorem isWordChar_of_start {text : Text} {c : Char} (h : c = '_' ∨ c.isAlpha) :
    isWordChar text c = true := by
  unfold isWordChar
  rcases h with rfl | alpha
  · simp
  · rw [text.isAlphanumeric_of_isAlphanum (by simp [Char.isAlphanum, alpha]), Bool.true_or]

/-- A word. -/
def readIdentOrKeyword (text : Text) (line col : ℕ) (lx : Lexer) : Spanned × Lexer :=
  let (s, lx) := lx.takeWhile (isWordChar text)
  ((identOrKeyword (String.ofList s), line, col), lx)

/-- An operator that is longer when `=` comes next. -/
def readOperator (long short : Token) (line col : ℕ) (lx : Lexer) : Spanned × Lexer :=
  if lx.peekNth 1 = some '=' then ((long, line, col), lx.advance.advance)
  else ((short, line, col), lx.advance)

/-- The last `match` of `next_token`. -/
def readSymbol (c : Char) (line col : ℕ) (lx : Lexer) : Except Error (Spanned × Lexer) :=
  match c with
  | '(' => .ok ((.lparen, line, col), lx.advance)
  | ')' => .ok ((.rparen, line, col), lx.advance)
  | '[' => .ok ((.lbracket, line, col), lx.advance)
  | ']' => .ok ((.rbracket, line, col), lx.advance)
  | '{' => .ok ((.lbrace, line, col), lx.advance)
  | '}' => .ok ((.rbrace, line, col), lx.advance)
  | ',' => .ok ((.comma, line, col), lx.advance)
  | '.' => .ok ((.dot, line, col), lx.advance)
  | ':' => .ok ((.colon, line, col), lx.advance)
  | '=' => .ok (readOperator .eq .assign line col lx)
  | '!' =>
    if lx.peekNth 1 = some '=' then .ok ((.neq, line, col), lx.advance.advance)
    else .error (.lex line col "unexpected '!'")
  | '>' => .ok (readOperator .ge .gt line col lx)
  | '<' => .ok (readOperator .le .lt line col lx)
  | c => .error (.lex line col ("unexpected character: '" ++ String.singleton c ++ "'"))

/-- The next token with its position. -/
def nextToken (text : Text) (start : Lexer) : Except Error (Spanned × Lexer) :=
  let lx := start.skipWhitespace
  let line := lx.line
  let col := lx.col
  match lx.peek with
  | none => .ok ((.eof, line, col), lx)
  | some c =>
    if c = '\n' then .ok ((.newline, line, col), lx.advance)
    else if c.isDigit then .ok (lx.readNumber text line col)
    else if c = '"' then lx.readString line col
    else if c = '\'' then lx.readRawString line col
    else if c = '_' ∨ c.isAlpha then .ok (lx.readIdentOrKeyword text line col)
    else lx.readSymbol c line col

/-- The loop of `tokenize`. -/
def tokenizeLoop (text : Text) : ℕ → List Spanned → Lexer → Except Stop (List Spanned)
  | 0, _, _ => .error .outOfFuel
  | fuel + 1, tokens, lx =>
    match lx.nextToken text with
    | .error e => .error (.error e)
    | .ok (tok, lx) =>
      if tok.1 = .eof then .ok (tokens ++ [tok]) else tokenizeLoop text fuel (tokens ++ [tok]) lx

/-- All tokens of a text. -/
def tokenize (text : Text) (fuel : ℕ) (lx : Lexer) : Except Stop (List Spanned) :=
  tokenizeLoop text fuel [] lx

end Lexer

end TORdex.Tdxl

/-! The concrete syntax of statements: each is a line of words, and a word stands for a token. -/

namespace TORdex.Tdxl

open Ast

/-- A character in a string in double quotes. -/
def escape : Char → List Char
  | '\\' => ['\\', '\\']
  | '"' => ['\\', '"']
  | '\n' => ['\\', 'n']
  | '\t' => ['\\', 't']
  | '\r' => ['\\', 'r']
  | c => [c]

/-- A string in double quotes. -/
def quote (s : String) : String := "\"" ++ String.ofList (s.toList.flatMap escape) ++ "\""

/-- A word with the token that it stands for. -/
abbrev Word := String × Token

/-- A value as it is written. -/
def valueWord : Ast.Value → Word
  | .integer v => (toString v, .integer v)
  | .float v => (displayFloat v, .float v)
  | .string s => (quote s, .str s)
  | .bool b => (if b then "TRUE" else "FALSE", .bool b)
  | .null => ("NULL", .null)
  | .ident s => (s, .ident s)

/-- A number as it is written. -/
def natWord (n : ℕ) : Word := (toString n, .integer n)

/-- An operator as it is written. -/
def opWord : BinOp → Word
  | .eq => ("==", .eq)
  | .neq => ("!=", .neq)
  | .ge => (">=", .ge)
  | .le => ("<=", .le)
  | .gt => (">", .gt)
  | .lt => ("<", .lt)
  | .and => ("AND", .and)
  | .or => ("OR", .or)

/-- A condition as it is written. -/
def exprWords : BinExpr → List Word
  | .field field op value => [(quote field, .str field), opWord op, valueWord value]
  | .expr left op right => exprWords left ++ opWord op :: exprWords right
  | .value value => [valueWord value]

/-- A direction as it is written. -/
def orderWord : Order → Word
  | .asc => ("ASC", .asc)
  | .desc => ("DESC", .desc)

/-- A keyword and a value, or nothing. -/
def optionWords (keyword : Word) : Option Ast.Value → List Word
  | none => []
  | some value => [keyword, valueWord value]

/-- A statement as it is written. -/
def stmtWords : Stmt → List Word
  | .fromSource source => [("FROM", .fromKw), valueWord source]
  | .matchExpr expr => ("MATCH", .matchKw) :: exprWords expr
  | .whereExpr expr => ("WHERE", .whereKw) :: exprWords expr
  | .traverse relation none => [("TRAVERSE", .traverse), valueWord relation]
  | .traverse relation (some depth) =>
    [("TRAVERSE", .traverse), valueWord relation, ("DEPTH", .depth), natWord depth]
  | .summarize => [("SUMMARIZE", .summarize)]
  | .infer rule => [("INFER", .infer), valueWord rule]
  | .correlate target => [("CORRELATE", .correlate), ("WITH", .withKw), valueWord target]
  | .similar target => [("SIMILAR", .similar), ("TO", .toKw), valueWord target]
  | .classify cls => [("CLASSIFY", .classify), ("AS", .asKw), valueWord cls]
  | .timeline start stop =>
    ("TIMELINE", .timeline) :: optionWords ("FROM", .fromKw) start ++ optionWords ("TO", .toKw) stop
  | .sort field order => [("SORT", .sort), ("BY", .byKw), valueWord field, orderWord order]
  | .limit n => [("LIMIT", .limit), natWord n]
  | .store name => [("STORE", .store), ("AS", .asKw), valueWord name]
  | .exportTo format => [("EXPORT", .exportKw), valueWord format]
  | .load source => [("LOAD", .load), valueWord source]
  | .filter expr => ("FILTER", .filter) :: exprWords expr

/-- A statement on its own line. -/
def renderStmt (stmt : Stmt) : String := " ".intercalate ((stmtWords stmt).map (·.1)) ++ "\n"

/-- A program, one statement on each line. -/
def render (statements : List Stmt) : String := String.join (statements.map renderStmt)

section

variable (text : Text)

/-- What the lexer reads as an identifier. -/
def IsIdentifier (s : String) : Prop :=
  (∃ c rest, s.toList = c :: rest ∧ (c = '_' ∨ c.isAlpha) ∧ ∀ d ∈ rest, Lexer.isWordChar text d) ∧
    Lexer.identOrKeyword s = .ident s

/-- The values that have a concrete syntax. -/
def PlainValue : Ast.Value → Prop
  | .integer v => 0 ≤ v ∧ v ≤ i64Max
  | .float _ => False
  | .ident s => IsIdentifier text s
  | _ => True

/-- A condition without connectives whose value can be written. -/
def PlainExpr : BinExpr → Prop
  | .field _ _ value => PlainValue text value
  | .expr _ _ _ => False
  | .value value => PlainValue text value

/-- A statement whose values can be written. -/
def PlainStmt : Stmt → Prop
  | .fromSource v | .infer v | .correlate v | .similar v | .classify v | .sort v _ | .store v
  | .exportTo v | .load v => PlainValue text v
  | .matchExpr expr | .whereExpr expr | .filter expr => PlainExpr text expr
  | .traverse relation depth => PlainValue text relation ∧ ∀ n ∈ depth, (n : ℤ) ≤ i64Max
  | .timeline start stop => (∀ v ∈ start, PlainValue text v) ∧ ∀ v ∈ stop, PlainValue text v
  | .limit n => (n : ℤ) ≤ i64Max
  | .summarize => True

end

end TORdex.Tdxl
