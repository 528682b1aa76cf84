import TORdex.Tdxl.Ast

/-! The tokens of TDXL and the errors of its front end. -/

namespace TORdex.Tdxl

/-- A token of the language. -/
inductive Token where
  | fromKw
  | matchKw
  | whereKw
  | traverse
  | depth
  | summarize
  | infer
  | correlate
  | withKw
  | similar
  | toKw
  | classify
  | asKw
  | timeline
  | sort
  | byKw
  | asc
  | desc
  | limit
  | store
  | exportKw
  | load
  | filter
  | and
  | or
  | not
  | integer (v : ℤ)
  | float (v : F64)
  | str (s : String)
  | bool (b : Bool)
  | null
  | ident (s : String)
  | eq
  | neq
  | ge
  | le
  | gt
  | lt
  | assign
  | lparen
  | rparen
  | lbracket
  | rbracket
  | lbrace
  | rbrace
  | comma
  | dot
  | colon
  | newline
  | eof
  deriving DecidableEq, Repr

/-- A token with the line and column at which it starts. -/
abbrev Spanned := Token × ℕ × ℕ

/-- What the standard library decides about characters, and how it reads and prints floats and prints
quoted strings. -/
structure Text where
  isAlphanumeric : Char → Bool
  parseFloat : String → Option F64
  debugFloat : F64 → String
  debugStr : String → String
  isAlphanumeric_ascii : ∀ c : Char, c.toNat < 128 → isAlphanumeric c = c.isAlphanum

theorem bounds_of_isDigit {c : Char} (h : c.isDigit = true) : 48 ≤ c.toNat ∧ c.toNat ≤ 57 :=
  Char.isDigit_iff_toNat.1 h

theorem bounds_of_isAlpha {c : Char} (h : c.isAlpha = true) :
    65 ≤ c.toNat ∧ c.toNat ≤ 90 ∨ 97 ≤ c.toNat ∧ c.toNat ≤ 122 := by
  rcases Bool.or_eq_true_iff.1 h with upper | lower
  · obtain ⟨low, high⟩ : c.val ≥ 'A'.val ∧ c.val ≤ 'Z'.val := of_decide_eq_true upper
    exact .inl ⟨UInt32.le_iff_toNat_le.1 low, UInt32.le_iff_toNat_le.1 high⟩
  · obtain ⟨low, high⟩ := Bool.and_eq_true_iff.1 lower
    exact .inr ⟨UInt32.le_iff_toNat_le.1 (of_decide_eq_true low),
      UInt32.le_iff_toNat_le.1 (of_decide_eq_true high)⟩

theorem Text.isAlphanumeric_of_isAlphanum (text : Text) {c : Char} (h : c.isAlphanum = true) :
    text.isAlphanumeric c = true := by
  have ascii : c.toNat < 128 := by
    rcases Bool.or_eq_true_iff.1 h with alpha | digit
    · have := bounds_of_isAlpha alpha
      omega
    · have := bounds_of_isDigit digit
      omega
  rw [text.isAlphanumeric_ascii c ascii]
  exact h

/-- `std::mem::discriminant`. -/
def Token.discriminant (t : Token) : ℕ := t.ctorIdx

theorem Token.eof_of_discriminant {t : Token} (h : t.discriminant = Token.eof.discriminant) :
    t = .eof := by
  cases t <;> first | rfl | cases h

theorem Token.newline_of_discriminant {t : Token} (h : t.discriminant = Token.newline.discriminant) :
    t = .newline := by
  cases t <;> first | rfl | cases h

/-- `format!("{:?}", tok)`. -/
def Token.debug (text : Text) : Token → String
  | fromKw => "From"
  | matchKw => "Match"
  | whereKw => "Where"
  | traverse => "Traverse"
  | depth => "Depth"
  | summarize => "Summarize"
  | infer => "Infer"
  | correlate => "Correlate"
  | withKw => "With"
  | similar => "Similar"
  | toKw => "To"
  | classify => "Classify"
  | asKw => "As"
  | timeline => "Timeline"
  | sort => "Sort"
  | byKw => "By"
  | asc => "Asc"
  | desc => "Desc"
  | limit => "Limit"
  | store => "Store"
  | exportKw => "Export"
  | load => "Load"
  | filter => "Filter"
  | and => "And"
  | or => "Or"
  | not => "Not"
  | integer v => "Integer(" ++ toString v ++ ")"
  | float v => "Float(" ++ text.debugFloat v ++ ")"
  | str s => "Str(" ++ text.debugStr s ++ ")"
  | bool b => "Bool(" ++ toString b ++ ")"
  | null => "Null"
  | ident s => "Ident(" ++ text.debugStr s ++ ")"
  | eq => "Eq"
  | neq => "Neq"
  | ge => "Ge"
  | le => "Le"
  | gt => "Gt"
  | lt => "Lt"
  | assign => "Assign"
  | lparen => "LParen"
  | rparen => "RParen"
  | lbracket => "LBracket"
  | rbracket => "RBracket"
  | lbrace => "LBrace"
  | rbrace => "RBrace"
  | comma => "Comma"
  | dot => "Dot"
  | colon => "Colon"
  | newline => "Newline"
  | eof => "EOF"

/-- `format!("{:?}", val)`. -/
def debugValue (text : Text) : Ast.Value → String
  | .integer v => "Integer(" ++ toString v ++ ")"
  | .float v => "Float(" ++ text.debugFloat v ++ ")"
  | .string s => "String(" ++ text.debugStr s ++ ")"
  | .bool b => "Bool(" ++ toString b ++ ")"
  | .null => "Null"
  | .ident s => "Ident(" ++ text.debugStr s ++ ")"

/-- An error of the lexer or the parser, with its position. -/
inductive Error where
  | lex (line col : ℕ) (message : String)
  | parse (line col : ℕ) (message : String)
  deriving DecidableEq, Repr

/-- Why a run does not end with a value: an error is returned, an index is out of range, or a loop goes on
when the fuel is used up. -/
inductive Stop where
  | error (e : Error)
  | panic
  | outOfFuel
  deriving DecidableEq, Repr

/-- `i64::MAX`. -/
def i64Max : ℤ := 2 ^ 63 - 1

end TORdex.Tdxl
