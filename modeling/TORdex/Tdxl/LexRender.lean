import TORdex.Tdxl.FrontEnd
import TORdex.Tdxl.Lexer

/-!
# The lexer reads rendered statements

A word is read as its token wherever a blank or the end of the line follows it.
-/

namespace TORdex.Tdxl

open Ast

namespace Lexer

variable {text : Text} {lx : Lexer}

theorem skipWhitespace_of_visible {c : Char} {rest : List Char} (h : lx.rest = c :: rest)
    (blank : ¬(c = ' ' ∨ c = '\t' ∨ c = '\r')) (comment : c ≠ '#') : lx.skipWhitespace = lx := by
  have peek : lx.peek = some c := peek_eq_some.2 ⟨rest, h⟩
  rw [skipWhitespace]
  split
  · rfl
  · rename_i c' peek'
    obtain rfl := Option.some.inj (peek.symm.trans peek')
    rw [if_neg blank, dif_neg comment]

theorem skipWhitespace_of_space {rest : List Char} (h : lx.rest = ' ' :: rest) :
    lx.skipWhitespace = lx.advance.skipWhitespace := by
  have peek : lx.peek = some ' ' := peek_eq_some.2 ⟨rest, h⟩
  rw [skipWhitespace]
  split
  · rename_i none
    exact absurd (peek.symm.trans none) (by simp)
  · rename_i c' peek'
    obtain rfl := Option.some.inj (peek.symm.trans peek')
    exact if_pos (.inl rfl)

/-- The end of a word. -/
def Delimited (tail : List Char) : Prop := ∃ c rest, tail = c :: rest ∧ (c = ' ' ∨ c = '\n')

/-- Where a word starts, with more after it, the lexer reads its token. -/
structure Spells (text : Text) (word : List Char) (t : Token) : Prop where
  starts : ∃ c rest, word = c :: rest ∧ ¬(c = ' ' ∨ c = '\t' ∨ c = '\r') ∧ c ≠ '#'
  more : t ≠ .eof
  next : ∀ (lx : Lexer) (tail : List Char), lx.skipWhitespace.rest = word ++ tail → Delimited tail →
    ∃ span lx', lx.nextToken text = .ok ((t, span), lx') ∧ lx'.rest = tail

theorem takeWhile_word {p : Char → Bool} {word tail : List Char} (h : lx.rest = word ++ tail)
    (inside : ∀ c ∈ word, p c) (outside : ∀ c ∈ tail.head?, ¬p c) :
    (lx.takeWhile p).1 = word ∧ (lx.takeWhile p).2.rest = tail := by
  have stop : tail.takeWhile p = [] := by
    cases tail with
    | nil => rfl
    | cons c tail => exact List.takeWhile_cons_of_neg (outside c rfl)
  have split : (word ++ tail).takeWhile p = word := by
    rw [List.takeWhile_append_of_pos inside, stop, List.append_nil]
  constructor
  · show lx.rest.takeWhile p = word
    rw [h, split]
  · show (List.foldl _ lx (lx.rest.takeWhile p)).rest = tail
    rw [advances_rest, h, split, List.drop_left]

theorem isWordChar_ascii {c : Char} (h : c.toNat < 128) :
    isWordChar text c = (c.isAlphanum || c = '_') := by
  rw [isWordChar, text.isAlphanumeric_ascii c h]

theorem Delimited.not_isWordChar {tail : List Char} (h : Delimited tail) :
    ∀ c ∈ tail.head?, ¬isWordChar text c := by
  obtain ⟨c, rest, rfl, rfl | rfl⟩ := h
  · intro c hc
    obtain rfl := Option.some.inj hc
    rw [isWordChar_ascii (by decide)]
    decide
  · intro c hc
    obtain rfl := Option.some.inj hc
    rw [isWordChar_ascii (by decide)]
    decide

theorem spells_word {word : List Char} {t : Token} {c : Char} {rest : List Char} (hw : word = c :: rest)
    (start : c = '_' ∨ c.isAlpha) (inside : ∀ d ∈ rest, isWordChar text d)
    (stands : identOrKeyword (String.ofList word) = t) (more : t ≠ .eof) : Spells text word t := by
  have other : ∀ d : Char, d ≠ '_' → d.isAlpha = false → c ≠ d := by
    rintro d hd alpha rfl
    rcases start with rfl | start
    · exact hd rfl
    · exact Bool.false_ne_true (alpha.symm.trans start)
  have digit : ¬c.isDigit := by
    rcases start with rfl | start
    · decide
    · intro digit
      have := bounds_of_isAlpha start
      have := bounds_of_isDigit digit
      omega
  refine ⟨⟨c, rest, hw, ?_, other '#' (by decide) (by decide)⟩, more, fun lx tail h delimited => ?_⟩
  · simp only [not_or]
    exact ⟨other ' ' (by decide) (by decide), other '\t' (by decide) (by decide),
      other '\r' (by decide) (by decide)⟩
  have peek : lx.skipWhitespace.peek = some c := peek_eq_some.2 ⟨rest ++ tail, by rw [h, hw]; rfl⟩
  have all : ∀ d ∈ word, isWordChar text d := by
    rw [hw]
    exact List.forall_mem_cons.2 ⟨isWordChar_of_start start, inside⟩
  obtain ⟨read, left⟩ := takeWhile_word h all delimited.not_isWordChar
  refine ⟨(lx.skipWhitespace.line, lx.skipWhitespace.col), _, ?_, left⟩
  simp only [nextToken, peek]
  rw [if_neg (other '\n' (by decide) (by decide)), if_neg digit,
    if_neg (other '"' (by decide) (by decide)), if_neg (other '\'' (by decide) (by decide)),
    if_pos start]
  simp only [readIdentOrKeyword, read, stands]

theorem Delimited.not_isNumberChar {tail : List Char} (h : Delimited tail) :
    ∀ c ∈ tail.head?, ¬(c.isDigit || c = '.') = true := by
  obtain ⟨c, rest, rfl, rfl | rfl⟩ := h
  · intro c hc
    obtain rfl := Option.some.inj hc
    decide
  · intro c hc
    obtain rfl := Option.some.inj hc
    decide

theorem spells_nat {n : ℕ} (small : (n : ℤ) ≤ i64Max) : Spells text (toString n).toList (.integer n) := by
  have digits : (toString n).toList = Nat.toDigits 10 n := Nat.toList_repr
  have isDigit : ∀ c ∈ Nat.toDigits 10 n, c.isDigit :=
    fun c hc => Nat.isDigit_of_mem_toDigits (by decide) (by decide) hc
  obtain ⟨c, rest, hw⟩ := List.exists_cons_of_ne_nil (Nat.toDigits_ne_nil (n := n) (b := 10))
  have digit : c.isDigit := isDigit c (by rw [hw]; exact List.mem_cons_self)
  have other : ∀ d : Char, d.isDigit = false → c ≠ d := by
    rintro d hd rfl
    exact Bool.false_ne_true (hd.symm.trans digit)
  refine ⟨⟨c, rest, digits.trans hw, ?_, other '#' (by decide)⟩, nofun, fun lx tail h delimited => ?_⟩
  · simp only [not_or]
    exact ⟨other ' ' (by decide), other '\t' (by decide), other '\r' (by decide)⟩
  rw [digits] at h
  have peek : lx.skipWhitespace.peek = some c := peek_eq_some.2 ⟨rest ++ tail, by rw [h, hw]; rfl⟩
  have all : ∀ d ∈ Nat.toDigits 10 n, (d.isDigit || d = '.') = true :=
    fun d hd => by rw [isDigit d hd, Bool.true_or]
  have dot : '.' ∉ Nat.toDigits 10 n := fun hd => absurd (isDigit '.' hd) (by decide)
  obtain ⟨read, left⟩ := takeWhile_word h all delimited.not_isNumberChar
  refine ⟨(lx.skipWhitespace.line, lx.skipWhitespace.col), _, ?_, left⟩
  simp only [nextToken, peek]
  rw [if_neg (other '\n' (by decide)), if_pos digit]
  simp only [readNumber, read]
  rw [if_neg dot, Nat.ofDigitChars_toDigits (by decide) (by decide), if_pos small]

theorem escape_cases (c : Char) : (∃ e, escape c = ['\\', e] ∧ unescape e = c) ∨
    (escape c = [c] ∧ c ≠ '"' ∧ c ≠ '\\') := by
  unfold escape
  split
  · exact .inl ⟨'\\', rfl, rfl⟩
  · exact .inl ⟨'"', rfl, rfl⟩
  · exact .inl ⟨'n', rfl, rfl⟩
  · exact .inl ⟨'t', rfl, rfl⟩
  · exact .inl ⟨'r', rfl, rfl⟩
  · rename_i backslash quote _ _ _
    exact .inr ⟨rfl, quote, backslash⟩

theorem readStringLoop_of_peek {c : Char} (s : List Char) (h : lx.peek = some c) :
    readStringLoop s lx =
      if c = '"' then .ok (s, lx.advance)
      else if c = '\\' then
        match lx.advance.peek with
        | none => .error (.lex lx.advance.line lx.advance.col "unterminated string escape")
        | some c' => readStringLoop (s ++ [unescape c']) lx.advance.advance
      else readStringLoop (s ++ [c]) lx.advance := by
  rw [readStringLoop]
  split
  · rename_i none
    exact absurd (h.symm.trans none) (by simp)
  · rename_i c' some
    obtain rfl := Option.some.inj (h.symm.trans some)
    split_ifs
    · rfl
    · split <;> rename_i next <;> simp only [next]
    · rfl

/-- Reading an escaped string up to its closing quote. -/
theorem readStringLoop_escape (s acc tail : List Char)
    (h : lx.rest = s.flatMap escape ++ '"' :: tail) :
    ∃ lx', readStringLoop acc lx = .ok (acc ++ s, lx') ∧ lx'.rest = tail := by
  induction s generalizing lx acc with
  | nil =>
    have peek : lx.peek = some '"' := peek_eq_some.2 ⟨tail, h⟩
    refine ⟨lx.advance, ?_, by rw [advance_rest, h]; rfl⟩
    rw [readStringLoop_of_peek acc peek, if_pos rfl, List.append_nil]
  | cons c s ih =>
    rw [List.flatMap_cons, List.append_assoc] at h
    rw [← List.singleton_append, ← List.append_assoc]
    rcases escape_cases c with ⟨e, escaped, back⟩ | ⟨plain, quote, backslash⟩
    · rw [escaped] at h
      have peek : lx.peek = some '\\' := peek_eq_some.2 ⟨_, h⟩
      have next : lx.advance.rest = e :: (s.flatMap escape ++ '"' :: tail) := by
        rw [advance_rest, h]
        rfl
      have peek' : lx.advance.peek = some e := peek_eq_some.2 ⟨_, next⟩
      have after : lx.advance.advance.rest = s.flatMap escape ++ '"' :: tail := by
        rw [advance_rest, next]
        rfl
      obtain ⟨lx', read, left⟩ := ih (acc ++ [c]) after
      refine ⟨lx', ?_, left⟩
      rw [readStringLoop_of_peek acc peek, if_neg (by decide), if_pos rfl, peek']
      show readStringLoop (acc ++ [unescape e]) _ = _
      rw [back, read]
    · rw [plain] at h
      have peek : lx.peek = some c := peek_eq_some.2 ⟨_, h⟩
      have after : lx.advance.rest = s.flatMap escape ++ '"' :: tail := by
        rw [advance_rest, h]
        rfl
      obtain ⟨lx', read, left⟩ := ih (acc ++ [c]) after
      refine ⟨lx', ?_, left⟩
      rw [readStringLoop_of_peek acc peek, if_neg quote, if_neg backslash, read]

theorem spells_quote (s : String) : Spells text (quote s).toList (.str s) := by
  have chars : (quote s).toList = '"' :: (s.toList.flatMap escape ++ ['"']) := by
    simp [quote]
  refine ⟨⟨_, _, chars, by decide, by decide⟩, nofun, fun lx tail h _ => ?_⟩
  rw [chars] at h
  have peek : lx.skipWhitespace.peek = some '"' := peek_eq_some.2 ⟨_, h⟩
  have inside : lx.skipWhitespace.advance.rest = s.toList.flatMap escape ++ '"' :: tail := by
    rw [advance_rest, h]
    simp
  obtain ⟨lx', read, left⟩ := readStringLoop_escape s.toList [] tail inside
  refine ⟨(lx.skipWhitespace.line, lx.skipWhitespace.col), lx', ?_, left⟩
  simp only [nextToken, peek]
  rw [if_neg (by decide), if_neg (by decide), if_pos trivial, readString, read]
  show Except.ok ((Token.str (String.ofList s.toList), _), lx') = _
  rw [String.ofList_toList]

theorem nextToken_symbol {c : Char} {rest : List Char} (h : lx.skipWhitespace.rest = c :: rest)
    (symbol : c ∈ ['=', '!', '>', '<']) : lx.nextToken text =
      lx.skipWhitespace.readSymbol c lx.skipWhitespace.line lx.skipWhitespace.col := by
  have peek : lx.skipWhitespace.peek = some c := peek_eq_some.2 ⟨rest, h⟩
  simp only [nextToken, peek]
  simp only [List.mem_cons, List.not_mem_nil, or_false] at symbol
  rcases symbol with rfl | rfl | rfl | rfl <;> rfl

theorem visible_of_symbol {c : Char} (symbol : c ∈ ['=', '!', '>', '<']) :
    ¬(c = ' ' ∨ c = '\t' ∨ c = '\r') ∧ c ≠ '#' := by
  simp only [List.mem_cons, List.not_mem_nil, or_false] at symbol
  rcases symbol with rfl | rfl | rfl | rfl <;> decide

/-- An operator of two characters. -/
theorem spells_long {c : Char} {t : Token} (symbol : c ∈ ['=', '!', '>', '<']) (more : t ≠ .eof)
    (reads : ∀ (lx : Lexer) line col, lx.peekNth 1 = some '=' →
      lx.readSymbol c line col = .ok ((t, line, col), lx.advance.advance)) :
    Spells text [c, '='] t := by
  refine ⟨⟨c, ['='], rfl, visible_of_symbol symbol⟩, more, fun lx tail h _ => ?_⟩
  refine ⟨_, _, (nextToken_symbol h symbol).trans (reads _ _ _ ?_), ?_⟩
  · rw [peekNth, h]
    rfl
  · rw [advance_rest, advance_rest, h]
    rfl

/-- An operator of one character. -/
theorem spells_short {c : Char} {t : Token} (symbol : c ∈ ['=', '!', '>', '<']) (more : t ≠ .eof)
    (reads : ∀ (lx : Lexer) line col, lx.peekNth 1 ≠ some '=' →
      lx.readSymbol c line col = .ok ((t, line, col), lx.advance)) :
    Spells text [c] t := by
  refine ⟨⟨c, [], rfl, visible_of_symbol symbol⟩, more, fun lx tail h delimited => ?_⟩
  refine ⟨_, _, (nextToken_symbol h symbol).trans (reads _ _ _ ?_), ?_⟩
  · obtain ⟨d, rest, rfl, rfl | rfl⟩ := delimited
    · rw [peekNth, h]
      show some ' ' ≠ some '='
      decide
    · rw [peekNth, h]
      show some '\n' ≠ some '='
      decide
  · rw [advance_rest, h]
    rfl

/-! ## The words of statements -/

/-- A word is spelled for the lexer. -/
abbrev Spelled (text : Text) (word : Word) : Prop := Spells text word.1.toList word.2

/-- A word of letters for the token of a keyword. -/
def IsKeyword (word : Word) : Prop :=
  word.1.toList.all Char.isAlpha = true ∧ word.1.toList ≠ [] ∧ identOrKeyword word.1 = word.2 ∧
    word.2 ≠ .eof

instance (word : Word) : Decidable (IsKeyword word) :=
  inferInstanceAs (Decidable (_ ∧ _ ∧ _ ∧ _))

theorem spelled_keyword {word : Word} (h : IsKeyword word) : Spelled text word := by
  obtain ⟨letters, some, stands, more⟩ := h
  obtain ⟨c, rest, hs⟩ := List.exists_cons_of_ne_nil some
  rw [hs, List.all_cons, Bool.and_eq_true, List.all_eq_true] at letters
  refine spells_word hs (.inr letters.1) (fun d hd => ?_) ?_ more
  · exact isWordChar_of_start (.inr (letters.2 d hd))
  · rw [String.ofList_toList]
    exact stands

theorem spelled_value {value : Ast.Value} (plain : PlainValue text value) :
    Spelled text (valueWord value) := by
  cases value with
  | integer v =>
    obtain ⟨n, rfl⟩ := Int.eq_ofNat_of_zero_le plain.1
    exact spells_nat plain.2
  | float v => exact plain.elim
  | string s => exact spells_quote s
  | bool b =>
    cases b
    · exact spelled_keyword (by decide)
    · exact spelled_keyword (by decide)
  | null => exact spelled_keyword (by decide)
  | ident s =>
    obtain ⟨⟨c, rest, hs, start, inside⟩, stands⟩ := plain
    exact spells_word hs start inside (by rwa [String.ofList_toList]) nofun

theorem spelled_op (op : BinOp) : Spelled text (opWord op) := by
  cases op with
  | eq =>
    refine spells_long (c := '=') (by decide) nofun fun lx line col h => ?_
    exact congrArg Except.ok (if_pos h)
  | neq =>
    refine spells_long (c := '!') (by decide) nofun fun lx line col h => ?_
    exact if_pos h
  | ge =>
    refine spells_long (c := '>') (by decide) nofun fun lx line col h => ?_
    exact congrArg Except.ok (if_pos h)
  | le =>
    refine spells_long (c := '<') (by decide) nofun fun lx line col h => ?_
    exact congrArg Except.ok (if_pos h)
  | gt =>
    refine spells_short (c := '>') (by decide) nofun fun lx line col h => ?_
    exact congrArg Except.ok (if_neg h)
  | lt =>
    refine spells_short (c := '<') (by decide) nofun fun lx line col h => ?_
    exact congrArg Except.ok (if_neg h)
  | and => exact spelled_keyword (by decide)
  | or => exact spelled_keyword (by decide)

theorem spelled_nil : ∀ word ∈ [], Spelled text word := by simp

theorem spelled_cons {word : Word} {words : List Word} (h : Spelled text word)
    (hs : ∀ word ∈ words, Spelled text word) : ∀ word' ∈ word :: words, Spelled text word' :=
  List.forall_mem_cons.2 ⟨h, hs⟩

theorem spelled_expr {expr : BinExpr} (plain : PlainExpr text expr) :
    ∀ word ∈ exprWords expr, Spelled text word := by
  cases expr with
  | field field op value =>
    exact spelled_cons (spells_quote field) (spelled_cons (spelled_op op)
      (spelled_cons (spelled_value plain) spelled_nil))
  | expr left op right => exact plain.elim
  | value value => exact spelled_cons (spelled_value plain) spelled_nil

theorem spelled_option {keyword : Word} {value : Option Ast.Value} (h : Spelled text keyword)
    (plain : ∀ v ∈ value, PlainValue text v) : ∀ word ∈ optionWords keyword value, Spelled text word := by
  cases value with
  | none => exact spelled_nil
  | some value => exact spelled_cons h (spelled_cons (spelled_value (plain value rfl)) spelled_nil)

theorem spelled_stmt {stmt : Stmt} (plain : PlainStmt text stmt) :
    ∀ word ∈ stmtWords stmt, Spelled text word := by
  cases stmt with
  | fromSource v | infer v | exportTo v | load v =>
    refine spelled_cons (spelled_keyword (by decide)) ?_
    exact spelled_cons (spelled_value plain) spelled_nil
  | matchExpr expr | whereExpr expr | filter expr =>
    exact spelled_cons (spelled_keyword (by decide)) (spelled_expr plain)
  | correlate v | similar v | classify v | store v =>
    refine spelled_cons (spelled_keyword (by decide)) (spelled_cons (spelled_keyword (by decide)) ?_)
    exact spelled_cons (spelled_value plain) spelled_nil
  | traverse relation depth =>
    cases depth with
    | none =>
      refine spelled_cons (spelled_keyword (by decide)) ?_
      exact spelled_cons (spelled_value plain.1) spelled_nil
    | some n =>
      refine spelled_cons (spelled_keyword (by decide)) (spelled_cons (spelled_value plain.1) ?_)
      refine spelled_cons (spelled_keyword (by decide)) ?_
      exact spelled_cons (spells_nat (plain.2 n rfl)) spelled_nil
  | summarize => exact spelled_cons (spelled_keyword (by decide)) spelled_nil
  | timeline start stop =>
    have fromWord : Spelled text ("FROM", .fromKw) := spelled_keyword (by decide)
    have toWord : Spelled text ("TO", .toKw) := spelled_keyword (by decide)
    refine spelled_cons (spelled_keyword (by decide)) (List.forall_mem_append.2 ⟨?_, ?_⟩)
    · exact spelled_option fromWord plain.1
    · exact spelled_option toWord plain.2
  | sort field order =>
    refine spelled_cons (spelled_keyword (by decide)) (spelled_cons (spelled_keyword (by decide)) ?_)
    refine spelled_cons (spelled_value plain) (spelled_cons ?_ spelled_nil)
    cases order <;> exact spelled_keyword (by decide)
  | limit n =>
    refine spelled_cons (spelled_keyword (by decide)) ?_
    exact spelled_cons (spells_nat plain) spelled_nil

/-! ## Lines -/

theorem tokenizeLoop_step {lx' : Lexer} {tok : Spanned} {fuel : ℕ} {tokens : List Spanned}
    (next : lx.nextToken text = .ok (tok, lx')) (more : tok.1 ≠ .eof) :
    tokenizeLoop text (fuel + 1) tokens lx = tokenizeLoop text fuel (tokens ++ [tok]) lx' := by
  rw [tokenizeLoop, next]
  exact if_neg more

/-- A word, maybe after a space. -/
theorem Spells.here {word tail : List Char} {t : Token} (h : Spells text word t)
    (rest : lx.rest = word ++ tail ∨ lx.rest = ' ' :: (word ++ tail)) :
    lx.skipWhitespace.rest = word ++ tail := by
  obtain ⟨c, letters, rfl, blank, comment⟩ := h.starts
  rcases rest with rest | rest
  · rw [skipWhitespace_of_visible rest blank comment, rest]
  · have next : lx.advance.rest = c :: letters ++ tail := by
      rw [advance_rest, rest]
      rfl
    rw [skipWhitespace_of_space rest, skipWhitespace_of_visible next blank comment, next]

variable (text) in
theorem nextToken_newline {tail : List Char} (h : lx.rest = '\n' :: tail) :
    ∃ span lx', lx.nextToken text = .ok ((.newline, span), lx') ∧ lx'.rest = tail := by
  have visible := skipWhitespace_of_visible h (by decide) (by decide)
  have peek : lx.peek = some '\n' := peek_eq_some.2 ⟨tail, h⟩
  refine ⟨(lx.line, lx.col), lx.advance, ?_, by rw [advance_rest, h]; rfl⟩
  simp only [nextToken, visible, peek]
  rw [if_pos trivial]

variable (text) in
theorem nextToken_nil (h : lx.rest = []) :
    ∃ span lx', lx.nextToken text = .ok ((.eof, span), lx') := by
  have none : lx.peek = none := by
    rw [peek, h]
    rfl
  have skip : lx.skipWhitespace = lx := by
    rw [skipWhitespace]
    split
    · rfl
    · rename_i some
      exact absurd (none.symm.trans some) (by simp)
  refine ⟨(lx.line, lx.col), lx, ?_⟩
  simp only [nextToken, skip, none]

/-- The words of a line after its first. -/
def tailChars (words : List Word) : List Char := words.flatMap fun word => ' ' :: word.1.toList

theorem delimited_tailChars (words : List Word) (tail : List Char) :
    Delimited (tailChars words ++ '\n' :: tail) := by
  cases words with
  | nil => exact ⟨'\n', tail, rfl, .inr rfl⟩
  | cons word words => exact ⟨' ', _, rfl, .inl rfl⟩

theorem lex_tail {words : List Word} {tail : List Char} (spelled : ∀ word ∈ words, Spelled text word)
    (h : lx.rest = tailChars words ++ '\n' :: tail) :
    ∃ (spans : List Spanned) (lx' : Lexer), spans.map (·.1) = words.map (·.2) ++ [.newline] ∧
      lx'.rest = tail ∧ ∀ fuel tokens, tokenizeLoop text (fuel + (words.length + 1)) tokens lx =
        tokenizeLoop text fuel (tokens ++ spans) lx' := by
  induction words generalizing lx with
  | nil =>
    obtain ⟨span, lx', next, left⟩ := nextToken_newline text h
    exact ⟨[(.newline, span)], lx', rfl, left, fun fuel tokens => tokenizeLoop_step next nofun⟩
  | cons word words ih =>
    obtain ⟨here, spelled⟩ := List.forall_mem_cons.1 spelled
    have rest : lx.rest = ' ' :: (word.1.toList ++ (tailChars words ++ '\n' :: tail)) := by
      rw [h, tailChars, List.flatMap_cons]
      simp [tailChars]
    obtain ⟨span, lx₁, next, left⟩ := here.next lx _ (here.here (.inr rest)) (delimited_tailChars _ _)
    obtain ⟨spans, lx', read, left, runs⟩ := ih spelled left
    refine ⟨(word.2, span) :: spans, lx', ?_, left, fun fuel tokens => ?_⟩
    · rw [List.map_cons, read]
      rfl
    · rw [List.length_cons, ← Nat.add_assoc fuel, tokenizeLoop_step next here.more, runs,
        List.append_assoc]
      rfl

theorem intercalate_words (word : Word) (words : List Word) :
    (" ".intercalate ((word :: words).map (·.1))).toList = word.1.toList ++ tailChars words := by
  induction words generalizing word with
  | nil => simp [tailChars]
  | cons next words ih =>
    have := ih next
    rw [List.map_cons] at this
    rw [List.map_cons, List.map_cons, String.intercalate_cons_cons, String.toList_append,
      String.toList_append, this]
    simp [tailChars]

theorem renderStmt_toList (stmt : Stmt) : ∃ word words, stmtWords stmt = word :: words ∧
    (renderStmt stmt).toList = word.1.toList ++ tailChars words ++ ['\n'] := by
  obtain ⟨word, words, split⟩ : ∃ word words, stmtWords stmt = word :: words := by
    unfold stmtWords
    split <;> exact ⟨_, _, rfl⟩
  refine ⟨word, words, split, ?_⟩
  rw [renderStmt, split, String.toList_append, intercalate_words]
  rfl

/-- The lexer reads the line of a statement as its tokens. -/
theorem lex_stmt {stmt : Stmt} {tail : List Char} (plain : PlainStmt text stmt)
    (h : lx.rest = (renderStmt stmt).toList ++ tail) :
    ∃ (spans : List Spanned) (lx' : Lexer),
      spans.map (·.1) = (stmtWords stmt).map (·.2) ++ [.newline] ∧ lx'.rest = tail ∧
      ∃ rounds, ∀ fuel tokens, tokenizeLoop text (fuel + rounds) tokens lx =
        tokenizeLoop text fuel (tokens ++ spans) lx' := by
  obtain ⟨word, words, split, chars⟩ := renderStmt_toList stmt
  have spelled := spelled_stmt plain
  rw [split] at spelled
  obtain ⟨here, spelled⟩ := List.forall_mem_cons.1 spelled
  have rest : lx.rest = word.1.toList ++ (tailChars words ++ '\n' :: tail) := by
    rw [h, chars]
    simp
  obtain ⟨span, lx₁, next, left⟩ := here.next lx _ (here.here (.inl rest)) (delimited_tailChars _ _)
  obtain ⟨spans, lx', read, left, runs⟩ := lex_tail spelled left
  refine ⟨(word.2, span) :: spans, lx', ?_, left, words.length + 1 + 1, fun fuel tokens => ?_⟩
  · rw [split, List.map_cons, read]
    rfl
  · rw [← Nat.add_assoc fuel, tokenizeLoop_step next here.more, runs, List.append_assoc]
    rfl

/-- The tokens of statements, one line each. -/
def lineTokens (statements : List Stmt) : List Token :=
  statements.flatMap fun stmt => (stmtWords stmt).map (·.2) ++ [.newline]

theorem lineTokens_cons (stmt : Stmt) (statements : List Stmt) : lineTokens (stmt :: statements) =
    (stmtWords stmt).map (·.2) ++ [.newline] ++ lineTokens statements := rfl

theorem lex_statements {statements : List Stmt} (plain : ∀ stmt ∈ statements, PlainStmt text stmt)
    (h : lx.rest = statements.flatMap fun stmt => (renderStmt stmt).toList) :
    ∃ spans : List Spanned, spans.map (·.1) = lineTokens statements ++ [.eof] ∧
      ∃ rounds, ∀ fuel tokens, tokenizeLoop text (fuel + rounds) tokens lx = .ok (tokens ++ spans) := by
  induction statements generalizing lx with
  | nil =>
    obtain ⟨span, lx', next⟩ := nextToken_nil text h
    refine ⟨[(.eof, span)], rfl, 1, fun fuel tokens => ?_⟩
    rw [tokenizeLoop, next]
    exact if_pos rfl
  | cons stmt statements ih =>
    obtain ⟨here, plain⟩ := List.forall_mem_cons.1 plain
    obtain ⟨spans, lx', read, left, rounds, runs⟩ := lex_stmt here h
    obtain ⟨spans', read', rounds', runs'⟩ := ih plain left
    refine ⟨spans ++ spans', ?_, rounds' + rounds, fun fuel tokens => ?_⟩
    · rw [List.map_append, read, read', lineTokens_cons, List.append_assoc _ (lineTokens _)]
    · rw [← Nat.add_assoc, runs, runs', List.append_assoc]

/-- The lexer reads rendered statements. -/
theorem tokenize_render {statements : List Stmt} (plain : ∀ stmt ∈ statements, PlainStmt text stmt) :
    ∃ tokens : List Spanned, tokens.map (·.1) = lineTokens statements ++ [.eof] ∧
      ∀ fuel, (render statements).length < fuel →
        tokenize text fuel (new (render statements)) = .ok tokens := by
  have rest : (new (render statements)).rest =
      statements.flatMap fun stmt => (renderStmt stmt).toList := by
    show (render statements).toList = _
    rw [render, String.toList_join, List.flatMap_map]
  obtain ⟨tokens, read, rounds, runs⟩ := lex_statements plain rest
  obtain ⟨r, ends⟩ := tokenizeLoop_ends text (new (render statements)) []
  have result := (ends ((new (render statements)).rest.length + 1 + rounds) (by omega)).symm.trans (runs _ [])
  refine ⟨tokens, read, fun fuel enough => (ends fuel ?_).trans result⟩
  show (render statements).toList.length < fuel
  rwa [String.length_toList]

end Lexer

end TORdex.Tdxl
