import Mathlib.Algebra.Order.Field.Rat
import Mathlib.Data.List.DropRight
import Mathlib.Tactic.NormNum
import TORdex.Tdxl.FrontEnd

/-!
# The numbers of a source

Where the lexer stands on a digit it reads on over digits and dots.  A run of digits and dots writes a number when
it has at most one dot.  The token is another number when the run does not fit, and when the run had begun before
the token, with a dot.
-/

namespace TORdex.Tdxl

/-- Digits and dots. -/
def isNumeral (c : Char) : Bool := c.isDigit || c = '.'

/-- The number that a run of digits and dots writes: none with more than one dot. -/
def writtenNumber (run : List Char) : Option ℚ :=
  match run.count '.' with
  | 0 => some (Nat.ofDigitChars 10 run 0)
  | 1 =>
    let places := (run.dropWhile (· ≠ '.')).length - 1
    some (Nat.ofDigitChars 10 (run.filter (· ≠ '.')) 0 / 10 ^ places)
  | _ => none

/-- From here on a number is rounded to infinity: half a unit above the largest float. -/
def floatOverflow : ℚ := 2 ^ 1024 - 2 ^ 970

/-- The number of a decimal. -/
def decimalValue (d : Decimal) : ℚ := (if d.negative then -1 else 1) * d.mantissa * (10 : ℚ) ^ d.exponent

/-- The float is next to the number: within one unit in the last place. -/
def Near (x : F64) (q : ℚ) : Prop :=
  ∃ d, x = .finite d ∧ |decimalValue d - q| ≤ max (q / 2 ^ 52) (1 / 2 ^ 1074)

/-- A run with a digit at its beginning. -/
def StartsDigit (run : List Char) : Prop := run.head?.any Char.isDigit = true

instance (run : List Char) : Decidable (StartsDigit run) := inferInstanceAs (Decidable (_ = _))

/-- How the standard library reads a float from digits and dots: it rounds a number with one dot, and reads nothing
with more dots. -/
structure ReadsDecimals (text : Text) : Prop where
  point : ∀ run, (∀ c ∈ run, isNumeral c = true) → StartsDigit run → ∀ q ∈ writtenNumber run, '.' ∈ run →
    ∃ x, text.parseFloat (String.ofList run) = some x ∧
      (q < floatOverflow → Near x q) ∧ (floatOverflow ≤ q → x = .infinite false)
  points : ∀ run, (∀ c ∈ run, isNumeral c = true) → 2 ≤ run.count '.' → text.parseFloat (String.ofList run) = none

/-- The token is the number that the run writes: the same integer, or a float next to it. -/
def Denotes (run : List Char) : Token → Prop
  | .integer v => '.' ∉ run ∧ writtenNumber run = some (v : ℚ)
  | .float x => ∃ q ∈ writtenNumber run, Near x q
  | _ => False

/-- The run is an `i64`, or has one dot and a float near to it. -/
def Readable (run : List Char) : Prop :=
  '.' ∉ run ∧ (Nat.ofDigitChars 10 run 0 : ℤ) ≤ i64Max ∨ '.' ∈ run ∧ ∃ q ∈ writtenNumber run, q < floatOverflow

instance (run : List Char) : Decidable (Readable run) := inferInstanceAs (Decidable (_ ∨ _))

section Written

variable {run : List Char}

theorem writtenNumber_integer (h : '.' ∉ run) : writtenNumber run = some (Nat.ofDigitChars 10 run 0 : ℚ) := by
  unfold writtenNumber
  rw [List.count_eq_zero_of_not_mem h]
  rfl

theorem writtenNumber_points (h : 2 ≤ run.count '.') : writtenNumber run = none := by
  unfold writtenNumber
  obtain ⟨n, hn⟩ := Nat.exists_eq_add_of_le h
  rw [hn, Nat.add_comm]
  rfl

theorem count_dot (dot : '.' ∈ run) : run.count '.' = 1 ∨ 2 ≤ run.count '.' := by
  have := List.count_pos_iff.2 dot
  omega

end Written

namespace Lexer

/-- The run of digits and dots at the next token. -/
def run (lx : Lexer) : List Char := lx.skipWhitespace.rest.takeWhile isNumeral

/-- The digits and dots of the source right before the next token. -/
def lead (source : List Char) (lx : Lexer) : List Char :=
  (source.take (source.length - lx.skipWhitespace.rest.length)).rtakeWhile isNumeral

/-- The token that `read_number` makes of a run. -/
def numberToken (text : Text) (run : List Char) : Token :=
  if '.' ∈ run then .float ((text.parseFloat (String.ofList run)).getD (.finite ⟨false, 0, 0⟩))
  else
    let v : ℤ := Nat.ofDigitChars 10 run 0
    .integer (if v ≤ i64Max then v else 0)

/-- A token, the run of digits and dots at its place, and those right before it. -/
structure Sighting where
  token : Token
  lead : List Char
  run : List Char
  deriving DecidableEq

/-- The whole run of digits and dots around the beginning of the token. -/
def Sighting.whole (s : Sighting) : List Char := s.lead ++ s.run

/-- The tokens of `tokenize`, with the digits and dots around them. -/
def sightings (text : Text) (source : List Char) : ℕ → Lexer → List Sighting
  | 0, _ => []
  | fuel + 1, lx =>
    match lx.nextToken text with
    | .error _ => []
    | .ok (tok, next) =>
      ⟨tok.1, lx.lead source, lx.run⟩ :: if tok.1 = .eof then [] else sightings text source fuel next

variable {text : Text} {lx lx' : Lexer} {tok : Spanned} {source : List Char}

theorem map_sightings {fuel : ℕ} {tokens all : List Spanned} (h : tokenizeLoop text fuel tokens lx = .ok all) :
    all.map (·.1) = tokens.map (·.1) ++ (sightings text source fuel lx).map (·.token) := by
  induction fuel generalizing tokens lx with
  | zero => cases h
  | succ fuel ih =>
    rw [tokenizeLoop] at h
    rw [sightings]
    cases step : lx.nextToken text with
    | error e =>
      rw [step] at h
      cases h
    | ok r =>
      rw [step] at h
      by_cases eof : r.1.1 = .eof
      · rw [← Except.ok.inj ((if_pos eof).symm.trans h)]
        simp [eof]
      · rw [ih ((if_neg eof).symm.trans h)]
        simp [eof]

/-! ## What stands before a token -/

/-- The lexer stands in the source, and not in the middle of digits. -/
def Apart (source : List Char) (lx : Lexer) : Prop :=
  ∃ before, source = before ++ lx.rest ∧
    ∀ c ∈ before.getLast?, ∀ d ∈ lx.rest.head?, d.isDigit = true → c.isDigit = false

theorem apart_new (input : String) : Apart input.toList (new input) := ⟨[], rfl, nofun⟩

/-- After a character that is no digit. -/
theorem apart_of_last {l : List Char} {c : Char} (inside : lx.rest <:+ source)
    (taken : lx.rest = l ++ c :: lx'.rest) (other : c.isDigit = false) : Apart source lx' := by
  obtain ⟨before, rfl⟩ := inside
  refine ⟨before ++ l ++ [c], by simp [taken], fun d hd _ _ _ => ?_⟩
  rw [List.getLast?_concat] at hd
  exact Option.some.inj hd ▸ other

theorem apart_advance {c : Char} (inside : lx.rest <:+ source) (peek : lx.peek = some c)
    (other : c.isDigit = false) : Apart source lx.advance := by
  obtain ⟨rest, hr⟩ := peek_eq_some.1 peek
  exact apart_of_last (l := []) inside (by rw [advance_rest, hr]; rfl) other

/-- After a loop that takes all digits. -/
theorem apart_takeWhile {p : Char → Bool} (inside : lx.rest <:+ source)
    (digits : ∀ c : Char, c.isDigit = true → p c = true) : Apart source (lx.takeWhile p).2 := by
  obtain ⟨before, rfl⟩ := inside
  refine ⟨before ++ lx.rest.takeWhile p, ?_, fun c _ d hd digit => ?_⟩
  · rw [takeWhile_rest, List.append_assoc, List.takeWhile_append_dropWhile]
  · rw [takeWhile_rest] at hd
    have stopped := List.head?_dropWhile_not p lx.rest
    rw [show (lx.rest.dropWhile p).head? = some d from hd] at stopped
    simp [digits d digit] at stopped

theorem apart_skipWhitespace (apart : Apart source lx) : Apart source lx.skipWhitespace := by
  fun_induction skipWhitespace lx with
  | case1 => exact apart
  | case2 lx c peek blank ih =>
    refine ih (apart_advance (apart.imp fun _ h => h.1.symm) peek ?_)
    rcases blank with rfl | rfl | rfl <;> rfl
  | case3 lx peek _ ih =>
    refine ih (apart_takeWhile (apart.imp fun _ h => h.1.symm) fun c digit => ?_)
    refine decide_eq_true ?_
    rintro rfl
    exact absurd digit (by decide)
  | case4 => exact apart

theorem readStringLoop_last {s s' : List Char} (h : readStringLoop s lx = .ok (s', lx')) :
    ∃ init, lx.rest = init ++ '"' :: lx'.rest := by
  fun_induction readStringLoop s lx with
  | case1 => cases h
  | case2 s lx peek =>
    obtain ⟨-, rfl⟩ := Prod.mk.inj (Except.ok.inj h)
    obtain ⟨rest, hr⟩ := peek_eq_some.1 peek
    exact ⟨[], by rw [advance_rest, hr]; rfl⟩
  | case3 => cases h
  | case4 s lx c peek' peek _ ih =>
    obtain ⟨init, taken⟩ := ih h
    obtain ⟨rest, hr⟩ := peek_eq_some.1 peek
    obtain ⟨rest', hr'⟩ := peek_eq_some.1 peek'
    rw [advance_rest, hr'] at taken
    rw [advance_rest, hr, List.tail_cons] at hr'
    exact ⟨'\\' :: c :: init, by rw [hr, hr', show rest' = _ from taken]; rfl⟩
  | case5 s lx c peek _ _ ih =>
    obtain ⟨init, taken⟩ := ih h
    obtain ⟨rest, hr⟩ := peek_eq_some.1 peek
    rw [advance_rest, hr] at taken
    exact ⟨c :: init, by rw [hr, show rest = _ from taken]; rfl⟩

theorem apart_readString {c : Char} {line col : ℕ} (inside : lx.rest <:+ source) (peek : lx.peek = some c)
    (h : lx.readString line col = .ok (tok, lx')) : Apart source lx' := by
  unfold readString at h
  cases hs : readStringLoop [] lx.advance with
  | error e =>
    rw [hs] at h
    cases h
  | ok r =>
    rw [hs] at h
    obtain ⟨-, rfl⟩ := Prod.mk.inj (Except.ok.inj h)
    obtain ⟨init, taken⟩ := readStringLoop_last hs
    obtain ⟨rest, hr⟩ := peek_eq_some.1 peek
    rw [advance_rest, hr] at taken
    exact apart_of_last (l := c :: init) inside (by rw [hr, show rest = _ from taken]; rfl) rfl

theorem apart_readRawString {line col : ℕ} (inside : lx.rest <:+ source)
    (h : lx.readRawString line col = .ok (tok, lx')) : Apart source lx' := by
  have further : (lx.advance.takeWhile (· ≠ '\'')).2.rest <:+ source := by
    rw [takeWhile_rest, advance_rest]
    exact (List.dropWhile_suffix _).trans ((List.tail_suffix _).trans inside)
  simp only [readRawString] at h
  cases hp : (lx.advance.takeWhile (· ≠ '\'')).2.peek with
  | none =>
    rw [hp] at h
    cases h
  | some c' =>
    rw [hp] at h
    obtain ⟨-, rfl⟩ := Prod.mk.inj (Except.ok.inj h)
    refine apart_advance further hp ?_
    have stopped := List.head?_dropWhile_not (· ≠ '\'') lx.advance.rest
    rw [← takeWhile_rest] at stopped
    rw [show (lx.advance.takeWhile (· ≠ '\'')).2.rest.head? = some c' from hp] at stopped
    have quote : c' = '\'' := by simpa using stopped
    rw [quote]
    rfl

/-- After `=` in the second place. -/
theorem apart_two (inside : lx.rest <:+ source) (second : lx.peekNth 1 = some '=') :
    Apart source lx.advance.advance := by
  unfold peekNth at second
  have peek : lx.advance.peek = some '=' := by
    unfold Lexer.peek
    rwa [advance_rest, List.head?_tail]
  refine apart_advance ?_ peek rfl
  rw [advance_rest]
  exact (List.tail_suffix _).trans inside

theorem apart_readOperator {c : Char} {line col : ℕ} {long short : Token} (inside : lx.rest <:+ source)
    (peek : lx.peek = some c) (other : c.isDigit = false) :
    Apart source (lx.readOperator long short line col).2 := by
  unfold readOperator
  split_ifs with second
  · exact apart_two inside second
  · exact apart_advance inside peek other

theorem apart_readSymbol {c : Char} {line col : ℕ} (inside : lx.rest <:+ source) (peek : lx.peek = some c)
    (other : c.isDigit = false) (h : lx.readSymbol c line col = .ok (tok, lx')) : Apart source lx' := by
  have one := apart_advance inside peek other
  unfold readSymbol at h
  split at h
  case h_10 | h_12 | h_13 =>
    have next : _ = lx' := congrArg Prod.snd (Except.ok.inj h)
    exact next ▸ apart_readOperator inside peek other
  case h_11 =>
    split_ifs at h with second
    obtain ⟨-, rfl⟩ := Prod.mk.inj (Except.ok.inj h)
    exact apart_two inside second
  case h_14 => cases h
  all_goals
    obtain ⟨-, rfl⟩ := Prod.mk.inj (Except.ok.inj h)
    exact one

/-- The lexer never stops in the middle of digits. -/
theorem apart_nextToken (apart : Apart source lx) (h : lx.nextToken text = .ok (tok, lx')) :
    Apart source lx' := by
  have here := apart_skipWhitespace apart
  have inside : lx.skipWhitespace.rest <:+ source := here.imp fun _ h => h.1.symm
  simp only [nextToken] at h
  cases peek : lx.skipWhitespace.peek with
  | none =>
    rw [peek] at h
    obtain ⟨-, rfl⟩ := Prod.mk.inj (Except.ok.inj h)
    exact here
  | some c =>
    simp only [peek] at h
    split_ifs at h with newline digit quote raw word
    · obtain ⟨-, rfl⟩ := Prod.mk.inj (Except.ok.inj h)
      exact apart_advance inside peek (newline ▸ rfl)
    · have next : _ = lx' := congrArg Prod.snd (Except.ok.inj h)
      refine next ▸ ?_
      have loop : Apart source (lx.skipWhitespace.takeWhile fun c => c.isDigit || c = '.').2 :=
        apart_takeWhile inside fun c digit => by rw [digit]; rfl
      simp only [readNumber]
      split_ifs <;> exact loop
    · exact apart_readString inside peek h
    · exact apart_readRawString inside h
    · have next : _ = lx' := congrArg Prod.snd (Except.ok.inj h)
      refine next ▸ apart_takeWhile inside fun c digit => ?_
      unfold isWordChar
      rw [text.isAlphanumeric_of_isAlphanum (by simp [Char.isAlphanum, digit]), Bool.true_or]
    · exact apart_readSymbol inside peek (by simpa using digit) h

/-- The lexer stands on the digit that its run begins with. -/
theorem exists_digit (digit : StartsDigit lx.run) :
    ∃ d, lx.skipWhitespace.peek = some d ∧ d.isDigit = true := by
  unfold StartsDigit run at digit
  unfold Lexer.peek
  cases rest : lx.skipWhitespace.rest with
  | nil =>
    rw [rest] at digit
    cases digit
  | cons d ds =>
    rw [rest, List.takeWhile_cons] at digit
    split_ifs at digit
    · exact ⟨d, rfl, by simpa using digit⟩
    · cases digit

/-- Digits and dots right before a number end with a dot. -/
theorem dot_mem_lead (apart : Apart source lx) (digit : StartsDigit lx.run) (more : lx.lead source ≠ []) :
    '.' ∈ lx.lead source := by
  obtain ⟨before, rfl, notDigits⟩ := apart_skipWhitespace apart
  have same : lx.lead (before ++ lx.skipWhitespace.rest) = before.rtakeWhile isNumeral := by
    unfold lead
    rw [List.length_append, Nat.add_sub_cancel, List.take_left]
  rw [same] at more ⊢
  obtain ⟨init, c, rfl⟩ : ∃ init c, before = init ++ [c] := by
    rcases List.eq_nil_or_concat before with rfl | h
    · exact absurd rfl more
    · obtain ⟨init, c, rfl⟩ := h
      exact ⟨init, c, List.concat_eq_append⟩
  rw [List.rtakeWhile_concat] at more ⊢
  split_ifs at more ⊢ with numeral
  · obtain ⟨d, hd, isDigit⟩ := exists_digit digit
    have other := notDigits c (by simp) d hd isDigit
    have dot : c = '.' := by simpa [isNumeral, other] using numeral
    simp [dot]
  · exact absurd rfl more

/-- A run that begins with a digit is read as a number. -/
theorem nextToken_number (h : lx.nextToken text = .ok (tok, lx')) (digit : StartsDigit lx.run) :
    tok.1 = numberToken text lx.run := by
  obtain ⟨d, peek, isDigit⟩ := exists_digit digit
  have newline : d ≠ '\n' := by
    rintro rfl
    exact absurd isDigit (by decide)
  simp only [nextToken, peek, newline, isDigit, if_true, if_false] at h
  have token := congrArg (fun r => r.1.1) (Except.ok.inj h)
  have same : (lx.skipWhitespace.takeWhile fun c => c.isDigit || c = '.').1 = lx.run := rfl
  rw [← token]
  unfold readNumber numberToken
  dsimp only
  rw [same]
  split_ifs <;> rfl

theorem identOrKeyword_ne_integer (s : String) (v : ℤ) : identOrKeyword s ≠ .integer v := by
  have words : ∀ keyword ∈ keywords, (keyword.2 matches .integer _) = false := by decide
  unfold identOrKeyword
  split
  · rename_i keyword found
    intro same
    have := words keyword (List.mem_of_find?_eq_some found)
    rw [same] at this
    cases this
  · exact nofun

/-- Only a run that begins with a digit is read as an integer. -/
theorem nextToken_integer (h : lx.nextToken text = .ok (tok, lx')) {v : ℤ} (integer : tok.1 = .integer v) :
    StartsDigit lx.run := by
  simp only [nextToken] at h
  cases peek : lx.skipWhitespace.peek with
  | none =>
    rw [peek] at h
    obtain ⟨rfl, -⟩ := Prod.mk.inj (Except.ok.inj h)
    cases integer
  | some c =>
    simp only [peek] at h
    split_ifs at h with newline digit quote raw word
    · obtain ⟨rfl, -⟩ := Prod.mk.inj (Except.ok.inj h)
      cases integer
    · obtain ⟨rest, hr⟩ := peek_eq_some.1 peek
      rw [run, hr, List.takeWhile_cons_of_pos (by rw [isNumeral, digit]; rfl)]
      exact digit
    · unfold readString at h
      cases loop : readStringLoop [] lx.skipWhitespace.advance with
      | error e =>
        rw [loop] at h
        cases h
      | ok r =>
        rw [loop] at h
        obtain ⟨rfl, -⟩ := Prod.mk.inj (Except.ok.inj h)
        cases integer
    · simp only [readRawString] at h
      split at h
      · cases h
      · obtain ⟨rfl, -⟩ := Prod.mk.inj (Except.ok.inj h)
        cases integer
    · obtain ⟨rfl, -⟩ := Prod.mk.inj (Except.ok.inj h)
      exact absurd integer (identOrKeyword_ne_integer _ v)
    · unfold readSymbol at h
      split at h
      case h_10 | h_12 | h_13 =>
        have token : _ = tok := congrArg Prod.fst (Except.ok.inj h)
        rw [← token, readOperator] at integer
        split_ifs at integer
      case h_11 =>
        split_ifs at h
        obtain ⟨rfl, -⟩ := Prod.mk.inj (Except.ok.inj h)
        cases integer
      case h_14 => cases h
      all_goals
        obtain ⟨rfl, -⟩ := Prod.mk.inj (Except.ok.inj h)
        cases integer

/-- A number of a source. -/
structure Sighting.IsNumber (text : Text) (s : Sighting) : Prop where
  token : s.token = numberToken text s.run
  numerals : ∀ c ∈ s.whole, isNumeral c = true
  dot : s.lead ≠ [] → '.' ∈ s.lead

theorem isNumber_of_mem {fuel : ℕ} {s : Sighting} (apart : Apart source lx)
    (mem : s ∈ sightings text source fuel lx) (digit : StartsDigit s.run) : s.IsNumber text := by
  induction fuel generalizing lx with
  | zero => exact absurd mem List.not_mem_nil
  | succ fuel ih =>
    rw [sightings] at mem
    cases step : lx.nextToken text with
    | error e =>
      rw [step] at mem
      exact absurd mem List.not_mem_nil
    | ok r =>
      rw [step] at mem
      rcases List.mem_cons.1 mem with rfl | mem
      · refine ⟨nextToken_number step digit, fun c hc => ?_, dot_mem_lead apart digit⟩
        rcases List.mem_append.1 hc with hc | hc
        · exact List.mem_rtakeWhile_imp hc
        · exact List.mem_takeWhile_imp hc
      · by_cases eof : r.1.1 = .eof
        · rw [if_pos eof] at mem
          exact absurd mem List.not_mem_nil
        · rw [if_neg eof] at mem
          exact ih (apart_nextToken apart step) mem

theorem startsDigit_of_mem {fuel : ℕ} {s : Sighting} (mem : s ∈ sightings text source fuel lx) {v : ℤ}
    (integer : s.token = .integer v) : StartsDigit s.run := by
  induction fuel generalizing lx with
  | zero => exact absurd mem List.not_mem_nil
  | succ fuel ih =>
    rw [sightings] at mem
    cases step : lx.nextToken text with
    | error e =>
      rw [step] at mem
      exact absurd mem List.not_mem_nil
    | ok r =>
      rw [step] at mem
      rcases List.mem_cons.1 mem with rfl | mem
      · exact nextToken_integer step integer
      · by_cases eof : r.1.1 = .eof
        · rw [if_pos eof] at mem
          exact absurd mem List.not_mem_nil
        · rw [if_neg eof] at mem
          exact ih mem

theorem denotes_integer {run : List Char} (dot : '.' ∉ run) :
    Denotes run (numberToken text run) ↔ (Nat.ofDigitChars 10 run 0 : ℤ) ≤ i64Max := by
  unfold numberToken
  rw [if_neg dot]
  dsimp only [Denotes]
  rw [and_iff_right dot, writtenNumber_integer dot, Option.some.injEq]
  split_ifs with small
  · exact iff_of_true (Int.cast_natCast _).symm small
  · refine iff_of_false (fun zero => small ?_) small
    have zero : Nat.ofDigitChars 10 run 0 = 0 := by exact_mod_cast zero
    rw [zero]
    decide

theorem denotes_float (reads : ReadsDecimals text) {run : List Char} (numerals : ∀ c ∈ run, isNumeral c = true)
    (digit : StartsDigit run) (dot : '.' ∈ run) :
    Denotes run (numberToken text run) ↔ ∃ q ∈ writtenNumber run, q < floatOverflow := by
  unfold numberToken
  rw [if_pos dot]
  refine exists_congr fun q => and_congr_right fun written => ?_
  obtain ⟨x, read, near, infinite⟩ := reads.point run numerals digit q written dot
  rw [read, Option.getD_some]
  refine ⟨fun h => ?_, near⟩
  by_contra large
  obtain ⟨d, finite, -⟩ := h
  rw [infinite (not_lt.1 large)] at finite
  exact nomatch finite

/-- Where the run had begun with a dot, the token is not the number of the whole run. -/
theorem Sighting.IsNumber.not_denotes {s : Sighting} (number : s.IsNumber text) (lead : s.lead ≠ []) :
    ¬Denotes s.whole s.token := by
  have first := number.dot lead
  rw [number.token]
  unfold numberToken
  split_ifs with dot
  · have two : 2 ≤ s.whole.count '.' := by
      have := List.count_pos_iff.2 first
      have := List.count_pos_iff.2 dot
      rw [Sighting.whole, List.count_append]
      omega
    rintro ⟨q, written, -⟩
    rw [writtenNumber_points two] at written
    exact nomatch written
  · exact fun h => h.1 (List.mem_append_left _ first)

/-- The token of a number denotes the run around it exactly when the run begins with the token and is readable. -/
theorem denotes_iff (reads : ReadsDecimals text) {s : Sighting} (number : s.IsNumber text)
    (digit : StartsDigit s.run) : Denotes s.whole s.token ↔ s.lead = [] ∧ Readable s.run := by
  by_cases lead : s.lead = []
  · have whole : s.whole = s.run := by rw [Sighting.whole, lead, List.nil_append]
    rw [whole, and_iff_right lead, number.token]
    unfold Readable
    by_cases dot : '.' ∈ s.run
    · rw [denotes_float reads (whole ▸ number.numerals) digit dot]
      simp [dot]
    · rw [denotes_integer dot]
      simp [dot]
  · exact iff_of_false (number.not_denotes lead) fun h => lead h.1

end Lexer

end TORdex.Tdxl
