import Mathlib.Algebra.Order.Field.Rat
import Mathlib.Data.List.TakeWhile
import Mathlib.Tactic.FieldSimp
import Mathlib.Tactic.IntervalCases
import TORdex.Core.Json
import TORdex.Lib.Delimiters

/-!
# What a JSON text determines

The compact rendering of a value is read from a text: it determines the value, and where it ends, unless it is a
number and the text goes on like one.
-/

namespace TORdex

open Delimiters

/-- The shortest decimal of a float does not end in a zero. -/
def Decimal.Shortest (d : Decimal) : Prop := d.mantissa % 10 ≠ 0 ∨ d.mantissa = 0 ∧ d.exponent = 0

namespace Json


/-! ## Strings -/

/-- The value of a hexadecimal digit. -/
def hexValue (c : Char) : ℕ := if c.toNat < 58 then c.toNat - 48 else c.toNat - 87

/-- The first character of a string in JSON, and the text after it. -/
def unescape : List Char → Option (Char × List Char)
  | '\\' :: 'b' :: rest => some (Char.ofNat 0x08, rest)
  | '\\' :: 'f' :: rest => some (Char.ofNat 0x0c, rest)
  | '\\' :: 'n' :: rest => some (Char.ofNat 0x0a, rest)
  | '\\' :: 'r' :: rest => some (Char.ofNat 0x0d, rest)
  | '\\' :: 't' :: rest => some (Char.ofNat 0x09, rest)
  | '\\' :: 'u' :: '0' :: '0' :: a :: b :: rest => some (Char.ofNat (16 * hexValue a + hexValue b), rest)
  | '\\' :: c :: rest => some (c, rest)
  | c :: rest => some (c, rest)
  | [] => none

/-- An escaped character is read back. -/
theorem unescape_escape (c : Char) (rest : List Char) : unescape (escape c ++ rest) = some (c, rest) := by
  have char : ∀ n, c.toNat = n → c = Char.ofNat n := fun n h => by rw [← h, Char.ofNat_toNat]
  unfold escape
  split
  case h_8 quote slash _ _ _ _ _ =>
    split_ifs with control
    · have byte : ∀ n < 0x20, Char.ofNat (16 * hexValue (hexDigit (n / 16)) + hexValue (hexDigit (n % 16))) =
          Char.ofNat n := by decide
      have read := byte c.toNat control
      rw [Char.ofNat_toNat] at read
      show some (Char.ofNat (16 * hexValue (hexDigit (c.toNat / 16)) + hexValue (hexDigit (c.toNat % 16))), rest) = _
      rw [read]
    · have other : c ≠ '\\' := by
        rintro rfl
        exact slash rfl
      show unescape (c :: rest) = some (c, rest)
      unfold unescape
      split
      case h_8 eq => rw [(List.cons_eq_cons.1 eq).1, (List.cons_eq_cons.1 eq).2]
      case h_9 eq => exact absurd eq (List.cons_ne_nil c rest)
      all_goals next eq => exact absurd (List.cons_eq_cons.1 eq).1 other
  -- the characters with an escape of their own
  all_goals
    next h =>
      rw [char _ h]
      rfl

theorem reads_escape (c : Char) : Reads escape (fun _ => True) (fun _ => True) c := by
  intro d s t _ _ _ h
  have read := congrArg unescape h
  rw [unescape_escape, unescape_escape] at read
  exact Prod.ext_iff.1 (Option.some_inj.1 read)

theorem opens_escape (c : Char) : Opens escape '"' c := by
  unfold Opens escape
  split
  case h_8 n quote _ _ _ _ _ _ =>
    split_ifs
    · exact ⟨_, _, rfl, by decide⟩
    · refine ⟨c, [], rfl, ?_⟩
      rintro rfl
      exact quote rfl
  all_goals exact ⟨_, _, rfl, by decide⟩

theorem toList_renderStr (s : String) : (renderStr s).toList = '"' :: (s.toList.flatMap escape ++ ['"']) := by
  simp [renderStr]

/-- A string in JSON is read from the text. -/
theorem reads_renderStr (a b : String) {s t : List Char}
    (h : (renderStr a).toList ++ s = (renderStr b).toList ++ t) : a = b ∧ s = t := by
  simp only [toList_renderStr, List.cons_append, List.append_assoc, List.nil_append, List.cons.injEq, true_and] at h
  obtain ⟨same, rest⟩ := flatMap_stop (fun c _ => reads_escape c) (fun c _ => opens_escape c)
    (fun _ _ => trivial) (fun _ _ => trivial) h
  exact ⟨String.toList_inj.1 same, rest⟩

/-! ## Numbers -/

/-- The characters of numbers. -/
def numeric (c : Char) : Bool := c.isDigit || c = '-' || c = '+' || c = '.' || c = 'e'

/-- The digits of a number. -/
def digits (n : ℕ) : List Char := Nat.toDigits 10 n

theorem toList_toString_nat (n : ℕ) : (toString n).toList = digits n := Nat.toList_repr

theorem isDigit_digits {n : ℕ} {c : Char} (h : c ∈ digits n) : c.isDigit = true :=
  Nat.isDigit_of_mem_toDigits (by decide) (by decide) h

theorem toList_toString_int (n : ℤ) :
    (toString n).toList = if 0 ≤ n then digits n.toNat else '-' :: digits (-n).toNat := by
  rw [Int.toString_eq_repr, Int.repr_eq_if]
  split_ifs
  · exact Nat.toList_repr
  · rw [String.toList_append, Nat.toList_repr]
    rfl

theorem mem_toString_int {n : ℤ} {c : Char} (h : c ∈ (toString n).toList) : c = '-' ∨ c.isDigit = true := by
  rw [toList_toString_int] at h
  split_ifs at h
  · exact .inr (isDigit_digits h)
  · exact (List.mem_cons.1 h).imp_right isDigit_digits

/-- The characters of an exponent. -/
def signed (k : ℤ) : List Char := (renderExponent k).toList

theorem signed_eq (k : ℤ) : signed k = (if 0 ≤ k then ['+'] else []) ++ (toString k).toList := by
  unfold signed renderExponent
  split_ifs <;> simp

theorem mem_signed {k : ℤ} {c : Char} (h : c ∈ signed k) : c = '+' ∨ c = '-' ∨ c.isDigit = true := by
  rw [signed_eq] at h
  rcases List.mem_append.1 h with sign | digits
  · split_ifs at sign
    · exact .inl (List.mem_singleton.1 sign)
    · cases sign
  · exact .inr (mem_toString_int digits)

/-- A number with the digits before and after its point and its exponent. -/
def numeral (whole frac : List Char) (exp : Option ℤ) : List Char :=
  whole ++ ((if frac = [] then [] else '.' :: frac) ++
    match exp with
    | none => []
    | some k => 'e' :: signed k)

/-- What it denotes. -/
def magnitude (whole frac : List Char) (exp : Option ℤ) : ℚ :=
  Nat.ofDigitChars 10 (whole ++ frac) 0 * 10 ^ (exp.getD 0 - frac.length)

/-- An integer of digits and a sign. -/
def readInt : List Char → Option ℤ
  | [] => none
  | '-' :: ds => some (-(Nat.ofDigitChars 10 ds 0 : ℤ))
  | '+' :: ds => some (Nat.ofDigitChars 10 ds 0)
  | ds => some (Nat.ofDigitChars 10 ds 0)

theorem ofDigitChars_digits (n : ℕ) : Nat.ofDigitChars 10 (digits n) 0 = n := Nat.ofDigitChars_ten_toDigits

theorem readInt_toString (n : ℤ) : readInt (toString n).toList = some n := by
  rw [toList_toString_int]
  split_ifs with nonneg
  · cases h : digits n.toNat with
    | nil => exact absurd h Nat.toDigits_ne_nil
    | cons c ds =>
      have digit : c.isDigit = true := isDigit_digits (h ▸ List.mem_cons_self)
      have read : readInt (c :: ds) = some (Nat.ofDigitChars 10 (c :: ds) 0 : ℤ) := by
        unfold readInt
        split
        · contradiction
        next eq => exact absurd digit (by rw [(List.cons_eq_cons.1 eq).1]; decide)
        next eq => exact absurd digit (by rw [(List.cons_eq_cons.1 eq).1]; decide)
        · rfl
      rw [read, ← h, ofDigitChars_digits]
      exact congrArg some (Int.toNat_of_nonneg nonneg)
  · show some (-(Nat.ofDigitChars 10 (digits (-n).toNat) 0 : ℤ)) = some n
    rw [ofDigitChars_digits]
    congr 1
    omega

theorem readInt_signed (k : ℤ) : readInt (signed k) = some k := by
  rw [signed_eq]
  split_ifs with nonneg
  · show some (Nat.ofDigitChars 10 (toString k).toList 0 : ℤ) = some k
    rw [toList_toString_int, if_pos nonneg, ofDigitChars_digits]
    exact congrArg some (Int.toNat_of_nonneg nonneg)
  · exact readInt_toString k

/-- The parts of a number. -/
def readNumeral (s : List Char) : List Char × List Char × Option ℤ :=
  let front := s.takeWhile (· ≠ 'e')
  ⟨front.takeWhile (· ≠ '.'), (front.dropWhile (· ≠ '.')).drop 1,
    readInt ((s.dropWhile (· ≠ 'e')).drop 1)⟩

/-- A text is cut where it meets a letter first. -/
theorem takeWhile_ne {α : Type} [DecidableEq α] {a b : List α} {x : α} (ha : x ∉ a) (hb : b = [] ∨ b.head? = some x) :
    (a ++ b).takeWhile (· ≠ x) = a ∧ (a ++ b).dropWhile (· ≠ x) = b := by
  have clear : ∀ c ∈ a, decide (c ≠ x) = true := fun c hc => by
    have other : c ≠ x := fun eq => ha (eq ▸ hc)
    simpa using other
  rw [List.takeWhile_append_of_pos clear, List.dropWhile_append_of_pos clear]
  cases b with
  | nil => simp
  | cons c b =>
    obtain rfl : c = x := by simpa using hb
    simp

theorem readNumeral_numeral {whole frac : List Char} (hw : ∀ c ∈ whole, c.isDigit = true)
    (hf : ∀ c ∈ frac, c.isDigit = true) (exp : Option ℤ) :
    readNumeral (numeral whole frac exp) = (whole, frac, exp) := by
  have noPoint : '.' ∉ whole := fun h => absurd (hw _ h) (by decide)
  have noE : 'e' ∉ whole ++ (if frac = [] then [] else '.' :: frac) := by
    rw [List.mem_append, not_or]
    refine ⟨fun h => absurd (hw _ h) (by decide), fun h => ?_⟩
    split_ifs at h with empty
    · cases h
    · exact absurd (hf _ ((List.mem_cons.1 h).resolve_left (by decide))) (by decide)
  have point := takeWhile_ne (b := if frac = [] then [] else '.' :: frac) noPoint (by split_ifs <;> simp)
  unfold readNumeral numeral
  rw [← List.append_assoc]
  cases exp with
  | none =>
    have front := takeWhile_ne noE (.inl rfl)
    simp only [front.1, front.2, point.1, point.2]
    split_ifs with empty
    · rw [empty]
      rfl
    · rfl
  | some k =>
    have front := takeWhile_ne (b := 'e' :: signed k) noE (.inr rfl)
    simp only [front.1, front.2, point.1, point.2, List.drop_succ_cons, List.drop_zero, readInt_signed]
    split_ifs with empty
    · rw [empty]
      rfl
    · rfl

/-! ## Decimals -/

/-- The sign apart. -/
def decimalBody (d : Decimal) : List Char := (renderDecimal { d with negative := false }).toList

theorem toList_renderDecimal (d : Decimal) :
    (renderDecimal d).toList = if d.negative then '-' :: decimalBody d else decimalBody d := by
  unfold decimalBody renderDecimal
  cases d.negative <;> simp

theorem length_digits_pos (n : ℕ) : 0 < (digits n).length := Nat.length_toDigits_pos

/-- A decimal is written as a numeral of its mantissa, with a point or an exponent. -/
structure Writes (m : ℕ) (e : ℤ) (whole frac : List Char) (exp : Option ℤ) : Prop where
  wholeDigits : ∀ c ∈ whole, c.isDigit = true
  fracDigits : ∀ c ∈ frac, c.isDigit = true
  nonempty : whole ≠ []
  marked : frac ≠ [] ∨ exp ≠ none
  value : magnitude whole frac exp = m * 10 ^ e

section Formats

variable (m : ℕ) {e : ℤ}

theorem isDigit_replicate {n : ℕ} {c : Char} (h : c ∈ List.replicate n '0') : c.isDigit = true := by
  rw [(List.mem_replicate.1 h).2]
  rfl

theorem writes_whole (h : 0 ≤ e) : Writes m e (digits m ++ List.replicate e.toNat '0') ['0'] none where
  wholeDigits c hc := (List.mem_append.1 hc).elim isDigit_digits isDigit_replicate
  fracDigits c hc := by rw [List.mem_singleton.1 hc]; rfl
  nonempty := List.append_ne_nil_of_left_ne_nil Nat.toDigits_ne_nil _
  marked := .inl (List.cons_ne_nil _ _)
  value := by
    obtain ⟨k, rfl⟩ := Int.eq_ofNat_of_zero_le h
    rw [magnitude, Nat.ofDigitChars_append, Nat.ofDigitChars_append, ofDigitChars_digits,
      Nat.ofDigitChars_replicate_zero]
    simp [Nat.ofDigitChars_cons]
    field_simp

theorem value_split {a b : List Char} (h : a ++ b = digits m) (exp : Option ℤ) (point : exp.getD 0 - b.length = e) :
    magnitude a b exp = m * 10 ^ e := by
  rw [magnitude, h, ofDigitChars_digits, point]

theorem writes_point {n : ℕ} (inside : 0 < n ∧ n < (digits m).length) (h : (digits m).length + e = n) :
    Writes m e ((digits m).take n) ((digits m).drop n) none where
  wholeDigits c hc := isDigit_digits (List.mem_of_mem_take hc)
  fracDigits c hc := isDigit_digits (List.mem_of_mem_drop hc)
  nonempty := by
    rw [Ne, List.take_eq_nil_iff]
    rintro (zero | empty)
    · omega
    · exact Nat.toDigits_ne_nil empty
  marked := .inl (by simpa using inside.2)
  value := by
    refine value_split m (List.take_append_drop n _) none ?_
    rw [List.length_drop]
    simp only [Option.getD_none]
    omega

theorem writes_zeros {n : ℕ} (h : (digits m).length + e = -n) :
    Writes m e ['0'] (List.replicate n '0' ++ digits m) none where
  wholeDigits c hc := by rw [List.mem_singleton.1 hc]; rfl
  fracDigits c hc := (List.mem_append.1 hc).elim isDigit_replicate isDigit_digits
  nonempty := List.cons_ne_nil _ _
  marked := .inl (List.append_ne_nil_of_right_ne_nil _ Nat.toDigits_ne_nil)
  value := by
    have number : Nat.ofDigitChars 10 (['0'] ++ (List.replicate n '0' ++ digits m)) 0 = m := by
      rw [Nat.ofDigitChars_append, Nat.ofDigitChars_append]
      simp [Nat.ofDigitChars_cons, ofDigitChars_digits]
    have point : (none : Option ℤ).getD 0 - ((List.replicate n '0' ++ digits m).length : ℤ) = e := by
      rw [List.length_append, List.length_replicate]
      simp only [Option.getD_none]
      omega
    rw [magnitude, number, point]

theorem writes_exponent {point : ℤ} (h : (digits m).length + e = point) :
    Writes m e ((digits m).take 1) ((digits m).drop 1) (some (point - 1)) where
  wholeDigits c hc := isDigit_digits (List.mem_of_mem_take hc)
  fracDigits c hc := isDigit_digits (List.mem_of_mem_drop hc)
  nonempty := by
    rw [Ne, List.take_eq_nil_iff]
    rintro (zero | empty)
    · omega
    · exact Nat.toDigits_ne_nil empty
  marked := .inr (Option.some_ne_none _)
  value := by
    have pos := length_digits_pos m
    refine value_split m (List.take_append_drop 1 _) (some (point - 1)) ?_
    rw [List.length_drop]
    simp only [Option.getD_some]
    omega

end Formats

theorem decimalBody_eq (d : Decimal) : ∃ whole frac exp, decimalBody d = numeral whole frac exp ∧
    Writes d.mantissa d.exponent whole frac exp := by
  have length : (toString d.mantissa).length = (digits d.mantissa).length := by
    rw [← String.length_toList, toList_toString_nat]
  unfold decimalBody renderDecimal
  simp only [Bool.false_eq_true, if_false, length]
  split_ifs with zero whole point zeros fraction
  · refine ⟨['0'], ['0'], none, rfl, ?_, ?_, List.cons_ne_nil _ _, .inl (List.cons_ne_nil _ _), ?_⟩
    · exact fun c hc => by rw [List.mem_singleton.1 hc]; rfl
    · exact fun c hc => by rw [List.mem_singleton.1 hc]; rfl
    · simp [magnitude, zero, Nat.ofDigitChars_cons]
  · refine ⟨_, _, _, ?_, writes_whole _ whole.1⟩
    simp [numeral, Json.zeros, digits]
  · obtain ⟨n, hn⟩ := Int.eq_ofNat_of_zero_le point.1.le
    have inside : 0 < n ∧ n < (digits d.mantissa).length := by omega
    refine ⟨_, _, _, ?_, writes_point (n := n) _ inside hn⟩
    have frac : (digits d.mantissa).drop n ≠ [] := by simpa using inside.2
    rw [numeral, if_neg frac, hn]
    simp [digits]
  · obtain ⟨n, hn⟩ := Int.exists_eq_neg_ofNat zeros.2
    refine ⟨_, _, _, ?_, writes_zeros (n := n) _ hn⟩
    have frac : List.replicate n '0' ++ digits d.mantissa ≠ [] :=
      List.append_ne_nil_of_right_ne_nil _ Nat.toDigits_ne_nil
    rw [numeral, if_neg frac, hn]
    simp [Json.zeros, digits]
  · refine ⟨_, _, _, ?_, writes_exponent _ rfl⟩
    have frac : (digits d.mantissa).drop 1 = [] := by
      simpa [digits] using congrArg String.toList fraction
    rw [numeral, if_pos frac]
    simp [signed, digits]
  · refine ⟨_, _, _, ?_, writes_exponent _ rfl⟩
    have frac : (digits d.mantissa).drop 1 ≠ [] := fun empty => fraction (by
      rw [toList_toString_nat, empty])
    rw [numeral, if_neg frac]
    simp [signed, digits]

/-- Shortest decimals of one magnitude are the same. -/
theorem shortest_unique {m m' : ℕ} {e e' : ℤ} (hm : m % 10 ≠ 0 ∨ m = 0 ∧ e = 0) (hm' : m' % 10 ≠ 0 ∨ m' = 0 ∧ e' = 0)
    (h : (m * 10 ^ e : ℚ) = m' * 10 ^ e') : m = m' ∧ e = e' := by
  wlog order : e ≤ e' generalizing m m' e e'
  · obtain ⟨rfl, rfl⟩ := this hm' hm h.symm (by omega)
    exact ⟨rfl, rfl⟩
  obtain ⟨k, rfl⟩ : ∃ k : ℕ, e' = e + k := ⟨(e' - e).toNat, by omega⟩
  have ten : (10 : ℚ) ≠ 0 := by norm_num
  have whole : m = m' * 10 ^ k := by
    rw [zpow_add₀ ten, mul_left_comm, mul_comm (m : ℚ)] at h
    exact_mod_cast mul_left_cancel₀ (zpow_ne_zero e ten) h
  cases k with
  | zero => exact ⟨by simpa using whole, by simp⟩
  | succ k =>
    -- the larger mantissa would end in a zero
    have zero : m % 10 = 0 := by
      rw [whole, pow_succ, ← mul_assoc]
      exact Nat.mul_mod_left _ _
    obtain ⟨rfl, rfl⟩ := hm.resolve_left (not_not_intro zero)
    have none : m' = 0 := by
      rcases Nat.mul_eq_zero.1 whole.symm with h | h
      · exact h
      · exact absurd h (pow_ne_zero _ (by norm_num))
    obtain ⟨-, far⟩ := hm'.resolve_left (by simp [none])
    omega

theorem isDigit_numeric {c : Char} (h : c.isDigit = true) : numeric c = true := by
  simp [numeric, h]

theorem numeric_numeral {whole frac : List Char} {exp : Option ℤ} (hw : ∀ c ∈ whole, c.isDigit = true)
    (hf : ∀ c ∈ frac, c.isDigit = true) {c : Char} (hc : c ∈ numeral whole frac exp) : numeric c = true := by
  unfold numeral at hc
  rcases List.mem_append.1 hc with hc | hc
  · exact isDigit_numeric (hw c hc)
  rcases List.mem_append.1 hc with hc | hc
  · split_ifs at hc with empty
    · cases hc
    · rcases List.mem_cons.1 hc with rfl | hc
      · rfl
      · exact isDigit_numeric (hf c hc)
  · cases exp with
    | none => cases hc
    | some k =>
      rcases List.mem_cons.1 hc with rfl | hc
      · rfl
      · rcases mem_signed hc with rfl | rfl | hc
        · rfl
        · rfl
        · exact isDigit_numeric hc

/-- What the text of a decimal determines. -/
theorem decimalBody_inj {d d' : Decimal} (hd : d.Shortest) (hd' : d'.Shortest) (h : decimalBody d = decimalBody d') :
    d.mantissa = d'.mantissa ∧ d.exponent = d'.exponent := by
  obtain ⟨whole, frac, exp, body, writes⟩ := decimalBody_eq d
  obtain ⟨whole', frac', exp', body', writes'⟩ := decimalBody_eq d'
  have read := congrArg readNumeral h
  rw [body, body', readNumeral_numeral writes.wholeDigits writes.fracDigits,
    readNumeral_numeral writes'.wholeDigits writes'.fracDigits] at read
  obtain ⟨rfl, rest⟩ := Prod.ext_iff.1 read
  obtain ⟨rfl, rfl⟩ := Prod.ext_iff.1 rest
  exact shortest_unique hd hd' (writes.value.symm.trans writes'.value)

/-- The body begins with a digit. -/
theorem head_decimalBody (d : Decimal) : ∃ c rest, decimalBody d = c :: rest ∧ c.isDigit = true := by
  obtain ⟨whole, frac, exp, body, writes⟩ := decimalBody_eq d
  obtain ⟨c, rest, rfl⟩ := List.exists_cons_of_ne_nil writes.nonempty
  exact ⟨c, _, body, writes.wholeDigits c List.mem_cons_self⟩

theorem renderDecimal_inj {d d' : Decimal} (hd : d.Shortest) (hd' : d'.Shortest)
    (h : renderDecimal d = renderDecimal d') : d = d' := by
  have chars := congrArg String.toList h
  rw [toList_renderDecimal, toList_renderDecimal] at chars
  obtain ⟨c, rest, body, digit⟩ := head_decimalBody d
  obtain ⟨c', rest', body', digit'⟩ := head_decimalBody d'
  have same : d.negative = d'.negative ∧ decimalBody d = decimalBody d' := by
    cases hn : d.negative <;> cases hn' : d'.negative <;>
      simp only [hn, hn', if_true, Bool.false_eq_true, if_false] at chars
    · exact ⟨rfl, chars⟩
    · rw [body] at chars
      exact absurd digit (by rw [(List.cons_eq_cons.1 chars).1]; decide)
    · rw [body'] at chars
      exact absurd digit' (by rw [← (List.cons_eq_cons.1 chars).1]; decide)
    · exact ⟨rfl, (List.cons_eq_cons.1 chars).2⟩
  obtain ⟨mantissa, exponent⟩ := decimalBody_inj hd hd' same.2
  cases d
  cases d'
  simp_all

/-! ## Writers of floats -/

/-- What a writer of floats promises: the characters of numbers, no text of an integer, and for different floats
different texts. -/
structure WritesFloats (write : Decimal → String) : Prop where
  numeric : ∀ d, ∀ c ∈ (write d).toList, numeric c = true
  nonempty : ∀ d, write d ≠ ""
  notInt : ∀ d (n : ℤ), write d ≠ toString n
  injective : ∀ d d', d.Shortest → d'.Shortest → write d = write d' → d = d'

/-- A float has a point or an exponent, and an integer has neither. -/
theorem renderDecimal_ne_int (d : Decimal) (n : ℤ) : renderDecimal d ≠ toString n := by
  intro h
  obtain ⟨whole, frac, exp, body, writes⟩ := decimalBody_eq d
  have mark : ∃ c ∈ decimalBody d, c = '.' ∨ c = 'e' := by
    rw [body]
    unfold numeral
    rcases writes.marked with frac | exp
    · exact ⟨'.', by simp [frac], .inl rfl⟩
    · obtain ⟨k, rfl⟩ := Option.ne_none_iff_exists'.1 exp
      exact ⟨'e', by simp, .inr rfl⟩
  obtain ⟨c, hc, mark⟩ := mark
  have inInt : c ∈ (toString n).toList := by
    rw [← h, toList_renderDecimal]
    split_ifs
    · exact List.mem_cons_of_mem _ hc
    · exact hc
  rcases mark with rfl | rfl
  · exact (mem_toString_int inInt).elim (by decide) (by decide)
  · exact (mem_toString_int inInt).elim (by decide) (by decide)

theorem numeric_renderDecimal (d : Decimal) {c : Char} (hc : c ∈ (renderDecimal d).toList) : numeric c = true := by
  obtain ⟨whole, frac, exp, body, writes⟩ := decimalBody_eq d
  have inBody : ∀ c ∈ decimalBody d, numeric c = true := fun c hc =>
    numeric_numeral writes.wholeDigits writes.fracDigits (body ▸ hc)
  rw [toList_renderDecimal] at hc
  split_ifs at hc
  · rcases List.mem_cons.1 hc with rfl | hc
    · rfl
    · exact inBody c hc
  · exact inBody c hc

theorem renderDecimal_ne_empty (d : Decimal) : renderDecimal d ≠ "" := by
  intro h
  have chars : (renderDecimal d).toList = [] := by rw [h]; rfl
  obtain ⟨c, rest, body, -⟩ := head_decimalBody d
  rw [toList_renderDecimal, body] at chars
  split_ifs at chars

theorem writesFloats_renderDecimal : WritesFloats renderDecimal where
  numeric d _ hc := numeric_renderDecimal d hc
  nonempty := renderDecimal_ne_empty
  notInt := renderDecimal_ne_int
  injective _ _ := renderDecimal_inj

/-! ## Values -/

mutual

/-- The floats of the value are shortest decimals. -/
def Shortest : Json → Prop
  | .float d => d.Shortest
  | .arr items => ShortestItems items
  | .obj fields => ShortestFields fields
  | _ => True

/-- The decimals in all items are the shortest. -/
def ShortestItems : List Json → Prop
  | [] => True
  | x :: xs => x.Shortest ∧ ShortestItems xs

/-- The decimals in all fields are the shortest. -/
def ShortestFields : List (String × Json) → Prop
  | [] => True
  | (_, v) :: fs => v.Shortest ∧ ShortestFields fs

end

theorem shortest_arr_iff {items : List Json} : (arr items).Shortest ↔ ∀ x ∈ items, x.Shortest := by
  show ShortestItems items ↔ _
  induction items with
  | nil => simp [ShortestItems]
  | cons x xs ih => simp [ShortestItems, ih]

theorem shortest_obj_iff {fields : List (String × Json)} : (obj fields).Shortest ↔ ∀ f ∈ fields, f.2.Shortest := by
  show ShortestFields fields ↔ _
  induction fields with
  | nil => simp [ShortestFields]
  | cons f fs ih => simp [ShortestFields, ih]

/-- The values of an array or an object. -/
def members : Json → List Json
  | .arr items => items
  | .obj fields => fields.map Prod.snd
  | _ => []

theorem sizeOf_members {v x : Json} (h : x ∈ v.members) : sizeOf x < sizeOf v := by
  cases v with
  | arr items =>
    have inside : sizeOf x < sizeOf items := List.sizeOf_lt_of_mem h
    rw [arr.sizeOf_spec]
    omega
  | obj fields =>
    obtain ⟨⟨k, v⟩, hf, rfl⟩ := List.mem_map.1 h
    have inside := List.sizeOf_lt_of_mem hf
    rw [Prod.mk.sizeOf_spec] at inside
    rw [obj.sizeOf_spec]
    show sizeOf v < _
    omega
  | _ => cases h

/-- What holds of a value when it holds of its members holds of every value. -/
theorem member_induction {P : Json → Prop} (h : ∀ v : Json, (∀ x ∈ v.members, P x) → P v) (v : Json) : P v :=
  h v fun x _ => member_induction h x
termination_by sizeOf v
decreasing_by exact sizeOf_members ‹_›

section Texts

variable {write : Decimal → String}

/-- The characters of the rendering. -/
def text (write : Decimal → String) (v : Json) : List Char := (v.renderWith write).toList

/-- A field of an object. -/
def fieldText (write : Decimal → String) (f : String × Json) : List Char :=
  (renderStr f.1).toList ++ ':' :: text write f.2

theorem text_arr (items : List Json) :
    text write (arr items) = '[' :: (joined (text write) ',' items ++ [']']) := by
  have row : (renderItems write items).toList = joined (text write) ',' items := by
    induction items with
    | nil => rfl
    | cons x xs ih =>
      cases xs with
      | nil => simp [renderItems, joined, text]
      | cons y ys =>
        rw [renderItems, joined, ← ih]
        · simp [text]
        · exact List.cons_ne_nil y ys
        · exact List.cons_ne_nil y ys
  simp [text, renderWith, row]

theorem text_obj (fields : List (String × Json)) :
    text write (obj fields) = '{' :: (joined (fieldText write) ',' fields ++ ['}']) := by
  have row : (renderFields write fields).toList = joined (fieldText write) ',' fields := by
    induction fields with
    | nil => rfl
    | cons f fs ih =>
      cases fs with
      | nil => simp [renderFields, joined, fieldText, text]
      | cons g gs =>
        rw [renderFields, joined, ← ih]
        · simp [fieldText, text]
        · exact List.cons_ne_nil g gs
        · exact List.cons_ne_nil g gs
  simp [text, renderWith, row]

/-- The value is a number. -/
def isNumber : Json → Bool
  | .int _ | .float _ => true
  | _ => false

/-- What the first character of a text says of its value. -/
inductive Kind where
  | null
  | bool (b : Bool)
  | number
  | str
  | arr
  | obj
  deriving DecidableEq

/-- The kind of a value. -/
def kind : Json → Kind
  | .null => .null
  | .bool b => .bool b
  | .int _ | .float _ => .number
  | .str _ => .str
  | .arr _ => .arr
  | .obj _ => .obj

/-- The kind of value that a character begins. -/
def leadKind (c : Char) : Option Kind :=
  if numeric c then some .number
  else if c = 'n' then some .null
  else if c = 't' then some (.bool true)
  else if c = 'f' then some (.bool false)
  else if c = '"' then some .str
  else if c = '[' then some .arr
  else if c = '{' then some .obj
  else none

theorem head_text (floats : WritesFloats write) (v : Json) :
    ∃ c rest, text write v = c :: rest ∧ leadKind c = some v.kind := by
  have number : ∀ {c}, numeric c = true → leadKind c = some .number := fun h => if_pos h
  cases v with
  | null => exact ⟨'n', ['u', 'l', 'l'], by simp [text, renderWith], rfl⟩
  | bool b =>
    cases b
    · exact ⟨'f', ['a', 'l', 's', 'e'], by simp [text, renderWith], rfl⟩
    · exact ⟨'t', ['r', 'u', 'e'], by simp [text, renderWith], rfl⟩
  | int n =>
    have chars : text write (int n) = (toString n).toList := rfl
    rw [chars, toList_toString_int]
    split_ifs
    · cases h : digits n.toNat with
      | nil => exact absurd h Nat.toDigits_ne_nil
      | cons c ds => exact ⟨c, ds, rfl, number (isDigit_numeric (isDigit_digits (h ▸ List.mem_cons_self)))⟩
    · exact ⟨_, _, rfl, number rfl⟩
  | float d =>
    obtain ⟨c, rest, chars⟩ := List.exists_cons_of_ne_nil (l := (write d).toList)
      fun empty => floats.nonempty d (String.toList_eq_nil_iff.1 empty)
    exact ⟨c, rest, chars, number (floats.numeric d c (chars ▸ List.mem_cons_self))⟩
  | str s => exact ⟨_, _, toList_renderStr s, by rw [kind]; decide⟩
  | arr items => exact ⟨_, _, text_arr items, by rw [kind]; decide⟩
  | obj fields => exact ⟨_, _, text_obj fields, by rw [kind]; decide⟩

theorem numeric_text (floats : WritesFloats write) {v : Json} (h : v.isNumber = true) {c : Char}
    (hc : c ∈ text write v) : numeric c = true := by
  cases v with
  | int n =>
    rcases mem_toString_int (n := n) hc with rfl | digit
    · rfl
    · exact isDigit_numeric digit
  | float d => exact floats.numeric d c hc
  | _ => cases h

theorem number_inj (floats : WritesFloats write) {v w : Json} (hv : v.isNumber = true) (hw : w.isNumber = true)
    (sv : v.Shortest) (sw : w.Shortest) (h : text write v = text write w) : v = w := by
  cases v with
  | int n =>
    cases w with
    | int m =>
      have read := congrArg readInt (show (toString n).toList = (toString m).toList from h)
      rw [readInt_toString, readInt_toString] at read
      exact congrArg int (Option.some_inj.1 read)
    | float d => exact absurd (String.toList_inj.1 h).symm (floats.notInt d n)
    | _ => cases hw
  | float d =>
    cases w with
    | int m => exact absurd (String.toList_inj.1 h) (floats.notInt d m)
    | float d' => exact congrArg float (floats.injective d d' sv sw (String.toList_inj.1 h))
    | _ => cases hw
  | _ => cases hv

theorem leaves_comma (s : List Char) : Leaves numeric (',' :: s) := by
  rintro c ⟨⟩
  rfl

theorem leaves_bracket (s : List Char) : Leaves numeric (']' :: s) := by
  rintro c ⟨⟩
  rfl

theorem leaves_brace (s : List Char) : Leaves numeric ('}' :: s) := by
  rintro c ⟨⟩
  rfl

theorem opens_bracket (floats : WritesFloats write) (v : Json) (_ : v.Shortest) : Opens (text write) ']' v := by
  obtain ⟨c, rest, text, lead⟩ := head_text floats v
  refine ⟨c, rest, text, ?_⟩
  rintro rfl
  exact nomatch lead

theorem opens_fieldText (f : String × Json) : Opens (fieldText write) '}' f :=
  ⟨_, _, by rw [fieldText, toList_renderStr]; rfl, by decide⟩

theorem reads_fieldText {f : String × Json} (h : Reads (text write) Shortest (Leaves numeric) f.2) :
    Reads (fieldText write) (fun f => f.2.Shortest) (Leaves numeric) f := by
  intro g s t hg hs ht eq
  rw [fieldText, fieldText, List.append_assoc, List.append_assoc] at eq
  obtain ⟨key, rest⟩ := reads_renderStr f.1 g.1 eq
  obtain ⟨value, rest⟩ := h g.2 s t hg hs ht (List.cons_eq_cons.1 rest).2
  exact ⟨Prod.ext key value, rest⟩

/-- The text of a value determines the value and where it ends, unless a number goes on. -/
theorem text_append_inj (floats : WritesFloats write) {v : Json} (hv : v.Shortest) {w : Json} (hw : w.Shortest)
    {s t : List Char} (ends : v.isNumber = true → Leaves numeric s ∧ Leaves numeric t)
    (h : text write v ++ s = text write w ++ t) : v = w ∧ s = t := by
  induction v using member_induction generalizing w s t with
  | h v ih =>
  have reads : ∀ x ∈ v.members, x.Shortest → Reads (text write) Shortest (Leaves numeric) x :=
    fun x hx sx w s t hw hs ht h => ih x hx sx hw (fun _ => ⟨hs, ht⟩) h
  obtain ⟨c, rest, vText, vLead⟩ := head_text floats v
  obtain ⟨c', rest', wText, wLead⟩ := head_text floats w
  have same : c = c' := by
    rw [vText, wText] at h
    exact (List.cons_eq_cons.1 h).1
  subst same
  have kinds : v.kind = w.kind := Option.some_inj.1 (vLead.symm.trans wLead)
  by_cases number : v.isNumber = true ∧ w.isNumber = true
  · obtain ⟨hs, ht⟩ := ends number.1
    obtain ⟨text, rest⟩ := append_of_leaves (fun c hc => numeric_text floats number.1 hc)
      (fun c hc => numeric_text floats number.2 hc) hs ht h
    exact ⟨number_inj floats number.1 number.2 hv hw text, rest⟩
  -- values of different kinds begin with different characters
  cases v <;> cases w
  case null.null => exact ⟨rfl, List.append_cancel_left h⟩
  case bool.bool a b =>
    obtain rfl : a = b := Kind.bool.inj kinds
    exact ⟨rfl, List.append_cancel_left h⟩
  case str.str a b =>
    obtain ⟨rfl, rest⟩ := reads_renderStr a b h
    exact ⟨rfl, rest⟩
  case arr.arr items items' =>
    rw [text_arr, text_arr, List.cons_append, List.cons_append, List.append_assoc, List.append_assoc] at h
    rw [shortest_arr_iff] at hv hw
    obtain ⟨rfl, rest⟩ := joined_stop (by decide) leaves_comma leaves_bracket (fun x hx => reads x hx (hv x hx))
      (opens_bracket floats) hv hw (List.cons_eq_cons.1 h).2
    exact ⟨rfl, rest⟩
  case obj.obj fields fields' =>
    rw [text_obj, text_obj, List.cons_append, List.cons_append, List.append_assoc, List.append_assoc] at h
    rw [shortest_obj_iff] at hv hw
    obtain ⟨rfl, rest⟩ := joined_stop (by decide) leaves_comma leaves_brace
      (fun f hf => reads_fieldText (reads f.2 (List.mem_map_of_mem hf) (hv f hf))) (fun f _ => opens_fieldText f) hv hw
      (List.cons_eq_cons.1 h).2
    exact ⟨rfl, rest⟩
  case int.int | int.float | float.int | float.float => exact absurd ⟨rfl, rfl⟩ number
  all_goals cases kinds

/-! ## Values in a row -/

/-- The values of two rows are the same but for their numbers: where one has numbers in a row the other has numbers
with the same digits in a row. -/
inductive Regrouped (write : Decimal → String) : List Json → List Json → Prop
  | nil : Regrouped write [] []
  | value (v : Json) (other : v.isNumber = false) {xs ys : List Json} (rest : Regrouped write xs ys) :
    Regrouped write (v :: xs) (v :: ys)
  | numbers (ns ms : List Json) (hn : ∀ n ∈ ns, n.isNumber = true) (hm : ∀ m ∈ ms, m.isNumber = true)
    (digits : ns.flatMap (text write) = ms.flatMap (text write)) {xs ys : List Json} (rest : Regrouped write xs ys) :
    Regrouped write (ns ++ xs) (ms ++ ys)

theorem Regrouped.flatMap_text {xs ys : List Json} (h : Regrouped write xs ys) :
    xs.flatMap (text write) = ys.flatMap (text write) := by
  induction h with
  | nil => rfl
  | value v other rest ih => rw [List.flatMap_cons, List.flatMap_cons, ih]
  | numbers ns ms hn hm digits rest ih => rw [List.flatMap_append, List.flatMap_append, digits, ih]

/-- After its numbers a row leaves the characters of numbers. -/
theorem leaves_dropWhile (floats : WritesFloats write) (xs : List Json) :
    Leaves numeric ((xs.dropWhile isNumber).flatMap (text write)) := by
  have first := List.head?_dropWhile_not isNumber xs
  cases rest : xs.dropWhile isNumber with
  | nil => exact fun c hc => nomatch hc
  | cons v vs =>
    rw [rest] at first
    have other : v.isNumber = false := by simpa using first
    obtain ⟨c, chars, text, lead⟩ := head_text floats v
    rw [List.flatMap_cons, text]
    rintro c' ⟨⟩
    rw [Bool.eq_false_iff]
    intro number
    have kinds : some Kind.number = some v.kind := (if_pos number).symm.trans lead
    cases v with
    | int | float => cases other
    | _ => cases kinds

theorem flatMap_text_ne_nil (floats : WritesFloats write) (v : Json) (vs : List Json) :
    (v :: vs).flatMap (text write) ≠ [] := by
  obtain ⟨c, chars, text, -⟩ := head_text floats v
  rw [List.flatMap_cons, text]
  exact List.cons_ne_nil _ _

theorem isNumber_of_dropWhile {xs vs : List Json} {v : Json} (h : xs.dropWhile isNumber = v :: vs) :
    v.isNumber = false := by
  have first := List.head?_dropWhile_not isNumber xs
  rw [h] at first
  simpa using first

theorem regrouped_of_flatMap (floats : WritesFloats write) {xs ys : List Json} (hx : ∀ x ∈ xs, x.Shortest)
    (hy : ∀ y ∈ ys, y.Shortest) (h : xs.flatMap (text write) = ys.flatMap (text write)) : Regrouped write xs ys := by
  induction length : xs.length using Nat.strong_induction_on generalizing xs ys with
  | _ n ih =>
  have split : ∀ zs : List Json, (zs.takeWhile isNumber).flatMap (text write) ++
      (zs.dropWhile isNumber).flatMap (text write) = zs.flatMap (text write) := fun zs => by
    rw [← List.flatMap_append, List.takeWhile_append_dropWhile]
  have numbers : ∀ zs : List Json, ∀ z ∈ zs.takeWhile isNumber, z.isNumber = true :=
    fun zs z hz => List.mem_takeWhile_imp hz
  have letters : ∀ zs : List Json, ∀ c ∈ (zs.takeWhile isNumber).flatMap (text write), numeric c = true := by
    intro zs c hc
    obtain ⟨z, hz, hc⟩ := List.mem_flatMap.1 hc
    exact numeric_text floats (numbers zs z hz) hc
  rw [← split xs, ← split ys] at h
  obtain ⟨digits, rest⟩ := append_of_leaves (letters xs) (letters ys) (leaves_dropWhile floats xs)
    (leaves_dropWhile floats ys) h
  have regrouped : Regrouped write (xs.dropWhile isNumber) (ys.dropWhile isNumber) := by
    cases hv : xs.dropWhile isNumber with
    | nil =>
      cases hw : ys.dropWhile isNumber with
      | nil => exact .nil
      | cons w ws =>
        rw [hv, hw] at rest
        exact absurd rest.symm (flatMap_text_ne_nil floats w ws)
    | cons v vs =>
      cases hw : ys.dropWhile isNumber with
      | nil =>
        rw [hv, hw] at rest
        exact absurd rest (flatMap_text_ne_nil floats v vs)
      | cons w ws =>
        have other := isNumber_of_dropWhile hv
        have inX : ∀ x ∈ v :: vs, x ∈ xs := fun x hx => (List.dropWhile_sublist _).subset (hv ▸ hx)
        have inY : ∀ y ∈ w :: ws, y ∈ ys := fun y hy => (List.dropWhile_sublist _).subset (hw ▸ hy)
        have shorter : vs.length < n := by
          have := (List.dropWhile_sublist (l := xs) isNumber).length_le
          rw [hv, List.length_cons] at this
          omega
        rw [hv, hw, List.flatMap_cons, List.flatMap_cons] at rest
        obtain ⟨rfl, tails⟩ := text_append_inj floats (hx v (inX v List.mem_cons_self))
          (hy w (inY w List.mem_cons_self)) (fun number => absurd number (by simp [other])) rest
        exact .value v other (ih vs.length shorter (fun x h => hx x (inX x (List.mem_cons_of_mem _ h)))
          (fun y h => hy y (inY y (List.mem_cons_of_mem _ h))) tails rfl)
  have whole := Regrouped.numbers _ _ (numbers xs) (numbers ys) digits regrouped
  rwa [List.takeWhile_append_dropWhile, List.takeWhile_append_dropWhile] at whole

end Texts

end Json

end TORdex
