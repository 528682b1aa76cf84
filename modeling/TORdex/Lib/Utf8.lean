import Mathlib.Algebra.BigOperators.Group.List.Basic
import Mathlib.Algebra.Ring.Nat

/-!
# Texts and byte offsets

A text is a list of characters, and an offset counts the bytes of their UTF-8 encoding.  A text can be split
at an offset only between two characters.
-/

namespace ByteOffsets

/-- The number of bytes. -/
def size (s : List Char) : ℕ := (s.map Char.utf8Size).sum

@[simp] theorem size_nil : size [] = 0 := rfl

@[simp] theorem size_cons (c : Char) (s : List Char) : size (c :: s) = c.utf8Size + size s := rfl

@[simp] theorem size_append (s t : List Char) : size (s ++ t) = size s + size t := by
  simp [size]

theorem size_eq_zero_iff {s : List Char} : size s = 0 ↔ s = [] := by
  cases s with
  | nil => simp
  | cons c s =>
    have := c.utf8Size_pos
    simp only [size_cons, reduceCtorEq, iff_false]
    omega

/-- The two parts of a text at an offset; `none` inside a character and past the end. -/
def splitAt : List Char → ℕ → Option (List Char × List Char)
  | s, 0 => some ([], s)
  | [], _ + 1 => none
  | c :: s, n + 1 =>
    if c.utf8Size ≤ n + 1 then (splitAt s (n + 1 - c.utf8Size)).map fun parts => (c :: parts.1, parts.2)
    else none

/-- `&s[..n]`. -/
def sliceTo (s : List Char) (n : ℕ) : Option (List Char) := (splitAt s n).map Prod.fst

/-- `&s[n..]`. -/
def sliceFrom (s : List Char) (n : ℕ) : Option (List Char) := (splitAt s n).map Prod.snd

/-- `s.rfind(c)`. -/
def rfind (c : Char) (s : List Char) : Option ℕ :=
  if c ∈ s then some (size (s.reverse.dropWhile (· ≠ c)).tail.reverse) else none

theorem rfind_eq_some {c : Char} {t : List Char} (h : c ∉ t) (s : List Char) :
    rfind c (s ++ c :: t) = some (size s) := by
  have skip : ∀ d ∈ t.reverse, (decide (d ≠ c)) = true := fun d hd => by
    rw [decide_eq_true_iff]
    rintro rfl
    exact h (List.mem_reverse.1 hd)
  have found : (s ++ c :: t).reverse.dropWhile (· ≠ c) = c :: s.reverse := by
    rw [List.reverse_append, List.reverse_cons, List.append_assoc, List.dropWhile_append_of_pos skip]
    simp
  rw [rfind, if_pos (by simp), found, List.tail_cons, List.reverse_reverse]

theorem splitAt_cons {c : Char} {s : List Char} {n : ℕ} (h : c.utf8Size ≤ n) : splitAt (c :: s) n =
    (splitAt s (n - c.utf8Size)).map fun parts => (c :: parts.1, parts.2) := by
  have := c.utf8Size_pos
  cases n with
  | zero => omega
  | succ n => rw [splitAt, if_pos h]

/-- The offset between two texts splits them. -/
@[simp] theorem splitAt_size (s t : List Char) : splitAt (s ++ t) (size s) = some (s, t) := by
  induction s with
  | nil => cases t <;> rfl
  | cons c s ih =>
    rw [List.cons_append, size_cons, splitAt_cons (Nat.le_add_right _ _), Nat.add_sub_cancel_left, ih]
    rfl

theorem splitAt_size_add (s t : List Char) (n : ℕ) : splitAt (s ++ t) (size s + n) =
    (splitAt t n).map fun parts => (s ++ parts.1, parts.2) := by
  induction s with
  | nil => simp
  | cons c s ih =>
    have inside : c.utf8Size ≤ size (c :: s) + n := by
      rw [size_cons, Nat.add_assoc]
      exact Nat.le_add_right _ _
    have rest : size (c :: s) + n - c.utf8Size = size s + n := by
      rw [size_cons, Nat.add_assoc, Nat.add_sub_cancel_left]
    rw [List.cons_append, splitAt_cons inside, rest, ih, Option.map_map]
    rfl

/-- An offset inside a character. -/
theorem splitAt_inside {c : Char} {t : List Char} {n : ℕ} (pos : 0 < n) (h : n < c.utf8Size) :
    splitAt (c :: t) n = none := by
  cases n with
  | zero => omega
  | succ n => rw [splitAt, if_neg (by omega)]

theorem sliceTo_size (s t : List Char) : sliceTo (s ++ t) (size s) = some s := by
  rw [sliceTo, splitAt_size]
  rfl

theorem sliceFrom_size (s t : List Char) : sliceFrom (s ++ t) (size s) = some t := by
  rw [sliceFrom, splitAt_size]
  rfl

/-- One byte before the end of a text: the last character must be a single byte. -/
theorem sliceTo_last (s : List Char) (c : Char) :
    sliceTo (s ++ [c]) (size (s ++ [c]) - 1) = if c.utf8Size = 1 then some s else none := by
  have pos := c.utf8Size_pos
  have offset : size (s ++ [c]) - 1 = size s + (c.utf8Size - 1) := by
    rw [size_append, size_cons, size_nil]
    omega
  rw [sliceTo, offset, splitAt_size_add]
  split_ifs with single
  · simp [single, splitAt]
  · rw [splitAt_inside (by omega) (by omega)]
    rfl

end ByteOffsets

/-!
## The bytes of a text

A text begins another one exactly if its bytes do.  Bytes can also be read as characters one by one, and that
gives back the text where it is ASCII.
-/

namespace Utf8

open ByteOffsets

/-- The UTF-8 encoding of a text. -/
def bytes (s : List Char) : List UInt8 := s.flatMap String.utf8EncodeChar

@[simp] theorem bytes_nil : bytes [] = [] := rfl

@[simp] theorem bytes_cons (c : Char) (s : List Char) :
    bytes (c :: s) = String.utf8EncodeChar c ++ bytes s := rfl

@[simp] theorem bytes_append (s t : List Char) : bytes (s ++ t) = bytes s ++ bytes t := List.flatMap_append

@[simp] theorem length_bytes (s : List Char) : (bytes s).length = size s := by
  induction s with
  | nil => rfl
  | cons c s ih => simp [ih]

theorem bytes_isPrefix_iff {s t : List Char} : bytes s <+: bytes t ↔ s <+: t := by
  constructor
  · rintro ⟨rest, h⟩
    refine List.isPrefix_of_utf8Encode_append_eq_utf8Encode rest.toByteArray ?_
    rw [List.utf8Encode, List.utf8Encode, ← List.toByteArray_append]
    exact congrArg List.toByteArray h
  · rintro ⟨rest, rfl⟩
    exact ⟨bytes rest, (bytes_append s rest).symm⟩

theorem bytes_injective : Function.Injective bytes := by
  intro s t h
  have le : s <+: t := bytes_isPrefix_iff.1 (h ▸ List.prefix_rfl)
  have ge : t <+: s := bytes_isPrefix_iff.1 (h ▸ List.prefix_rfl)
  exact le.eq_of_length_le ge.length_le

/-! ### Single characters -/

theorem utf8EncodeChar_of_ascii {c : Char} (h : c.toNat < 128) :
    String.utf8EncodeChar c = [UInt8.ofNat c.toNat] := by
  have small : c.val.toNat ≤ 0x7f := Nat.le_of_lt_succ h
  rw [String.utf8EncodeChar]
  simp only [if_pos small]
  rfl

/-- All bytes of a character beyond ASCII are beyond ASCII, and there are several. -/
theorem utf8EncodeChar_of_not_ascii {c : Char} (h : ¬ c.toNat < 128) :
    2 ≤ (String.utf8EncodeChar c).length ∧ ∀ b ∈ String.utf8EncodeChar c, 128 ≤ b.toNat := by
  have large : ¬ c.val.toNat ≤ 0x7f := fun le => h (Nat.lt_succ_of_le le)
  rw [String.utf8EncodeChar]
  simp only [if_neg large]
  split_ifs
  all_goals
    refine ⟨by simp, fun b hb => ?_⟩
    simp only [List.mem_cons, List.not_mem_nil, or_false] at hb
    rcases hb with rfl | rfl | rfl | rfl
  all_goals
    rw [UInt8.toNat_ofNat']
    omega

/-! ### Bytes read as characters -/

/-- `byte as char`. -/
def latin1 (b : UInt8) : Char := Char.ofNat b.toNat

theorem toNat_latin1 (b : UInt8) : (latin1 b).toNat = b.toNat := by
  have small := b.toNat_lt
  have valid : b.toNat.isValidChar := Or.inl (by omega)
  rw [latin1, Char.ofNat, dif_pos valid]
  rfl

theorem latin1_injective : Function.Injective latin1 := by
  intro a b h
  rw [← UInt8.toNat_inj, ← toNat_latin1, h, toNat_latin1]

theorem map_latin1_injective : Function.Injective (List.map latin1) :=
  List.map_injective_iff.2 latin1_injective

theorem latin1_ofNat {c : Char} (h : c.toNat < 256) : latin1 (UInt8.ofNat c.toNat) = c := by
  rw [latin1, UInt8.toNat_ofNat', Nat.mod_eq_of_lt h]
  exact Char.ofNat_toNat c

theorem map_latin1_bytes {s : List Char} (h : ∀ c ∈ s, c.toNat < 128) : (bytes s).map latin1 = s := by
  induction s with
  | nil => rfl
  | cons c s ih =>
    have first := h c List.mem_cons_self
    rw [bytes_cons, utf8EncodeChar_of_ascii first, List.singleton_append, List.map_cons,
      ih fun d hd => h d (List.mem_cons_of_mem _ hd), latin1_ofNat (by omega)]

theorem length_le_size (s : List Char) : s.length ≤ size s := by
  induction s with
  | nil => exact le_rfl
  | cons c s ih =>
    have := c.utf8Size_pos
    rw [List.length_cons, size_cons]
    omega

/-- A text that is not ASCII has more bytes than characters, and some of them are not ASCII either. -/
theorem bytes_of_not_ascii {s : List Char} {c : Char} (hc : c ∈ s) (h : ¬ c.toNat < 128) :
    s.length < size s ∧ ∃ b ∈ bytes s, 128 ≤ b.toNat := by
  obtain ⟨front, rest, rfl⟩ := List.append_of_mem hc
  obtain ⟨several, high⟩ := utf8EncodeChar_of_not_ascii h
  have front_le := length_le_size front
  have rest_le := length_le_size rest
  rw [String.length_utf8EncodeChar] at several
  constructor
  · rw [List.length_append, List.length_cons, size_append, size_cons]
    omega
  · obtain ⟨b, hb⟩ := List.exists_mem_of_ne_nil _ (String.utf8EncodeChar_ne_nil (c := c))
    refine ⟨b, ?_, high b hb⟩
    rw [bytes_append, bytes_cons]
    exact List.mem_append_right _ (List.mem_append_left _ hb)

end Utf8
