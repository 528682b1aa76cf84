import Mathlib.Algebra.Order.Ring.Nat
import Mathlib.Data.List.Basic
import Mathlib.Data.Nat.Bits
import Mathlib.Tactic.Ring

/-!
# Little-endian numbers

A number as so many bytes, the least significant first, and back.
-/

namespace LittleEndian

/-- The lowest `width` bytes of a number. -/
def toBytes : ℕ → ℕ → List UInt8
  | 0, _ => []
  | width + 1, n => UInt8.ofNat n :: toBytes width (n / 256)

/-- The number of some bytes. -/
def ofBytes : List UInt8 → ℕ
  | [] => 0
  | b :: bytes => b.toNat + 256 * ofBytes bytes

@[simp] theorem length_toBytes (width n : ℕ) : (toBytes width n).length = width := by
  induction width generalizing n with
  | zero => rfl
  | succ width ih => exact congrArg (· + 1) (ih _)

theorem ofBytes_lt (bytes : List UInt8) : ofBytes bytes < 256 ^ bytes.length := by
  induction bytes with
  | nil => exact Nat.one_pos
  | cons b bytes ih =>
    have digit := b.toNat_lt
    rw [ofBytes, List.length_cons, pow_succ]
    omega

/-- What the bytes keep of a number. -/
theorem ofBytes_toBytes (width n : ℕ) : ofBytes (toBytes width n) = n % 256 ^ width := by
  induction width generalizing n with
  | zero => rw [pow_zero, Nat.mod_one, toBytes, ofBytes]
  | succ width ih =>
    have digit : (UInt8.ofNat n).toNat = n % 256 := UInt8.toNat_ofNat'
    rw [toBytes, ofBytes, ih, digit, pow_succ', Nat.mod_mul]

theorem ofBytes_toBytes_of_lt {width n : ℕ} (h : n < 256 ^ width) : ofBytes (toBytes width n) = n := by
  rw [ofBytes_toBytes, Nat.mod_eq_of_lt h]

theorem toBytes_ofBytes (bytes : List UInt8) : toBytes bytes.length (ofBytes bytes) = bytes := by
  induction bytes with
  | nil => rfl
  | cons b bytes ih =>
    have digit := b.toNat_lt
    have low : UInt8.ofNat (b.toNat + 256 * ofBytes bytes) = b := by
      apply UInt8.toNat_inj.1
      rw [UInt8.toNat_ofNat']
      omega
    have high : (b.toNat + 256 * ofBytes bytes) / 256 = ofBytes bytes := by omega
    rw [List.length_cons, ofBytes, toBytes, low, high, ih]

end LittleEndian

/-!
# Bytes and digits of six bits

Three bytes are four digits; of a shorter last group the digits are filled up with zeros, and read back they give
the bytes that are full.
-/

namespace Sextets

/-- The digits of bytes. -/
def digits : List ℕ → List ℕ
  | x :: y :: z :: rest => x / 4 :: (x % 4 * 16 + y / 16) :: (y % 16 * 4 + z / 64) :: z % 64 :: digits rest
  | [x, y] => [x / 4, x % 4 * 16 + y / 16, y % 16 * 4]
  | [x] => [x / 4, x % 4 * 16]
  | [] => []

/-- The bytes of digits.  A single last digit gives a byte too. -/
def bytes : List ℕ → List ℕ
  | a :: b :: c :: d :: rest => (a * 4 + b / 16) :: (b % 16 * 16 + c / 4) :: (c % 4 * 64 + d) :: bytes rest
  | [a, b, c] => [a * 4 + b / 16, b % 16 * 16 + c / 4]
  | [a, b] => [a * 4 + b / 16]
  | [a] => [a * 4]
  | [] => []

theorem bytes_lt {vs : List ℕ} (small : ∀ v ∈ vs, v < 64) : ∀ b ∈ bytes vs, b < 256 := by
  induction vs using bytes.induct with
  | case1 a b c d rest ih =>
    simp only [List.forall_mem_cons] at small
    obtain ⟨ha, hb, hc, hd, small⟩ := small
    simp only [bytes, List.forall_mem_cons]
    exact ⟨by omega, by omega, by omega, ih small⟩
  | case2 a b c =>
    simp only [List.forall_mem_cons] at small
    simp only [bytes, List.forall_mem_cons]
    exact ⟨by omega, by omega, by simp⟩
  | case3 a b =>
    simp only [List.forall_mem_cons] at small
    simp only [bytes, List.forall_mem_cons]
    exact ⟨by omega, by simp⟩
  | case4 a =>
    simp only [List.forall_mem_cons] at small
    simp only [bytes, List.forall_mem_cons]
    exact ⟨by omega, by simp⟩
  | case5 => simp [bytes]

theorem bytes_digits {bs : List ℕ} (small : ∀ b ∈ bs, b < 256) : bytes (digits bs) = bs := by
  induction bs using digits.induct with
  | case1 x y z rest ih =>
    simp only [List.forall_mem_cons] at small
    obtain ⟨hx, hy, hz, small⟩ := small
    rw [digits, bytes, ih small]
    simp only [List.cons.injEq, and_true]
    refine ⟨?_, ?_, ?_⟩ <;> omega
  | case2 x y =>
    simp only [List.forall_mem_cons] at small
    rw [digits, bytes]
    simp only [List.cons.injEq, and_true]
    constructor <;> omega
  | case3 x =>
    simp only [List.forall_mem_cons] at small
    rw [digits, bytes]
    simp only [List.cons.injEq, and_true]
    omega
  | case4 => rfl

/-- No single digit is left over, and the bits that belong to no byte are zero. -/
structure Exact (vs : List ℕ) : Prop where
  whole : vs.length % 4 ≠ 1
  two : vs.length % 4 = 2 → ∀ v ∈ vs.getLast?, v % 16 = 0
  three : vs.length % 4 = 3 → ∀ v ∈ vs.getLast?, v % 4 = 0

theorem exact_group (a b c d : ℕ) (rest : List ℕ) : Exact (a :: b :: c :: d :: rest) ↔ Exact rest := by
  have length : (a :: b :: c :: d :: rest).length % 4 = rest.length % 4 := by
    simp only [List.length_cons]
    omega
  cases rest with
  | nil =>
    refine ⟨fun _ => ⟨by simp, by simp, by simp⟩, fun _ => ⟨by simp, by simp, by simp⟩⟩
  | cons e rest =>
    have last : (a :: b :: c :: d :: e :: rest).getLast? = (e :: rest).getLast? := by
      simp only [List.getLast?_cons_cons]
    constructor <;> rintro ⟨whole, two, three⟩
    · rw [length] at whole two three
      rw [last] at two three
      exact ⟨whole, two, three⟩
    · refine ⟨?_, ?_, ?_⟩ <;> rw [length]
      · exact whole
      · rwa [last]
      · rwa [last]

/-- Reading digits loses nothing exactly if nothing is left over. -/
theorem digits_bytes_iff {vs : List ℕ} (small : ∀ v ∈ vs, v < 64) : digits (bytes vs) = vs ↔ Exact vs := by
  induction vs using bytes.induct with
  | case1 a b c d rest ih =>
    simp only [List.forall_mem_cons] at small
    obtain ⟨ha, hb, hc, hd, small⟩ := small
    rw [exact_group, ← ih small, bytes, digits]
    simp only [List.cons.injEq]
    constructor
    · exact fun h => h.2.2.2.2
    · intro h
      refine ⟨?_, ?_, ?_, ?_, h⟩ <;> omega
  | case2 a b c =>
    simp only [List.forall_mem_cons] at small
    rw [bytes, digits]
    simp only [List.cons.injEq, and_true]
    constructor
    · rintro ⟨-, -, eq⟩
      exact ⟨by simp, by simp, fun _ v last => by simp at last; omega⟩
    · intro exact
      have := exact.three (by simp) c (by simp)
      refine ⟨?_, ?_, ?_⟩ <;> omega
  | case3 a b =>
    simp only [List.forall_mem_cons] at small
    rw [bytes, digits]
    simp only [List.cons.injEq, and_true]
    constructor
    · rintro ⟨-, eq⟩
      exact ⟨by simp, fun _ v last => by simp at last; omega, by simp⟩
    · intro exact
      have := exact.two (by simp) b (by simp)
      constructor <;> omega
  | case4 a =>
    rw [bytes, digits]
    simp only [List.cons.injEq]
    exact ⟨fun h => by simp at h, fun exact => absurd rfl exact.whole⟩
  | case5 => exact ⟨fun _ => ⟨by simp, by simp, by simp⟩, fun _ => rfl⟩

end Sextets
