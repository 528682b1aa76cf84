import Mathlib.Algebra.Order.Ring.Nat
import Mathlib.Tactic.NormNum

/-! ULIDs: 128-bit identifiers written as 26 Crockford base-32 characters. -/

namespace TORdex

/-- A 128-bit ULID. -/
structure Ulid where
  value : Fin (2 ^ 128)
  deriving DecidableEq, Repr

namespace Ulid

/-- The Crockford alphabet. -/
def alphabet : List Char := "0123456789ABCDEFGHJKMNPQRSTVWXYZ".toList

/-- The character of a digit. -/
def encodeDigit (n : ℕ) : Char := alphabet.getD n '0'

/-- The value of a Crockford character, in either case. -/
def decodeDigit (c : Char) : Option ℕ := alphabet.idxOf? c.toUpper

/-- `Ulid::to_string`: the 26 digits, most significant first. -/
def toString (u : Ulid) : String :=
  String.ofList ((List.range 26).map fun i => encodeDigit (u.value / 32 ^ (25 - i) % 32))

/-- The low 128 bits of a number. -/
def ofNat (n : ℕ) : Ulid := ⟨Fin.ofNat _ n⟩

/-- `Ulid::from_string`: exactly the 26-character Crockford strings are accepted; the two top bits
of the 130 are shifted out. -/
def fromString (s : String) : Option Ulid :=
  if s.length = 26 then
    (s.toList.mapM decodeDigit).map fun digits =>
      ofNat (digits.foldl (fun v d => 32 * v + d) 0)
  else none

theorem decodeDigit_encodeDigit : ∀ n < 32, decodeDigit (encodeDigit n) = some n := by decide

theorem mapM_decodeDigit {digits : List ℕ} (h : ∀ n ∈ digits, n < 32) :
    (digits.map encodeDigit).mapM decodeDigit = some digits := by
  induction digits with
  | nil => rfl
  | cons n digits ih =>
    rw [List.map_cons, List.mapM_cons, decodeDigit_encodeDigit n (h n List.mem_cons_self),
      ih fun m hm => h m (List.mem_cons_of_mem _ hm)]
    rfl

/-- The first `k` of `m` base-32 digits give the number without its last `m - k` digits. -/
theorem foldl_digits {v m : ℕ} (hv : v < 32 ^ m) (k : ℕ) (hk : k ≤ m) :
    ((List.range k).map fun i => v / 32 ^ (m - 1 - i) % 32).foldl (fun v d => 32 * v + d) 0 =
      v / 32 ^ (m - k) := by
  induction k with
  | zero => simp [Nat.div_eq_of_lt hv]
  | succ k ih =>
    have power : 32 ^ (m - k) = 32 ^ (m - (k + 1)) * 32 := by
      rw [← pow_succ]
      congr 1
      omega
    have place : m - 1 - k = m - (k + 1) := by omega
    rw [List.range_succ, List.map_append, List.foldl_append, ih (by omega), power,
      ← Nat.div_div_eq_div_mul, List.map_singleton, List.foldl_cons, List.foldl_nil, place]
    exact Nat.div_add_mod _ 32

theorem length_toString (u : Ulid) : u.toString.length = 26 := by
  rw [toString, String.length_ofList, List.length_map, List.length_range]

/-- Reading a written ULID. -/
theorem fromString_toString (u : Ulid) : fromString u.toString = some u := by
  obtain ⟨⟨v, hv⟩⟩ := u
  have digits : ∀ n ∈ (List.range 26).map fun i => v / 32 ^ (25 - i) % 32, n < 32 := by
    intro n hn
    obtain ⟨i, -, rfl⟩ := List.mem_map.1 hn
    exact Nat.mod_lt _ (by decide)
  have value := foldl_digits (hv.trans (by norm_num : 2 ^ 128 < 32 ^ 26)) 26 (Nat.le_refl 26)
  rw [Nat.sub_self, pow_zero, Nat.div_one] at value
  rw [fromString, if_pos (length_toString _), toString, String.toList_ofList]
  have decoded := mapM_decodeDigit digits
  rw [List.map_map] at decoded
  rw [show (fun i => encodeDigit (v / 32 ^ (25 - i) % 32)) =
    encodeDigit ∘ fun i => v / 32 ^ (25 - i) % 32 from rfl, decoded, Option.map_some, value]
  exact congrArg (fun n => some (Ulid.mk n)) (Fin.ext (Nat.mod_eq_of_lt hv))

theorem toString_injective : Function.Injective toString := by
  intro u v h
  have := fromString_toString u
  rw [h, fromString_toString] at this
  exact (Option.some.inj this).symm

/-- A string of another length is no ULID. -/
theorem fromString_of_length_ne {s : String} (h : s.length ≠ 26) : fromString s = none :=
  if_neg h

example : (fromString "01ARZ3NDEKTSV4RRFFQ69G5FAV").map toString =
    some "01ARZ3NDEKTSV4RRFFQ69G5FAV" := by decide

end Ulid

end TORdex
