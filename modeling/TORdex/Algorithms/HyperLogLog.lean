import Mathlib.Data.Multiset.Dedup
import Mathlib.Order.BoundedOrder.Basic
import TORdex.Algorithms.MerkleTree
import TORdex.Lib.Bytes
import TORdex.Lib.Runs

/-!
# HyperLogLog

An item raises one register to a rank, both read off its hash.  So a register is the greatest rank of the
items that have it, and a merge takes the greater registers.  `none` is a panic.
-/

namespace TORdex

/-- `isize::MAX`, the size that no vector exceeds. -/
def isizeMax : ℕ := 2 ^ 63 - 1

/-- The registers, of which the first bits of a hash choose one. -/
structure HyperLogLog where
  registers : List UInt8
  precision : ℕ
  deriving DecidableEq

namespace HyperLogLog

/-! ## The model -/

/-- A shift by the width of the type or more panics. -/
def checkedShift (shift : ℕ → BitVec 64) (n : ℕ) : Option (BitVec 64) :=
  if n < 64 then some (shift n) else none

/-- `vec![0u8; 1 << precision]` panics beyond the capacity of a vector. -/
def new (precision : ℕ) : Option HyperLogLog :=
  if precision < 64 ∧ 2 ^ precision ≤ isizeMax then some ⟨List.replicate (2 ^ precision) 0, precision⟩
  else none

-- `hash_bytes`, SHA-256.
variable (hashBytes : List UInt8 → Digest)

/-- The first eight bytes of the hash. -/
def fullHash (data : List UInt8) : BitVec 64 :=
  BitVec.ofNat 64 (LittleEndian.ofBytes ((hashBytes data).toList.take 8))

/-- `leading_zeros() as u8 + 1`. -/
def rankOf (remaining : BitVec 64) : UInt8 := UInt8.ofNat remaining.clz.toNat + 1

/-- Raise the register of an item. -/
def insert (s : HyperLogLog) (data : List UInt8) : Option HyperLogLog := do
  let hash := fullHash hashBytes data
  if 64 < s.precision then none
  let index ← checkedShift (hash >>> ·) (64 - s.precision)
  let remaining ← checkedShift (hash <<< ·) s.precision
  let rank := rankOf remaining
  let register ← s.registers[index.toNat]?
  if rank > register then return { s with registers := s.registers.set index.toNat rank } else return s

/-- Insert items one after another. -/
def insertAll (s : HyperLogLog) (items : List (List UInt8)) : Option HyperLogLog :=
  items.foldlM (insert hashBytes) s

/-- The greater of the registers of two sketches of one size. -/
def merge (s other : HyperLogLog) : HyperLogLog :=
  if s.registers.length ≠ other.registers.length then s
  else { s with registers := s.registers.zipWith (fun a b => if b > a then b else a) other.registers }

/-! ## What is seen of a sketch -/

section Registers

variable {hashBytes} {s t : HyperLogLog} {p : ℕ}

/-- The registers as ranks. -/
def register (s : HyperLogLog) (i : ℕ) : ℕ := (s.registers.getD i 0).toNat

theorem register_of_lt {i : ℕ} (h : i < s.registers.length) : s.register i = s.registers[i].toNat := by
  rw [register, List.getD_eq_getElem?_getD, List.getElem?_eq_getElem h, Option.getD_some]

/-- A sketch of a precision. -/
structure Sized (p : ℕ) (s : HyperLogLog) : Prop where
  precision : s.precision = p
  length : s.registers.length = 2 ^ p

theorem Sized.ext (hs : Sized p s) (ht : Sized p t) (same : s.register = t.register) : s = t := by
  obtain ⟨registers, precision⟩ := s
  obtain ⟨registers', precision'⟩ := t
  obtain ⟨rfl, length⟩ := hs
  obtain ⟨precisions, length'⟩ := ht
  obtain rfl : precision' = precision := precisions
  have lists : registers = registers' := by
    refine List.ext_getElem (length.trans length'.symm) fun i h h' => ?_
    have values := congrFun same i
    rw [register_of_lt h, register_of_lt h'] at values
    exact UInt8.toNat_inj.1 values
  rw [lists]

theorem sized_new (high : p ≤ 62) : ∃ s, new p = some s ∧ Sized p s ∧ s.register = ⊥ := by
  have fits : 2 ^ p ≤ isizeMax := by
    have le := Nat.pow_le_pow_right Nat.two_pos high
    exact le.trans (by decide)
  refine ⟨⟨List.replicate (2 ^ p) 0, p⟩, if_pos ⟨by omega, fits⟩, ⟨rfl, List.length_replicate⟩,
    funext fun i => ?_⟩
  rw [register, List.getD_eq_getElem?_getD, List.getElem?_replicate]
  split_ifs <;> rfl

variable (hashBytes) in
/-- The one register that an item raises. -/
def spot (p : ℕ) (data : List UInt8) : ℕ → ℕ :=
  Function.update ⊥ (fullHash hashBytes data >>> (64 - p)).toNat
    (rankOf (fullHash hashBytes data <<< p)).toNat

/-- The highest bits of a hash are the index of a register. -/
theorem index_lt (hash : BitVec 64) (high : p ≤ 64) : (hash >>> (64 - p)).toNat < 2 ^ p := by
  rw [BitVec.toNat_ushiftRight, Nat.shiftRight_eq_div_pow]
  refine Nat.div_lt_of_lt_mul (hash.isLt.trans_eq ?_)
  rw [← pow_add]
  congr 1
  omega

/-- An insertion joins the item's register. -/
theorem insert_joins (hashBytes : List UInt8 → Digest) (low : 1 ≤ p) (high : p ≤ 63) (s : HyperLogLog)
    (data : List UInt8) (hs : Sized p s) :
    ∃ t, insert hashBytes s data = some t ∧ Sized p t ∧ t.register = s.register ⊔ spot hashBytes p data := by
  obtain ⟨registers, precision⟩ := s
  obtain ⟨same, length⟩ := hs
  obtain rfl : precision = p := same
  set i := (fullHash hashBytes data >>> (64 - precision)).toNat with hi
  set rank := rankOf (fullHash hashBytes data <<< precision) with hrank
  have inside : i < registers.length := (index_lt _ (by omega)).trans_eq length.symm
  have run : insert hashBytes ⟨registers, precision⟩ data =
      if rank > registers[i] then some ⟨registers.set i rank, precision⟩
      else some ⟨registers, precision⟩ := by
    have right : checkedShift (fullHash hashBytes data >>> ·) (64 - precision) =
      some (fullHash hashBytes data >>> (64 - precision)) := if_pos (by omega)
    have left : checkedShift (fullHash hashBytes data <<< ·) precision =
        some (fullHash hashBytes data <<< precision) :=
      if_pos (by omega)
    rw [insert]
    dsimp only
    rw [if_neg (by omega), right, left]
    dsimp only [Option.bind_eq_bind, Option.bind_some]
    rw [← hi, ← hrank, List.getElem?_eq_getElem inside]
    rfl
  have elsewhere : ∀ j ≠ i, spot hashBytes precision data j = 0 := fun j ne => Function.update_of_ne ne _ _
  have here : spot hashBytes precision data i = rank.toNat := Function.update_self _ _ _
  have old : register ⟨registers, precision⟩ i = registers[i].toNat := register_of_lt inside
  rw [run]
  split_ifs with raised
  · refine ⟨_, rfl, ⟨rfl, (List.length_set ..).trans length⟩, funext fun j => ?_⟩
    rw [Pi.sup_apply]
    by_cases same : j = i
    · have le : registers[i].toNat ≤ rank.toNat := (UInt8.lt_iff_toNat_lt.1 raised).le
      rw [same, here, old, sup_eq_right.2 le, register_of_lt (by simpa using inside)]
      exact congrArg UInt8.toNat (List.getElem_set_self _)
    · rw [elsewhere j same, Nat.max_zero]
      show ((registers.set i rank).getD j 0).toNat = (registers.getD j 0).toNat
      rw [List.getD_eq_getElem?_getD, List.getD_eq_getElem?_getD, List.getElem?_set_ne (Ne.symm same)]
  · refine ⟨_, rfl, ⟨rfl, length⟩, funext fun j => ?_⟩
    rw [Pi.sup_apply]
    by_cases same : j = i
    · have le : rank.toNat ≤ registers[i].toNat := by
        rw [gt_iff_lt, UInt8.lt_iff_toNat_lt] at raised
        omega
      rw [same, here, old, sup_eq_left.2 le]
    · rw [elsewhere j same, Nat.max_zero]

/-- A merge joins the registers. -/
theorem merge_joins (hs : Sized p s) (ht : Sized p t) :
    Sized p (s.merge t) ∧ (s.merge t).register = s.register ⊔ t.register := by
  have lengths : s.registers.length = t.registers.length := hs.length.trans ht.length.symm
  have run : s.merge t = ⟨s.registers.zipWith (fun a b => if b > a then b else a) t.registers, s.precision⟩ :=
    if_neg (not_not.2 lengths)
  rw [run]
  refine ⟨⟨hs.precision, ?_⟩, funext fun i => ?_⟩
  · rw [List.length_zipWith, ← lengths, min_self]
    exact hs.length
  · rw [Pi.sup_apply, register, register, register, List.getD_eq_getElem?_getD, List.getD_eq_getElem?_getD,
      List.getD_eq_getElem?_getD, List.getElem?_zipWith]
    by_cases inside : i < s.registers.length
    · rw [List.getElem?_eq_getElem inside, List.getElem?_eq_getElem (lengths ▸ inside)]
      simp only [Option.getD_some]
      split_ifs with greater
      · exact (sup_eq_right.2 (UInt8.lt_iff_toNat_lt.1 greater).le).symm
      · rw [gt_iff_lt, UInt8.lt_iff_toNat_lt, not_lt] at greater
        exact (sup_eq_left.2 greater).symm
    · rw [List.getElem?_eq_none (not_lt.1 inside), List.getElem?_eq_none (lengths ▸ not_lt.1 inside)]
      rfl

end Registers

/-! ## Splitting a stream -/

section Splitting

variable {p : ℕ}

/-- The distinct items of two streams, in one sketch in any order and any number, or in two sketches that are
merged. -/
def SplitsAt (empty : HyperLogLog) : Prop :=
  ∀ (A B : Multiset (List UInt8)) (all left right : List (List UInt8)), (∀ x, x ∈ all ↔ x ∈ A ∨ x ∈ B) →
    (left : Multiset (List UInt8)) = A.dedup → (right : Multiset (List UInt8)) = B.dedup →
    ∃ one a b, insertAll hashBytes empty all = some one ∧ insertAll hashBytes empty left = some a ∧
      insertAll hashBytes empty right = some b ∧ a.merge b = one ∧ b.merge a = one ∧
      one.merge one = one ∧ (a.merge b).merge b = a.merge b

/-- **Sketches do not depend on order, repetition or splitting.** -/
theorem splits_new (low : 1 ≤ p) (high : p ≤ 62) :
    ∃ empty, new p = some empty ∧ SplitsAt hashBytes empty := by
  obtain ⟨empty, made, sized, blank⟩ := sized_new high
  refine ⟨empty, made, fun A B all left right covers hleft hright => ?_⟩
  have run := fun items => Joins.exists_run (insert_joins hashBytes low (by omega)) items sized
  obtain ⟨one, ran, sizedOne, seenOne⟩ := run all
  obtain ⟨a, ranA, sizedA, seenA⟩ := run left
  obtain ⟨b, ranB, sizedB, seenB⟩ := run right
  rw [blank, bot_sup_eq] at seenOne seenA seenB
  have items : all.toFinset = left.toFinset ∪ right.toFinset := by
    ext x
    rw [Finset.mem_union, List.mem_toFinset, List.mem_toFinset, List.mem_toFinset, covers,
      ← Multiset.mem_dedup, ← hleft, ← Multiset.mem_dedup (s := B), ← hright, Multiset.mem_coe,
      Multiset.mem_coe]
  have whole : one.register = a.register ⊔ b.register := by
    rw [seenOne, seenA, seenB, items, Finset.sup_union]
  obtain ⟨sizedAB, seenAB⟩ := merge_joins sizedA sizedB
  obtain ⟨sizedBA, seenBA⟩ := merge_joins sizedB sizedA
  obtain ⟨sizedOO, seenOO⟩ := merge_joins sizedOne sizedOne
  obtain ⟨sizedABB, seenABB⟩ := merge_joins sizedAB sizedB
  refine ⟨one, a, b, ran, ranA, ranB, sizedAB.ext sizedOne ?_, sizedBA.ext sizedOne ?_,
    sizedOO.ext sizedOne ?_, sizedABB.ext sizedAB ?_⟩
  · rw [seenAB, whole]
  · rw [seenBA, whole, sup_comm]
  · rw [seenOO, sup_idem]
  · rw [seenABB, seenAB, sup_assoc, sup_idem]

theorem splits_new_four :
    ∃ empty, new 4 = some empty ∧ SplitsAt (fun data => Vector.replicate 32 (data.headD 0)) empty :=
  splits_new _ (by decide) (by decide)

/-- The registers of the largest precision are more than a vector can hold. -/
theorem not_splits_new :
    ¬ ∃ empty, new 63 = some empty ∧ SplitsAt (fun data => Vector.replicate 32 (data.headD 0)) empty := by
  rintro ⟨empty, made, -⟩
  have panics : new 63 = none := if_neg (by decide)
  rw [panics] at made
  cases made

end Splitting

end HyperLogLog

end TORdex
