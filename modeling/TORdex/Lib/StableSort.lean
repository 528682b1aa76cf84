import Mathlib.Data.List.Nodup
import Mathlib.Data.List.Sort

/-!
# Stable sorting

A stable sort of distinct entries is the one rearrangement that is sorted and keeps entries of equal rank in
their order.
-/

namespace StableSort

variable {α : Type*} {l t : List α} {a b : α}

/-- Two distinct entries stand in one of the two orders. -/
theorem pair_or (ha : a ∈ l) (hb : b ∈ l) (ne : a ≠ b) : [a, b].Sublist l ∨ [b, a].Sublist l := by
  induction l with
  | nil => exact nomatch ha
  | cons x l ih =>
    rcases List.mem_cons.1 ha with rfl | inA <;> rcases List.mem_cons.1 hb with rfl | inB
    · exact absurd rfl ne
    · exact .inl ((List.singleton_sublist.2 inB).cons_cons a)
    · exact .inr ((List.singleton_sublist.2 inA).cons_cons b)
    · exact (ih inA inB).imp (·.cons x) (·.cons x)

/-- In a list of distinct entries not in both. -/
theorem not_pair_swap (nodup : l.Nodup) (h : [a, b].Sublist l) : ¬[b, a].Sublist l := by
  induction l with
  | nil => exact nomatch h
  | cons x l ih =>
    obtain ⟨fresh, rest⟩ := List.nodup_cons.1 nodup
    have second : ∀ {y z}, [y, z].Sublist (x :: l) → z ≠ x := by
      rintro y z sub rfl
      rcases List.sublist_cons_iff.1 sub with sub | ⟨r, split, sub⟩
      · exact fresh (sub.subset (by simp))
      · rw [← (List.cons.inj split).2] at sub
        exact fresh (sub.subset (by simp))
    intro h'
    rcases List.sublist_cons_iff.1 h with inner | ⟨r, split, -⟩
    · rcases List.sublist_cons_iff.1 h' with inner' | ⟨r, split, -⟩
      · exact ih rest inner inner'
      · exact second h (List.cons.inj split).1
    · exact second h' (List.cons.inj split).1

variable (le : α → α → Bool)

/-- `t` is sorted, and entries of equal rank stand in it as in `l`. -/
structure IsStable (l t : List α) : Prop where
  sorted : t.Pairwise fun a b => le a b = true
  keeps : ∀ a b, [a, b].Sublist l → le a b = true → le b a = true → [a, b].Sublist t

variable {le}

/-- Where two entries of a stable arrangement stand. -/
theorem IsStable.order (stable : IsStable le l t) (perm : t.Perm l) (nodup : l.Nodup) :
    t.Pairwise fun a b => le a b = true ∧ (le b a = true → [a, b].Sublist l) := by
  rw [List.pairwise_iff_forall_sublist]
  intro a b h
  have hab := stable.sorted.forall_sublist h
  refine ⟨hab, fun hba => ?_⟩
  have nodup' : t.Nodup := perm.nodup_iff.2 nodup
  have ne : a ≠ b := by
    rintro rfl
    exact not_pair_swap nodup' h h
  have mem : ∀ {x}, x ∈ [a, b] → x ∈ l := fun hx => perm.mem_iff.1 (h.subset hx)
  refine (pair_or (mem (by simp)) (mem (by simp)) ne).resolve_right fun swapped => ?_
  exact not_pair_swap nodup' h (stable.keeps b a swapped hba hab)

variable (trans : ∀ a b c, le a b = true → le b c = true → le a c = true)
  (total : ∀ a b, (le a b || le b a) = true)

include trans total in
/-- The stable sort is the only such arrangement. -/
theorem mergeSort_eq_iff (nodup : l.Nodup) (perm : t.Perm l) :
    l.mergeSort le = t ↔ IsStable le l t := by
  have sort : IsStable le l (l.mergeSort le) :=
    ⟨List.pairwise_mergeSort trans total l, fun a b h hab _ =>
      List.pair_sublist_mergeSort trans total hab h⟩
  constructor
  · rintro rfl
    exact sort
  · intro stable
    have sortPerm := List.mergeSort_perm l le
    refine (sortPerm.trans perm.symm).eq_of_pairwise ?_ (sort.order sortPerm nodup)
      (stable.order perm nodup)
    rintro a b - - ⟨hab, first⟩ ⟨hba, second⟩
    by_contra ne
    exact not_pair_swap nodup (first hba) (second hab)

end StableSort
