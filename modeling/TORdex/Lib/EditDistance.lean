import Mathlib.Order.Bounds.Basic
import Mathlib.Order.MinMax

/-!
# Edit distance

The least number of edits that lead from one list to another, where an edit deletes, inserts or replaces one symbol,
and how the distance of two lists follows from the distances of shorter ones.
-/

namespace EditDistance

variable {α : Type*} {x y : α} {xs ys zs xs' ys' : List α} {m n l u d : ℕ}

/-- One symbol is deleted, inserted or replaced. -/
inductive Edit : List α → List α → Prop
  | delete (before : List α) (x : α) (after : List α) : Edit (before ++ x :: after) (before ++ after)
  | insert (before : List α) (y : α) (after : List α) : Edit (before ++ after) (before ++ y :: after)
  | replace (before : List α) (x y : α) (after : List α) : Edit (before ++ x :: after) (before ++ y :: after)

/-- So many edits lead from one list to another. -/
inductive Edits : ℕ → List α → List α → Prop
  | refl (xs : List α) : Edits 0 xs xs
  | tail {n : ℕ} {xs ys zs : List α} : Edits n xs ys → Edit ys zs → Edits (n + 1) xs zs

/-- The least number of edits between two lists. -/
def IsDistance (xs ys : List α) (d : ℕ) : Prop := IsLeast {n | Edits n xs ys} d

/-- The edits from left to right, each symbol touched once. -/
inductive Aligned : List α → List α → ℕ → Prop
  | nil : Aligned [] [] 0
  | delete (x : α) {xs ys : List α} {n : ℕ} : Aligned xs ys n → Aligned (x :: xs) ys (n + 1)
  | insert (y : α) {xs ys : List α} {n : ℕ} : Aligned xs ys n → Aligned xs (y :: ys) (n + 1)
  | keep (x : α) {xs ys : List α} {n : ℕ} : Aligned xs ys n → Aligned (x :: xs) (x :: ys) n
  | replace (x y : α) {xs ys : List α} {n : ℕ} : Aligned xs ys n → Aligned (x :: xs) (y :: ys) (n + 1)

/-! ## Alignments are edits -/

theorem Edit.cons (z : α) (edit : Edit xs ys) : Edit (z :: xs) (z :: ys) := by
  cases edit with
  | delete before x after => exact .delete (z :: before) x after
  | insert before y after => exact .insert (z :: before) y after
  | replace before x y after => exact .replace (z :: before) x y after

theorem Edits.cons (z : α) (edits : Edits n xs ys) : Edits n (z :: xs) (z :: ys) := by
  induction edits with
  | refl xs => exact .refl _
  | tail _ edit ih => exact ih.tail (edit.cons z)

theorem Aligned.edits (aligned : Aligned xs ys n) : Edits n xs ys := by
  induction aligned with
  | nil => exact .refl _
  | delete x _ ih => exact (ih.cons x).tail (.delete [] x _)
  | insert y _ ih => exact ih.tail (.insert [] y _)
  | keep x _ ih => exact ih.cons x
  | replace x y _ ih => exact (ih.cons x).tail (.replace [] x y _)

/-! ## Edits can be aligned -/

theorem Aligned.refl (xs : List α) : Aligned xs xs 0 := by
  induction xs with
  | nil => exact .nil
  | cons x _ ih => exact ih.keep x

theorem Aligned.append (left : Aligned xs ys m) (right : Aligned xs' ys' n) :
    Aligned (xs ++ xs') (ys ++ ys') (m + n) := by
  induction left with
  | nil => rwa [Nat.zero_add]
  | delete x _ ih => exact Nat.add_right_comm _ n 1 ▸ ih.delete x
  | insert y _ ih => exact Nat.add_right_comm _ n 1 ▸ ih.insert y
  | keep x _ ih => exact ih.keep x
  | replace x y _ ih => exact Nat.add_right_comm _ n 1 ▸ ih.replace x y

/-- An alignment with a list in two parts has two parts. -/
theorem Aligned.split (aligned : Aligned xs ys n) {before after : List α} (parts : ys = before ++ after) :
    ∃ left right j k, xs = left ++ right ∧ n = j + k ∧ Aligned left before j ∧ Aligned right after k := by
  induction aligned generalizing before with
  | nil =>
    obtain ⟨rfl, rfl⟩ := List.append_eq_nil_iff.1 parts.symm
    exact ⟨[], [], 0, 0, rfl, rfl, .nil, .nil⟩
  | delete x _ ih =>
    obtain ⟨left, right, j, k, rfl, rfl, first, second⟩ := ih parts
    exact ⟨x :: left, right, j + 1, k, rfl, by omega, first.delete x, second⟩
  | insert y rest ih =>
    rcases List.cons_eq_append_iff.1 parts with ⟨rfl, rfl⟩ | ⟨before, rfl, rfl⟩
    · exact ⟨[], _, 0, _, rfl, (Nat.zero_add _).symm, .nil, rest.insert y⟩
    · obtain ⟨left, right, j, k, rfl, rfl, first, second⟩ := ih rfl
      exact ⟨left, right, j + 1, k, rfl, by omega, first.insert y, second⟩
  | keep x rest ih =>
    rcases List.cons_eq_append_iff.1 parts with ⟨rfl, rfl⟩ | ⟨before, rfl, rfl⟩
    · exact ⟨[], _, 0, _, rfl, (Nat.zero_add _).symm, .nil, rest.keep x⟩
    · obtain ⟨left, right, j, k, rfl, rfl, first, second⟩ := ih rfl
      exact ⟨x :: left, right, j, k, rfl, rfl, first.keep x, second⟩
  | replace x y rest ih =>
    rcases List.cons_eq_append_iff.1 parts with ⟨rfl, rfl⟩ | ⟨before, rfl, rfl⟩
    · exact ⟨[], _, 0, _, rfl, (Nat.zero_add _).symm, .nil, rest.replace x y⟩
    · obtain ⟨left, right, j, k, rfl, rfl, first, second⟩ := ih rfl
      exact ⟨x :: left, right, j + 1, k, rfl, by omega, first.replace x y, second⟩

/-- Without its first symbol a list is at most one edit further. -/
theorem Aligned.without (aligned : Aligned xs zs n) (head : zs = y :: ys) : ∃ k ≤ n + 1, Aligned xs ys k := by
  induction aligned with
  | nil => cases head
  | delete x _ ih =>
    obtain ⟨k, le, shorter⟩ := ih head
    exact ⟨k + 1, by omega, shorter.delete x⟩
  | insert y rest =>
    obtain ⟨rfl, rfl⟩ := List.cons.inj head
    exact ⟨_, by omega, rest⟩
  | keep x rest =>
    obtain ⟨rfl, rfl⟩ := List.cons.inj head
    exact ⟨_, le_rfl, rest.delete x⟩
  | replace x y rest =>
    obtain ⟨rfl, rfl⟩ := List.cons.inj head
    exact ⟨_, by omega, rest.delete x⟩

/-- With another first symbol a list is at most one edit further. -/
theorem Aligned.instead (z : α) (aligned : Aligned xs zs n) (head : zs = y :: ys) :
    ∃ k ≤ n + 1, Aligned xs (z :: ys) k := by
  induction aligned with
  | nil => cases head
  | delete x _ ih =>
    obtain ⟨k, le, shorter⟩ := ih head
    exact ⟨k + 1, by omega, shorter.delete x⟩
  | insert y rest =>
    obtain ⟨rfl, rfl⟩ := List.cons.inj head
    exact ⟨_, by omega, rest.insert z⟩
  | keep x rest =>
    obtain ⟨rfl, rfl⟩ := List.cons.inj head
    exact ⟨_, le_rfl, rest.replace x z⟩
  | replace x y rest =>
    obtain ⟨rfl, rfl⟩ := List.cons.inj head
    exact ⟨_, by omega, rest.replace x z⟩

theorem Aligned.edit (aligned : Aligned xs ys n) (edit : Edit ys zs) : ∃ k ≤ n + 1, Aligned xs zs k := by
  cases edit with
  | delete before x after =>
    obtain ⟨left, right, j, k, rfl, rfl, first, second⟩ := aligned.split rfl
    obtain ⟨k', le, shorter⟩ := second.without rfl
    exact ⟨j + k', by omega, first.append shorter⟩
  | insert before y after =>
    obtain ⟨left, right, j, k, rfl, rfl, first, second⟩ := aligned.split rfl
    exact ⟨j + (k + 1), by omega, first.append (second.insert y)⟩
  | replace before x y after =>
    obtain ⟨left, right, j, k, rfl, rfl, first, second⟩ := aligned.split rfl
    obtain ⟨k', le, other⟩ := second.instead y rfl
    exact ⟨j + k', by omega, first.append other⟩

theorem Edits.aligned (edits : Edits n xs ys) : ∃ k ≤ n, Aligned xs ys k := by
  induction edits with
  | refl xs => exact ⟨0, le_rfl, .refl xs⟩
  | tail _ edit ih =>
    obtain ⟨k, le, aligned⟩ := ih
    obtain ⟨k', le', aligned'⟩ := aligned.edit edit
    exact ⟨k', by omega, aligned'⟩

/-! ## The recurrence -/

/-- A distance is the least cost of an alignment. -/
theorem isDistance_of_aligned (aligned : Aligned xs ys d) (least : ∀ k, Aligned xs ys k → d ≤ k) :
    IsDistance xs ys d := by
  refine ⟨aligned.edits, fun n edits => ?_⟩
  obtain ⟨k, le, shorter⟩ := Edits.aligned edits
  exact (least k shorter).trans le

theorem IsDistance.aligned (distance : IsDistance xs ys d) : Aligned xs ys d := by
  obtain ⟨k, le, aligned⟩ := Edits.aligned distance.1
  rwa [le_antisymm (distance.2 aligned.edits) le]

theorem IsDistance.le (distance : IsDistance xs ys d) (aligned : Aligned xs ys n) : d ≤ n :=
  distance.2 aligned.edits

theorem exists_aligned (xs ys : List α) : ∃ n ≤ max xs.length ys.length, Aligned xs ys n := by
  induction xs generalizing ys with
  | nil =>
    induction ys with
    | nil => exact ⟨0, le_rfl, .nil⟩
    | cons y ys ih =>
      obtain ⟨n, le, aligned⟩ := ih
      exact ⟨n + 1, by simp at le ⊢; omega, aligned.insert y⟩
  | cons x xs ih =>
    cases ys with
    | nil =>
      obtain ⟨n, le, aligned⟩ := ih []
      exact ⟨n + 1, by simp at le ⊢; omega, aligned.delete x⟩
    | cons y ys =>
      obtain ⟨n, le, aligned⟩ := ih ys
      exact ⟨n + 1, by simp at le ⊢; omega, aligned.replace x y⟩

/-- A distance is at most the length of the longer list. -/
theorem IsDistance.le_max (distance : IsDistance xs ys d) : d ≤ max xs.length ys.length := by
  obtain ⟨n, le, aligned⟩ := exists_aligned xs ys
  exact (distance.le aligned).trans le

theorem Aligned.reverse (aligned : Aligned xs ys n) : Aligned xs.reverse ys.reverse n := by
  induction aligned with
  | nil => exact .nil
  | delete x _ ih =>
    have := ih.append (Aligned.delete x .nil)
    rwa [List.append_nil, ← List.reverse_cons] at this
  | insert y _ ih =>
    have := ih.append (Aligned.insert y .nil)
    rwa [List.append_nil, ← List.reverse_cons] at this
  | keep x _ ih =>
    have := ih.append (Aligned.keep x .nil)
    rwa [← List.reverse_cons, ← List.reverse_cons] at this
  | replace x y _ ih =>
    have := ih.append (Aligned.replace x y .nil)
    rwa [← List.reverse_cons, ← List.reverse_cons] at this

theorem aligned_snoc_iff : Aligned (xs ++ [x]) (ys ++ [y]) n ↔
    (∃ m, n = m + 1 ∧ Aligned xs (ys ++ [y]) m) ∨ (∃ m, n = m + 1 ∧ Aligned (xs ++ [x]) ys m) ∨
      (x = y ∧ Aligned xs ys n) ∨ ∃ m, n = m + 1 ∧ Aligned xs ys m := by
  have back : ∀ {xs ys : List α} {m}, Aligned xs ys m → Aligned xs.reverse.reverse ys.reverse.reverse m :=
    fun h => by rwa [List.reverse_reverse, List.reverse_reverse]
  constructor
  · intro aligned
    have reversed := aligned.reverse
    rw [List.reverse_concat, List.reverse_concat] at reversed
    cases reversed with
    | delete _ rest => exact .inl ⟨_, rfl, by simpa using rest.reverse⟩
    | insert _ rest => exact .inr (.inl ⟨_, rfl, by simpa using rest.reverse⟩)
    | keep _ rest => exact .inr (.inr (.inl ⟨rfl, by simpa using rest.reverse⟩))
    | replace _ _ rest => exact .inr (.inr (.inr ⟨_, rfl, by simpa using rest.reverse⟩))
  · rintro (⟨m, rfl, rest⟩ | ⟨m, rfl, rest⟩ | ⟨rfl, rest⟩ | ⟨m, rfl, rest⟩)
    · simpa using rest.append (Aligned.delete x .nil)
    · simpa using rest.append (Aligned.insert y .nil)
    · exact rest.append (Aligned.keep x .nil)
    · exact rest.append (Aligned.replace x y .nil)

theorem isDistance_nil_left (ys : List α) : IsDistance [] ys ys.length := by
  refine isDistance_of_aligned ?_ fun k aligned => ?_
  · induction ys with
    | nil => exact .nil
    | cons y ys ih => exact ih.insert y
  · generalize none : ([] : List α) = xs at aligned
    induction aligned with
    | nil => exact le_rfl
    | insert y _ ih => exact Nat.succ_le_succ (ih none)
    | delete | keep | replace => cases none

theorem isDistance_nil_right (xs : List α) : IsDistance xs [] xs.length := by
  refine isDistance_of_aligned ?_ fun k aligned => ?_
  · induction xs with
    | nil => exact .nil
    | cons x xs ih => exact ih.delete x
  · generalize none : ([] : List α) = ys at aligned
    induction aligned with
    | nil => exact le_rfl
    | delete x _ ih => exact Nat.succ_le_succ (ih none)
    | insert | keep | replace => cases none

/-- The distance from the three that are shorter by a symbol. -/
theorem IsDistance.snoc [DecidableEq α] (left : IsDistance (xs ++ [x]) ys l) (up : IsDistance xs (ys ++ [y]) u)
    (diag : IsDistance xs ys d) :
    IsDistance (xs ++ [x]) (ys ++ [y]) (min (min (l + 1) (u + 1)) (d + if x = y then 0 else 1)) := by
  refine isDistance_of_aligned (aligned_snoc_iff.2 ?_) fun k aligned => ?_
  · rcases min_choice (min (l + 1) (u + 1)) (d + if x = y then 0 else 1) with first | last
    · rcases min_choice (l + 1) (u + 1) with inserted | deleted
      · exact .inr (.inl ⟨l, first.trans inserted, left.aligned⟩)
      · exact .inl ⟨u, first.trans deleted, up.aligned⟩
    · rw [last]
      split_ifs with same
      · exact .inr (.inr (.inl ⟨same, diag.aligned⟩))
      · exact .inr (.inr (.inr ⟨d, rfl, diag.aligned⟩))
  · rcases aligned_snoc_iff.1 aligned with ⟨m, rfl, rest⟩ | ⟨m, rfl, rest⟩ | ⟨rfl, rest⟩ | ⟨m, rfl, rest⟩
    · have := up.le rest
      omega
    · have := left.le rest
      omega
    · have := diag.le rest
      rw [if_pos rfl]
      omega
    · have := diag.le rest
      split_ifs <;> omega

end EditDistance
