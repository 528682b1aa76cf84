import Mathlib.Data.List.Basic
import Mathlib.Data.List.Perm.Basic
import Mathlib.Logic.Equiv.Basic
import Mathlib.Order.Lattice

/-!
# Binary heaps in a list

The two restoring loops of an array heap, over any comparison.  Both only exchange entries, so the
list they return is a permutation of the one they are given.  The fuel of a loop bounds its number of
rounds; the index of `siftUp` falls in every round and that of `siftDown` grows, so the index itself
and the length of the list are enough.
-/

namespace BinaryHeap

variable {α : Type*}

/-- Exchange two entries; nothing happens when an index is out of range. -/
def swap (l : List α) (i j : ℕ) : List α :=
  match l[i]?, l[j]? with
  | some x, some y => (l.set i y).set j x
  | _, _ => l

theorem swap_perm (l : List α) (i j : ℕ) : (swap l i j).Perm l := by
  unfold swap
  split
  · rename_i x y hx hy
    obtain ⟨hi, rfl⟩ := List.getElem?_eq_some_iff.1 hx
    obtain ⟨hj, rfl⟩ := List.getElem?_eq_some_iff.1 hy
    exact List.set_set_perm hi hj
  · exact List.Perm.refl l

@[simp] theorem length_swap (l : List α) (i j : ℕ) : (swap l i j).length = l.length :=
  (swap_perm l i j).length_eq

/-- Exchanging an entry with the last one puts it at the end. -/
theorem getLast?_swap {l : List α} {i : ℕ} {x : α} (h : l[i]? = some x) :
    (swap l i (l.length - 1)).getLast? = some x := by
  obtain ⟨hi, rfl⟩ := List.getElem?_eq_some_iff.1 h
  have last : l.length - 1 < l.length := by omega
  unfold swap
  rw [h, List.getElem?_eq_getElem last, List.getLast?_eq_getElem?]
  simp [last]

variable (less : α → α → Bool)

/-- The entry at `i` goes before the entry at `j`. -/
def lessAt (l : List α) (i j : ℕ) : Bool :=
  match l[i]?, l[j]? with
  | some x, some y => less x y
  | _, _ => false

/-- The loop of `siftUp`. -/
def siftUpLoop : ℕ → List α → ℕ → List α
  | 0, l, _ => l
  | fuel + 1, l, i =>
    if 0 < i ∧ lessAt less l i ((i - 1) / 2) then
      siftUpLoop fuel (swap l i ((i - 1) / 2)) ((i - 1) / 2)
    else l

/-- Exchange the entry at `i` with its parent as long as it goes before it. -/
def siftUp (l : List α) (i : ℕ) : List α := siftUpLoop less i l i

/-- The first of `i` and its children, in the order the loop compares them. -/
def smallest (l : List α) (i : ℕ) : ℕ :=
  let s := if 2 * i + 1 < l.length ∧ lessAt less l (2 * i + 1) i then 2 * i + 1 else i
  if 2 * i + 2 < l.length ∧ lessAt less l (2 * i + 2) s then 2 * i + 2 else s

/-- The loop of `siftDown`. -/
def siftDownLoop : ℕ → List α → ℕ → List α
  | 0, l, _ => l
  | fuel + 1, l, i =>
    if smallest less l i = i then l
    else siftDownLoop fuel (swap l i (smallest less l i)) (smallest less l i)

/-- Exchange the entry at `i` with its first child as long as the child goes before it. -/
def siftDown (l : List α) (i : ℕ) : List α := siftDownLoop less l.length l i

theorem siftUpLoop_perm (fuel : ℕ) (l : List α) (i : ℕ) :
    (siftUpLoop less fuel l i).Perm l := by
  induction fuel generalizing l i with
  | zero => exact List.Perm.refl l
  | succ fuel ih =>
    unfold siftUpLoop
    split_ifs
    · exact (ih _ _).trans (swap_perm _ _ _)
    · exact List.Perm.refl l

theorem siftUp_perm (l : List α) (i : ℕ) : (siftUp less l i).Perm l :=
  siftUpLoop_perm less i l i

theorem siftDownLoop_perm (fuel : ℕ) (l : List α) (i : ℕ) :
    (siftDownLoop less fuel l i).Perm l := by
  induction fuel generalizing l i with
  | zero => exact List.Perm.refl l
  | succ fuel ih =>
    unfold siftDownLoop
    split_ifs
    · exact List.Perm.refl l
    · exact (ih _ _).trans (swap_perm _ _ _)

theorem siftDown_perm (l : List α) (i : ℕ) : (siftDown less l i).Perm l :=
  siftDownLoop_perm less l.length l i

/-- Taking the last entry off a list that ends with it. -/
theorem dropLast_perm {l : List α} {x : α} (h : l.getLast? = some x) :
    (x :: l.dropLast).Perm l := by
  obtain ⟨l', rfl⟩ := List.getLast?_eq_some_iff.1 h
  rw [List.dropLast_concat]
  exact (List.perm_append_singleton x l').symm

end BinaryHeap

/-!
# The order of a binary heap

Entries are compared by a key in a linear order.  `Ordered` is the heap order; around one position it
may be broken upwards (`UpOrdered`: that entry may go before its parent) or downwards (`DownOrdered`:
it may go after its children), and the two loops repair the one and the other.  `Hole` says that an
entry was replaced by an arbitrary one; which way it has to move is decided there.
-/

namespace BinaryHeap

variable {α : Type*} {K : Type*} [LinearOrder K] (key : α → K)

/-- The entry at `i` may stand above the entry at `j`; nothing is said of positions out of range. -/
def Before (l : List α) (i j : ℕ) : Prop := ∀ x ∈ l[i]?, ∀ y ∈ l[j]?, key x ≤ key y

/-- No entry goes before its parent. -/
def Ordered (l : List α) : Prop := ∀ i, Before key l ((i - 1) / 2) i

/-- The parent of `k` may stand above the children of `k`. -/
def Bridged (l : List α) (k : ℕ) : Prop :=
  0 < k → ∀ i, (i - 1) / 2 = k → Before key l ((k - 1) / 2) i

/-- Ordered but for the entry at `k` and its parent. -/
structure UpOrdered (l : List α) (k : ℕ) : Prop where
  but : ∀ i, i ≠ k → Before key l ((i - 1) / 2) i
  bridged : Bridged key l k

/-- Ordered but for the entry at `k` and its children. -/
structure DownOrdered (l : List α) (k : ℕ) : Prop where
  but : ∀ i, (i - 1) / 2 ≠ k → Before key l ((i - 1) / 2) i
  bridged : Bridged key l k

/-- Ordered but for the entry at `k`, its parent and its children. -/
structure Hole (l : List α) (k : ℕ) : Prop where
  but : ∀ i, i ≠ k → (i - 1) / 2 ≠ k → Before key l ((i - 1) / 2) i
  bridged : Bridged key l k

variable {key} {l : List α} {i j k : ℕ}

theorem Before.refl (l : List α) (i : ℕ) : Before key l i i := by
  intro x hx y hy
  rw [Option.mem_unique hx hy]

theorem Before.trans (hij : Before key l i j) (hjk : Before key l j k) (hj : j < l.length) :
    Before key l i k := by
  intro x hx z hz
  have hy : l[j] ∈ l[j]? := List.getElem?_eq_getElem hj
  exact (hij x hx _ hy).trans (hjk _ hy z hz)

theorem before_of_length_le (h : l.length ≤ j) : Before key l i j := by
  intro x _ y hy
  rw [List.getElem?_eq_none h] at hy
  cases hy

/-- The first entry of a heap goes before every other. -/
theorem Ordered.first (h : Ordered key l) (i : ℕ) : Before key l 0 i := by
  induction i using Nat.strongRecOn with
  | ind i ih =>
    rcases Nat.eq_zero_or_pos i with rfl | pos
    · exact Before.refl l 0
    · by_cases hi : i < l.length
      · exact (ih ((i - 1) / 2) (by omega)).trans (h i) (by omega)
      · exact before_of_length_le (by omega)

/-- In a heap every entry may stand above its grandchildren. -/
theorem Ordered.bridged (h : Ordered key l) (k : ℕ) : Bridged key l k := by
  rintro - i rfl
  by_cases hi : i < l.length
  · exact (h _).trans (h i) (by omega)
  · exact before_of_length_le (by omega)

theorem Ordered.downOrdered (h : Ordered key l) (k : ℕ) : DownOrdered key l k :=
  ⟨fun i _ => h i, h.bridged k⟩

/-- A new last entry can only be too far down. -/
theorem Ordered.append (h : Ordered key l) (x : α) : UpOrdered key (l ++ [x]) l.length := by
  refine ⟨fun i hi => ?_, fun _ i hi => before_of_length_le ?_⟩
  · rcases Nat.lt_or_gt_of_ne hi with hlt | hgt
    · intro a ha b hb
      rw [List.getElem?_append_left (by omega)] at ha hb
      exact h i a ha b hb
    · apply before_of_length_le
      simp only [List.length_append, List.length_singleton]
      omega
  · simp only [List.length_append, List.length_singleton]
    omega

theorem getElem?_swap (hi : i < l.length) (hj : j < l.length) (n : ℕ) :
    (swap l i j)[n]? = l[Equiv.swap i j n]? := by
  unfold swap
  rw [List.getElem?_eq_getElem hi, List.getElem?_eq_getElem hj]
  dsimp only
  rw [List.getElem?_set, List.getElem?_set, List.length_set, Equiv.swap_apply_def]
  by_cases hn : n = i
  · subst hn
    by_cases hjn : j = n
    · simp only [hjn, if_pos hi, ↓reduceIte, List.getElem?_eq_getElem hi]
    · simp only [if_neg hjn, if_pos hi, ↓reduceIte, List.getElem?_eq_getElem hj]
  · by_cases hjn : j = n
    · subst hjn
      simp only [if_neg hn, if_pos hj, ↓reduceIte, List.getElem?_eq_getElem hi]
    · rw [if_neg hjn, if_neg (Ne.symm hn), if_neg hn, if_neg (Ne.symm hjn)]

/-- The positions of an exchange, as the exchanged list has them. -/
theorem before_swap (hi : i < l.length) (hj : j < l.length) (m n : ℕ) :
    Before key (swap l i j) m n ↔ Before key l (Equiv.swap i j m) (Equiv.swap i j n) := by
  unfold Before
  rw [getElem?_swap hi hj, getElem?_swap hi hj]

/-- The last entry of a heap put in the place of another one. -/
theorem Ordered.swap_dropLast (h : Ordered key l) (hk : k < l.length) :
    Hole key (swap l k (l.length - 1)).dropLast k := by
  have same : ∀ n, n ≠ k → ∀ x ∈ (swap l k (l.length - 1)).dropLast[n]?, x ∈ l[n]? := by
    intro n hn x hx
    rw [List.getElem?_dropLast, length_swap] at hx
    split_ifs at hx with hlt
    · rwa [getElem?_swap hk (by omega), Equiv.swap_apply_of_ne_of_ne hn (by omega)] at hx
    · cases hx
  constructor
  · intro i hi hp x hx y hy
    exact h i x (same _ hp x hx) y (same _ hi y hy)
  · rintro pos i rfl x hx y hy
    exact h.bridged _ pos i rfl x (same _ (by omega) x hx) y (same _ (by omega) y hy)

/-- An arbitrary first entry can only be too far up. -/
theorem Hole.downOrdered (h : Hole key l 0) : DownOrdered key l 0 := by
  refine ⟨fun i hi => ?_, h.bridged⟩
  rcases Nat.eq_zero_or_pos i with rfl | pos
  · exact Before.refl _ 0
  · exact h.but i (by omega) hi

section Sift

variable {less : α → α → Bool}

/-- An entry that is not moved up leaves the list as it is. -/
theorem siftUp_eq_self (h : ¬(0 < i ∧ lessAt less l i ((i - 1) / 2) = true)) :
    siftUp less l i = l := by
  unfold siftUp
  cases i with
  | zero => rfl
  | succ i => rw [siftUpLoop, if_neg h]

theorem smallest_cases (less : α → α → Bool) (l : List α) (i : ℕ) : smallest less l i = i ∨
    (smallest less l i - 1) / 2 = i ∧ i < smallest less l i ∧ smallest less l i < l.length := by
  unfold smallest
  dsimp only
  split_ifs <;> omega

variable (hless : ∀ x y, less x y = true ↔ key x < key y)

include hless

theorem lessAt_iff : lessAt less l i j = true ↔
    ∃ x ∈ l[i]?, ∃ y ∈ l[j]?, key x < key y := by
  unfold lessAt
  split
  · rename_i x y hx hy
    simp [hx, hy, hless]
  · rename_i none_or
    refine iff_of_false (by simp) ?_
    rintro ⟨x, hx, y, hy, -⟩
    exact none_or x y hx hy

/-- An entry that does not go before another one may stand below it. -/
theorem before_of_not_lessAt (h : ¬lessAt less l i j = true) : Before key l j i := by
  intro y hy x hx
  by_contra lt
  exact h ((lessAt_iff hless).2 ⟨x, hx, y, hy, not_le.1 lt⟩)

theorem before_of_lessAt (h : lessAt less l i j = true) : Before key l i j := by
  obtain ⟨x, hx, y, hy, lt⟩ := (lessAt_iff hless).1 h
  intro x' hx' y' hy'
  rw [Option.mem_unique hx' hx, Option.mem_unique hy' hy]
  exact lt.le

theorem lt_length_of_lessAt (h : lessAt less l i j = true) : i < l.length ∧ j < l.length := by
  obtain ⟨x, hx, y, hy, -⟩ := (lessAt_iff hless).1 h
  exact ⟨(List.getElem?_eq_some_iff.1 hx).1, (List.getElem?_eq_some_iff.1 hy).1⟩

/-- An entry that goes before its parent is exchanged with it. -/
theorem UpOrdered.swap_parent (h : UpOrdered key l i) (pos : 0 < i)
    (above : lessAt less l i ((i - 1) / 2) = true) :
    UpOrdered key (swap l i ((i - 1) / 2)) ((i - 1) / 2) := by
  obtain ⟨hi, hp⟩ := lt_length_of_lessAt hless above
  have first := before_of_lessAt hless above
  set p := (i - 1) / 2 with hpi
  have grand := h.but p (by omega)
  constructor
  · intro n hn
    rw [before_swap hi hp]
    by_cases hni : n = i
    · subst hni
      rw [← hpi, Equiv.swap_apply_right, Equiv.swap_apply_left]
      exact first
    · rw [Equiv.swap_apply_of_ne_of_ne hni hn]
      by_cases hparent : (n - 1) / 2 = i
      · rw [hparent, Equiv.swap_apply_left]
        exact h.bridged pos n hparent
      · by_cases hsibling : (n - 1) / 2 = p
        · rw [hsibling, Equiv.swap_apply_right]
          have below := h.but n hni
          rw [hsibling] at below
          exact first.trans below hp
        · rw [Equiv.swap_apply_of_ne_of_ne hparent hsibling]
          exact h.but n hni
  · intro ppos n hn
    rw [before_swap hi hp, Equiv.swap_apply_of_ne_of_ne (by omega) (by omega)]
    by_cases hni : n = i
    · rw [hni, Equiv.swap_apply_left]
      exact grand
    · rw [Equiv.swap_apply_of_ne_of_ne hni (by omega)]
      have below := h.but n hni
      rw [hn] at below
      exact grand.trans below hp

/-- An entry that does not go before its parent is in its place. -/
theorem UpOrdered.ordered (h : UpOrdered key l i)
    (stays : ¬(0 < i ∧ lessAt less l i ((i - 1) / 2) = true)) : Ordered key l := by
  intro n
  by_cases hn : n = i
  · subst hn
    rcases Nat.eq_zero_or_pos n with rfl | pos
    · exact Before.refl l 0
    · exact before_of_not_lessAt hless fun above => stays ⟨pos, above⟩
  · exact h.but n hn

theorem ordered_siftUpLoop (fuel : ℕ) (h : UpOrdered key l i) (enough : i ≤ fuel) :
    Ordered key (siftUpLoop less fuel l i) := by
  induction fuel generalizing l i with
  | zero => exact h.ordered hless (by omega)
  | succ fuel ih =>
    unfold siftUpLoop
    split_ifs with rises
    · exact ih (h.swap_parent hless rises.1 rises.2) (by omega)
    · exact h.ordered hless rises

/-- Moving an entry up restores the heap. -/
theorem ordered_siftUp (h : UpOrdered key l i) : Ordered key (siftUp less l i) :=
  ordered_siftUpLoop hless i h (Nat.le_refl i)

/-- The entry `smallest` finds goes before the parent and both children. -/
theorem before_smallest (hi : i < l.length) {n : ℕ} (h : n = i ∨ (n - 1) / 2 = i ∧ 0 < n) :
    Before key l (smallest less l i) n := by
  have spec : ∀ s c : ℕ, s < l.length → ∀ m, m = c ∨ Before key l s m →
      Before key l (if c < l.length ∧ lessAt less l c s then c else s) m := by
    intro s c hs m hm
    split_ifs with hc
    · rcases hm with rfl | hm
      · exact Before.refl l m
      · exact (before_of_lessAt hless hc.2).trans hm hs
    · rcases hm with rfl | hm
      · by_cases hc' : m < l.length
        · exact before_of_not_lessAt hless fun above => hc ⟨hc', above⟩
        · exact before_of_length_le (by omega)
      · exact hm
  unfold smallest
  dsimp only
  apply spec
  · split_ifs with hc
    · exact hc.1
    · exact hi
  by_cases hn : n = 2 * i + 2
  · exact .inl hn
  · right
    apply spec i (2 * i + 1) hi
    rcases h with rfl | ⟨child, pos⟩
    · exact .inr (Before.refl l n)
    · exact .inl (by omega)

/-- An entry that goes after one of its children is exchanged with the first of them. -/
theorem DownOrdered.swap_child (h : DownOrdered key l i) (moves : smallest less l i ≠ i) :
    DownOrdered key (swap l i (smallest less l i)) (smallest less l i) := by
  have place := smallest_cases less l i
  have first := fun n => before_smallest hless (l := l) (i := i) (n := n) (by omega)
  set c := smallest less l i
  obtain ⟨hparent, hic, hc⟩ := place.resolve_left moves
  have hi : i < l.length := by omega
  constructor
  · intro n hn
    rw [before_swap hi hc]
    rcases Nat.eq_zero_or_pos n with rfl | pos
    · exact Before.refl l _
    by_cases hnc : n = c
    · rw [hnc, hparent, Equiv.swap_apply_left, Equiv.swap_apply_right]
      exact first i (.inl rfl)
    by_cases hni : n = i
    · rw [hni, Equiv.swap_apply_left, Equiv.swap_apply_of_ne_of_ne (by omega) (by omega)]
      exact h.bridged (by omega) c hparent
    rw [Equiv.swap_apply_of_ne_of_ne hni hnc]
    by_cases hsibling : (n - 1) / 2 = i
    · rw [hsibling, Equiv.swap_apply_left]
      exact first n (.inr ⟨hsibling, pos⟩)
    · rw [Equiv.swap_apply_of_ne_of_ne hsibling hn]
      exact h.but n hsibling
  · intro _ n hn
    rw [before_swap hi hc, hparent, Equiv.swap_apply_left,
      Equiv.swap_apply_of_ne_of_ne (by omega) (by omega), ← hn]
    exact h.but n (by omega)

/-- An entry that goes before its children is in its place. -/
theorem DownOrdered.ordered (h : DownOrdered key l i) (stays : smallest less l i = i) :
    Ordered key l := by
  intro n
  by_cases hn : (n - 1) / 2 = i
  · by_cases hi : i < l.length
    · rcases Nat.eq_zero_or_pos n with rfl | pos
      · exact Before.refl l 0
      · have first := before_smallest hless hi (.inr ⟨hn, pos⟩)
        rwa [stays, ← hn] at first
    · exact before_of_length_le (by omega)
  · exact h.but n hn

theorem ordered_siftDownLoop (fuel : ℕ) (h : DownOrdered key l i) (enough : l.length ≤ i + fuel) :
    Ordered key (siftDownLoop less fuel l i) := by
  induction fuel generalizing l i with
  | zero =>
    exact h.ordered hless ((smallest_cases less l i).resolve_right (by omega))
  | succ fuel ih =>
    unfold siftDownLoop
    split_ifs with stays
    · exact h.ordered hless stays
    · refine ih (h.swap_child hless stays) ?_
      have place := smallest_cases less l i
      rw [length_swap]
      omega

/-- Moving an entry down restores the heap. -/
theorem ordered_siftDown (h : DownOrdered key l i) : Ordered key (siftDown less l i) :=
  ordered_siftDownLoop hless l.length h (by omega)

/-- An arbitrary entry in the place of another one goes up or down, never both. -/
theorem Hole.ordered (h : Hole key l i) : Ordered key (siftDown less (siftUp less l i) i) := by
  by_cases rises : 0 < i ∧ lessAt less l i ((i - 1) / 2) = true
  · have up : UpOrdered key l i := by
      refine ⟨fun n hn => ?_, h.bridged⟩
      by_cases hparent : (n - 1) / 2 = i
      · obtain ⟨-, hp⟩ := lt_length_of_lessAt hless rises.2
        rw [hparent]
        exact (before_of_lessAt hless rises.2).trans (h.bridged rises.1 n hparent) hp
      · exact h.but n hn hparent
    exact ordered_siftDown hless ((ordered_siftUp hless up).downOrdered i)
  · rw [siftUp_eq_self rises]
    refine ordered_siftDown hless ⟨fun n hn => ?_, h.bridged⟩
    by_cases hni : n = i
    · subst hni
      rcases Nat.eq_zero_or_pos n with rfl | pos
      · exact Before.refl l 0
      · exact before_of_not_lessAt hless fun above => rises ⟨pos, above⟩
    · exact h.but n hni hn

end Sift

end BinaryHeap
