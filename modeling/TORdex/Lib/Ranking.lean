import Mathlib.Data.List.Sort
import TORdex.Lib.FirstMax

/-!
# Ranked lists

Lists of hits with a name and a score, the best score first.  Cutting every list to its first `m` hits before
the lists are filtered, intersected or merged can lose hits, or take a hit from another list; it is said here
when it does not.  Lists that agree can be merged in any order.
-/

namespace Ranking

open FirstMax (desc_trans desc_total)

variable {α ι K : Type*} [LinearOrder K] (score : α → K)

/-- A stable sort, the largest score first. -/
def sortDesc (l : List α) : List α := l.mergeSort fun a b => decide (score b ≤ score a)

/-- The scores do not rise. -/
def Sorted (l : List α) : Prop := l.Pairwise fun a b => score b ≤ score a

/-! ## Stable sorting -/

@[simp] theorem mem_sortDesc {a : α} {l : List α} : a ∈ sortDesc score l ↔ a ∈ l := List.mem_mergeSort

@[simp] theorem length_sortDesc (l : List α) : (sortDesc score l).length = l.length :=
  List.length_mergeSort l

theorem sorted_sortDesc (l : List α) : Sorted score (sortDesc score l) := by
  have h := List.pairwise_mergeSort (desc_trans score) (desc_total score) l
  exact h.imp fun hab => by simpa using hab

theorem sortDesc_of_sorted {l : List α} (h : Sorted score l) : sortDesc score l = l :=
  List.mergeSort_of_pairwise (h.imp fun hab => by simpa using hab)

/-- A list that is split at an entry in the same way twice, into smaller and other entries. -/
theorem split_unique {p : α → Prop} {a : α} {l₁ l₂ r₁ r₂ : List α} (h : l₁ ++ r₁ = l₂ ++ r₂)
    (left₁ : ∀ b ∈ l₁, p b) (left₂ : ∀ b ∈ l₂, p b) (right₁ : ∀ b ∈ r₁, ¬p b)
    (right₂ : ∀ b ∈ r₂, ¬p b) : l₁ ++ a :: r₁ = l₂ ++ a :: r₂ := by
  induction l₁ generalizing l₂ with
  | nil =>
    cases l₂ with
    | nil => simpa using h
    | cons b l₂ =>
      have : b ∈ r₁ := by
        rw [List.nil_append] at h
        simp [h]
      exact absurd (left₂ b List.mem_cons_self) (right₁ b this)
  | cons b l₁ ih =>
    cases l₂ with
    | nil =>
      have : b ∈ r₂ := by
        rw [List.nil_append] at h
        simp [← h]
      exact absurd (left₁ b List.mem_cons_self) (right₂ b this)
    | cons c l₂ =>
      simp only [List.cons_append, List.cons.injEq] at h ⊢
      obtain ⟨rfl, h⟩ := h
      exact ⟨rfl, ih h (fun b hb => left₁ b (List.mem_cons_of_mem _ hb))
        fun b hb => left₂ b (List.mem_cons_of_mem _ hb)⟩

/-- A stable sort of what passes a test is what passes it in the sorted list. -/
theorem sortDesc_filter (p : α → Bool) (l : List α) :
    sortDesc score (l.filter p) = (sortDesc score l).filter p := by
  induction l with
  | nil => simp [sortDesc]
  | cons a l ih =>
    obtain ⟨l₁, r₁, whole, rest, smaller⟩ :=
      List.mergeSort_cons (desc_trans score) (desc_total score) a l
    have tail : sortDesc score l = l₁ ++ r₁ := rest
    have sorted : Sorted score (l₁ ++ a :: r₁) := by
      have h := sorted_sortDesc score (a :: l)
      rwa [show sortDesc score (a :: l) = _ from whole] at h
    rw [show sortDesc score (a :: l) = _ from whole]
    by_cases pa : p a
    · obtain ⟨l₂, r₂, whole', rest', smaller'⟩ :=
        List.mergeSort_cons (desc_trans score) (desc_total score) a (l.filter p)
      have tail' : sortDesc score (l.filter p) = l₂ ++ r₂ := rest'
      have sorted' : Sorted score (l₂ ++ a :: r₂) := by
        have h := sorted_sortDesc score (a :: l.filter p)
        rwa [show sortDesc score (a :: l.filter p) = _ from whole'] at h
      rw [List.filter_cons_of_pos pa, show sortDesc score (a :: l.filter p) = _ from whole',
        List.filter_append, List.filter_cons_of_pos pa]
      refine split_unique (p := fun b => score a < score b) ?_ ?_ ?_ ?_ ?_
      · rw [← tail', ih, tail, List.filter_append]
      · exact fun b hb => by simpa using smaller' b hb
      · exact fun b hb => by simpa using smaller b (List.mem_of_mem_filter hb)
      · exact fun b hb => not_lt.2 ((List.pairwise_cons.1 (List.pairwise_append.1 sorted').2.1).1 b hb)
      · exact fun b hb => not_lt.2 ((List.pairwise_cons.1 (List.pairwise_append.1 sorted).2.1).1 b
          (List.mem_of_mem_filter hb))
    · rw [List.filter_cons_of_neg pa, ih, tail, List.filter_append, List.filter_append,
        List.filter_cons_of_neg pa]

/-! ## Filtering and intersecting -/

/-- Filtering the first hits gives the first hits that pass exactly if enough of them do. -/
theorem filter_take_iff (p : α → Bool) (l : List α) (m : ℕ) :
    (l.take m).filter p = (l.filter p).take m ↔ min m (l.countP p) ≤ (l.take m).countP p := by
  have split : l.filter p = (l.take m).filter p ++ (l.drop m).filter p := by
    rw [← List.filter_append, List.take_append_drop]
  have short : ((l.take m).filter p).length ≤ m :=
    (List.length_filter_le _ _).trans (List.length_take_le _ _)
  rw [split, List.take_append, List.take_of_length_le short, List.countP_eq_length_filter,
    List.countP_eq_length_filter, split, List.length_append]
  constructor
  · intro h
    have := congrArg List.length h
    simp only [List.length_append, List.length_take] at this
    omega
  · intro h
    rw [List.self_eq_append_right, List.take_eq_nil_iff]
    by_cases full : m ≤ ((l.take m).filter p).length
    · exact .inl (by omega)
    · exact .inr (List.eq_nil_of_length_eq_zero (by omega))

/-- A stricter test on the first hits gives the first hits that pass exactly if enough of them do. -/
theorem filter_take_iff_of_imp {p q : α → Bool} (stricter : ∀ a, q a → p a) (l : List α) (m : ℕ) :
    (l.take m).filter q = (l.filter p).take m ↔ min m (l.countP p) ≤ (l.take m).countP q := by
  have fewer : (l.take m).countP q ≤ (l.take m).countP p :=
    List.countP_mono_left fun a _ => stricter a
  constructor
  · intro h
    have := congrArg List.length h
    rw [← List.countP_eq_length_filter, List.length_take, ← List.countP_eq_length_filter] at this
    exact this.ge
  · intro h
    rw [← (filter_take_iff p l m).2 (h.trans fewer)]
    have sub : ((l.take m).filter q).Sublist ((l.take m).filter p) :=
      List.monotone_filter_right _ stricter
    refine sub.eq_of_length ?_
    rw [← List.countP_eq_length_filter, ← List.countP_eq_length_filter]
    refine le_antisymm fewer ?_
    have whole : (l.take m).countP p ≤ l.countP p := (List.take_sublist m l).countP_le
    have short : (l.take m).countP p ≤ m := List.countP_le_length.trans (List.length_take_le _ _)
    omega

/-! ## Merging -/

section Merging

variable [DecidableEq ι] (name : α → ι)

/-- The first hit of each name, but of none that has been seen. -/
def firstOfEach : List ι → List α → List α
  | _, [] => []
  | seen, a :: l =>
    if name a ∈ seen then firstOfEach seen l else a :: firstOfEach (name a :: seen) l

attribute [grind =] firstOfEach

theorem mem_firstOfEach {seen : List ι} {l : List α} {a : α} (h : a ∈ firstOfEach name seen l) :
    a ∈ l ∧ name a ∉ seen := by
  induction l generalizing seen with
  | nil => cases h
  | cons b l ih =>
    unfold firstOfEach at h
    split_ifs at h with hb
    · exact ⟨List.mem_cons_of_mem _ (ih h).1, (ih h).2⟩
    · rcases List.mem_cons.1 h with rfl | h
      · exact ⟨List.mem_cons_self, hb⟩
      · exact ⟨List.mem_cons_of_mem _ (ih h).1, fun hs => (ih h).2 (List.mem_cons_of_mem _ hs)⟩

theorem nodup_firstOfEach (seen : List ι) (l : List α) : ((firstOfEach name seen l).map name).Nodup := by
  induction l generalizing seen with
  | nil => exact List.nodup_nil
  | cons a l ih =>
    unfold firstOfEach
    split_ifs
    · exact ih seen
    · rw [List.map_cons, List.nodup_cons]
      refine ⟨fun h => ?_, ih _⟩
      obtain ⟨b, hb, eq⟩ := List.mem_map.1 h
      exact (mem_firstOfEach name hb).2 (by simp [eq])

theorem firstOfEach_congr {s t : List ι} {l : List α} (h : ∀ a ∈ l, name a ∈ s ↔ name a ∈ t) :
    firstOfEach name s l = firstOfEach name t l := by
  induction l generalizing s t with
  | nil => rfl
  | cons a l ih =>
    simp only [firstOfEach, h a List.mem_cons_self]
    split_ifs
    · exact ih fun b hb => h b (List.mem_cons_of_mem _ hb)
    · congr 1
      exact ih fun b hb => by simp [h b (List.mem_cons_of_mem _ hb)]

theorem firstOfEach_append (seen : List ι) (l r : List α) : firstOfEach name seen (l ++ r) =
    firstOfEach name seen l ++ firstOfEach name (l.map name ++ seen) r := by
  induction l generalizing seen with
  | nil => rfl
  | cons a l ih =>
    simp only [List.cons_append, firstOfEach]
    split_ifs with ha
    · rw [ih]
      congr 1
      exact firstOfEach_congr name fun b _ => by
        simp only [List.map_cons, List.mem_cons, List.mem_append, List.cons_append]
        exact ⟨.inr, fun h => h.elim (fun eq => .inr (eq ▸ ha)) id⟩
    · rw [ih, List.cons_append]
      congr 2
      exact firstOfEach_congr name fun b _ => by
        simp only [List.map_cons, List.mem_cons, List.mem_append, List.cons_append]
        tauto

/-- The first hits of their names are those that a search for the name finds. -/
theorem mem_firstOfEach_iff {seen : List ι} {l : List α} {a : α} : a ∈ firstOfEach name seen l ↔
    name a ∉ seen ∧ l.find? (fun b => name b = name a) = some a := by
  induction l generalizing seen with
  | nil => simp [firstOfEach]
  | cons b l ih =>
    unfold firstOfEach
    by_cases same : name b = name a
    · rw [List.find?_cons_of_pos (by simpa using same), Option.some.injEq]
      split_ifs with old
      · rw [ih]
        exact iff_of_false (fun h => h.1 (same ▸ old)) (fun h => h.1 (same ▸ old))
      · rw [List.mem_cons, ih]
        constructor
        · rintro (rfl | h)
          · exact ⟨old, rfl⟩
          · exact absurd (same ▸ List.mem_cons_self) h.1
        · exact fun h => .inl h.2.symm
    · rw [List.find?_cons_of_neg (by simpa using same)]
      have other : a ≠ b := fun h => same (h ▸ rfl)
      split_ifs with old
      · exact ih
      · rw [List.mem_cons, or_iff_right other, ih, List.mem_cons, not_or]
        exact and_congr_left fun _ => and_iff_right fun h => same h.symm

/-- The hit at the end, unless one of its name is there. -/
def pushNew (l : List α) (a : α) : List α := if l.any fun b => name b = name a then l else l ++ [a]

theorem foldl_pushNew (acc l : List α) :
    l.foldl (pushNew name) acc = acc ++ firstOfEach name (acc.map name) l := by
  induction l generalizing acc with
  | nil => simp [firstOfEach]
  | cons a l ih =>
    have known : (acc.any fun b => name b = name a) = decide (name a ∈ acc.map name) := by
      rw [Bool.eq_iff_iff, List.any_eq_true, decide_eq_true_eq, List.mem_map]
      simp only [decide_eq_true_eq]
    rw [List.foldl_cons, ih, pushNew, known, firstOfEach]
    by_cases old : name a ∈ acc.map name
    · rw [if_pos (decide_eq_true old), if_pos old]
    · rw [if_neg (by simpa using old), if_neg old, List.append_assoc, List.singleton_append]
      congr 2
      exact firstOfEach_congr name fun b _ => by simp [or_comm]

/-- Two lists find the same hit wherever both find one. -/
def Agree (l r : List α) : Prop :=
  ∀ i a b, l.find? (fun x => name x = i) = some a → r.find? (fun x => name x = i) = some b → a = b

theorem Agree.symm {l r : List α} (h : Agree name l r) : Agree name r l :=
  fun i a b ha hb => (h i b a hb ha).symm

/-- The first hits of lists that agree are the first hits of the lists. -/
theorem mem_firstOfEach_flatten {ls : List (List α)} (agree : ls.Pairwise (Agree name)) {a : α} :
    a ∈ firstOfEach name [] ls.flatten ↔ ∃ l ∈ ls, l.find? (fun b => name b = name a) = some a := by
  rw [mem_firstOfEach_iff, and_iff_right List.not_mem_nil]
  induction ls with
  | nil => simp
  | cons l ls ih =>
    obtain ⟨first, rest⟩ := List.pairwise_cons.1 agree
    rw [List.flatten_cons, List.find?_append, List.exists_mem_cons_iff, ← ih rest]
    cases found : l.find? (fun b => name b = name a) with
    | none => simp
    | some b =>
      rw [Option.some_or, or_iff_left_of_imp]
      intro later
      obtain ⟨r, hr, later⟩ := (ih rest).1 later
      rw [first r hr (name a) b a found later]

/-- So the order of the lists makes no difference. -/
theorem mem_firstOfEach_perm {ls ls' : List (List α)} (perm : ls'.Perm ls) (agree : ls.Pairwise (Agree name))
    {a : α} : a ∈ firstOfEach name [] ls'.flatten ↔ a ∈ firstOfEach name [] ls.flatten := by
  have agree' : ls'.Pairwise (Agree name) := (perm.pairwise_iff (Agree.symm name)).2 agree
  simp only [mem_firstOfEach_flatten name agree, mem_firstOfEach_flatten name agree', perm.mem_iff]

/-- A name among the first `m` hits of a later list is among the first `m` of the first list that has it. -/
def Unshadowed (m : ℕ) : List ι → List (List α) → Prop
  | _, [] => True
  | seen, l :: ls =>
    (∀ a ∈ l, name a ∉ seen → name a ∈ (ls.flatMap (List.take m)).map name →
      name a ∈ (l.take m).map name) ∧ Unshadowed m (l.map name ++ seen) ls

omit [DecidableEq ι] in
theorem unshadowed_of_take_eq {m : ℕ} {ls : List (List α)} (h : ∀ l ∈ ls, l.take m = l) (seen : List ι) :
    Unshadowed name m seen ls := by
  induction ls generalizing seen with
  | nil => trivial
  | cons l ls ih =>
    obtain ⟨first, rest⟩ := List.forall_mem_cons.1 h
    refine ⟨fun a ha _ _ => ?_, ih rest _⟩
    rw [first]
    exact List.mem_map_of_mem ha

/-- Without shadowing, merging the first hits gives the merged hits with a name among them. -/
theorem firstOfEach_take {m : ℕ} {ls : List (List α)} {seen seen' names : List ι}
    (unshadowed : Unshadowed name m seen ls)
    (agree : ∀ x ∈ (ls.flatMap (List.take m)).map name, x ∈ seen ↔ x ∈ seen')
    (kept : ∀ x ∉ seen, x ∈ names ↔ x ∈ (ls.flatMap (List.take m)).map name) :
    firstOfEach name seen' (ls.flatMap (List.take m)) =
      (firstOfEach name seen ls.flatten).filter fun a => decide (name a ∈ names) := by
  induction ls generalizing seen seen' with
  | nil => rfl
  | cons l ls ih =>
    obtain ⟨here, later⟩ := unshadowed
    simp only [List.flatMap_cons, List.map_append, List.mem_append] at agree kept
    rw [List.flatMap_cons, List.flatten_cons, firstOfEach_append, firstOfEach_append, List.filter_append]
    congr 1
    · nth_rewrite 2 [← List.take_append_drop m l]
      rw [firstOfEach_append, List.filter_append, List.filter_eq_self.2, List.filter_eq_nil_iff.2,
        List.append_nil]
      · refine firstOfEach_congr name fun a ha => (agree (name a) (.inl ?_)).symm
        exact List.mem_map_of_mem ha
      · intro a ha
        obtain ⟨mem, new⟩ := mem_firstOfEach name ha
        rw [List.mem_append, not_or] at new
        rw [decide_eq_true_eq, kept _ new.2, not_or]
        exact ⟨new.1, fun late => new.1 (here a (List.mem_of_mem_drop mem) new.2 late)⟩
      · intro a ha
        obtain ⟨mem, new⟩ := mem_firstOfEach name ha
        rw [decide_eq_true_eq, kept _ new]
        exact .inl (List.mem_map_of_mem mem)
    · refine ih later ?_ ?_
      · intro x hx
        rw [List.mem_append, List.mem_append, ← agree x (.inr hx)]
        by_cases old : x ∈ seen
        · simp [old]
        · simp only [old, or_false]
          constructor
          · intro h
            obtain ⟨a, ha, rfl⟩ := List.mem_map.1 h
            exact here a ha old hx
          · intro h
            obtain ⟨a, ha, rfl⟩ := List.mem_map.1 h
            exact List.mem_map_of_mem (List.mem_of_mem_take ha)
      · intro x hx
        rw [List.mem_append, not_or] at hx
        rw [kept x hx.2, or_iff_right]
        intro h
        obtain ⟨a, ha, rfl⟩ := List.mem_map.1 h
        exact hx.1 (List.mem_map_of_mem (List.mem_of_mem_take ha))

theorem take_filter_iff (p : α → Bool) (l : List α) (m : ℕ) :
    (l.filter p).take m = l.take m ↔ ∀ a ∈ l.take m, p a := by
  constructor
  · intro h a ha
    rw [← h] at ha
    exact (List.mem_filter.1 (List.mem_of_mem_take ha)).2
  · intro h
    have split : l.filter p = l.take m ++ (l.drop m).filter p := by
      conv_lhs => rw [← List.take_append_drop m l]
      rw [List.filter_append, List.filter_eq_self.2 h]
    rw [split, List.take_append, List.take_of_length_le (List.length_take_le _ _),
      List.append_right_eq_self, List.take_eq_nil_iff]
    rcases le_total m l.length with hm | hm
    · exact .inl (by rw [List.length_take]; omega)
    · exact .inr (by rw [List.drop_eq_nil_of_le hm]; rfl)

/-- Without shadowing, the best of the merged first hits are the best of all exactly if the best of all have a
name among the first hits of a list. -/
theorem take_merge_iff {m : ℕ} {ls : List (List α)} (unshadowed : Unshadowed name m [] ls) :
    (sortDesc score (firstOfEach name [] (ls.flatMap (List.take m)))).take m =
        (sortDesc score (firstOfEach name [] ls.flatten)).take m ↔
      ∀ a ∈ (sortDesc score (firstOfEach name [] ls.flatten)).take m,
        name a ∈ (ls.flatMap (List.take m)).map name := by
  rw [firstOfEach_take name unshadowed (fun _ _ => Iff.rfl) (fun _ _ => Iff.rfl), sortDesc_filter,
    take_filter_iff]
  simp only [decide_eq_true_eq]

end Merging

end Ranking
