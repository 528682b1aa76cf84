import Mathlib.Data.List.Induction
import Mathlib.Data.List.Sort

/-!
# The first of the largest entries

A stable sort in descending order of a key begins with the first entry whose key is largest.
-/

namespace FirstMax

variable {α K : Type*} [LinearOrder K] (key : α → K)

/-- A later entry takes over only with a larger key. -/
def better (best : Option α) (x : α) : Option α :=
  match best with
  | none => some x
  | some b => if key b < key x then some x else some b

/-- The first entry with the largest key. -/
def firstMax (l : List α) : Option α := l.foldl (better key) none

theorem firstMax_concat (l : List α) (x : α) :
    firstMax key (l ++ [x]) = better key (firstMax key l) x :=
  List.foldl_concat _ _ _ _

theorem firstMax_eq_none_iff {l : List α} : firstMax key l = none ↔ l = [] := by
  induction l using List.reverseRecOn with
  | nil => simp [firstMax]
  | append_singleton l x ih =>
    rw [firstMax_concat]
    refine iff_of_false ?_ (by simp)
    unfold better
    split
    · simp
    · split_ifs <;> simp

theorem mem_of_firstMax {l : List α} {b : α} (h : firstMax key l = some b) : b ∈ l := by
  induction l using List.reverseRecOn with
  | nil => cases h
  | append_singleton l x ih =>
    rw [firstMax_concat] at h
    unfold better at h
    split at h
    · cases h
      exact List.mem_append_right _ List.mem_cons_self
    · rename_i b' hb'
      split_ifs at h
      · cases h
        exact List.mem_append_right _ List.mem_cons_self
      · cases h
        exact List.mem_append_left _ (ih hb')

theorem le_of_firstMax {l : List α} {b : α} (h : firstMax key l = some b) : ∀ x ∈ l, key x ≤ key b := by
  induction l using List.reverseRecOn generalizing b with
  | nil => cases h
  | append_singleton l x ih =>
    rw [firstMax_concat] at h
    intro y mem
    rw [List.mem_append, List.mem_singleton] at mem
    cases found : firstMax key l with
    | none =>
      rw [found] at h
      cases h
      rw [(firstMax_eq_none_iff key).1 found] at mem
      rcases mem with old | rfl
      · cases old
      · exact le_rfl
    | some b' =>
      rw [found, better] at h
      have below := ih found
      split_ifs at h with lt
      · cases h
        rcases mem with old | rfl
        · exact (below y old).trans lt.le
        · exact le_rfl
      · cases h
        rcases mem with old | rfl
        · exact below y old
        · exact not_lt.1 lt

/-- Two lists with the same keys have the same largest one. -/
theorem map_firstMax_eq {β : Type*} (key' : β → K) {l : List α} {l' : List β}
    (left : ∀ a ∈ l, ∃ b ∈ l', key' b = key a) (right : ∀ b ∈ l', ∃ a ∈ l, key a = key' b) :
    (firstMax key l).map key = (firstMax key' l').map key' := by
  cases found : firstMax key l with
  | none =>
    have empty : l' = [] := List.eq_nil_iff_forall_not_mem.2 fun b mem => by
      obtain ⟨a, inside, -⟩ := right b mem
      rw [(firstMax_eq_none_iff key).1 found] at inside
      cases inside
    rw [(firstMax_eq_none_iff key').2 empty]
    rfl
  | some a =>
    obtain ⟨b, mem, same⟩ := left a (mem_of_firstMax key found)
    cases found' : firstMax key' l' with
    | none =>
      rw [(firstMax_eq_none_iff key').1 found'] at mem
      cases mem
    | some b' =>
      obtain ⟨a', mem', same'⟩ := right b' (mem_of_firstMax key' found')
      have above := le_of_firstMax key' found' b mem
      have below := le_of_firstMax key found a' mem'
      exact congrArg some (le_antisymm (same ▸ above) (same' ▸ below))

/-- It is found by looking for an entry with the largest key. -/
theorem find?_of_firstMax {l : List α} {b : α} (h : firstMax key l = some b) :
    l.find? (fun x => decide (key b ≤ key x)) = some b := by
  induction l using List.reverseRecOn generalizing b with
  | nil => cases h
  | append_singleton l x ih =>
    rw [firstMax_concat] at h
    rw [List.find?_append, Option.or_eq_some_iff]
    cases found : firstMax key l with
    | none =>
      rw [found] at h
      cases h
      rw [(firstMax_eq_none_iff key).1 found]
      exact .inr ⟨rfl, List.find?_cons_of_pos (by simp)⟩
    | some b' =>
      rw [found, better] at h
      split_ifs at h with lt
      · cases h
        refine .inr ⟨List.find?_eq_none.2 fun y mem => ?_, List.find?_cons_of_pos (by simp)⟩
        simpa using (le_of_firstMax key found y mem).trans_lt lt
      · cases h
        exact .inl (ih found)

/-- An entry in front of the others takes over unless one of them is larger. -/
theorem firstMax_cons (a : α) (l : List α) : firstMax key (a :: l) =
    match firstMax key l with
    | none => some a
    | some b => if key a < key b then some b else some a := by
  induction l using List.reverseRecOn with
  | nil => rfl
  | append_singleton l x ih =>
    rw [← List.cons_append, firstMax_concat, firstMax_concat, ih]
    cases firstMax key l with
    | none => rfl
    | some b =>
      by_cases hab : key a < key b <;> by_cases hbx : key b < key x
      · simp [better, hab, hbx, hab.trans hbx]
      · simp [better, hab, hbx]
      · simp [better, hab, hbx]
      · have hax : ¬key a < key x := not_lt.2 ((not_lt.1 hbx).trans (not_lt.1 hab))
        simp [better, hab, hbx, hax]

theorem desc_trans (a b c : α) (hab : decide (key b ≤ key a)) (hbc : decide (key c ≤ key b)) :
    decide (key c ≤ key a) := by
  rw [decide_eq_true_eq] at *
  exact hbc.trans hab

theorem desc_total (a b : α) : decide (key b ≤ key a) || decide (key a ≤ key b) := by
  simpa using le_total (key b) (key a)

/-- What a stable descending sort begins with. -/
theorem head?_mergeSort (l : List α) :
    (l.mergeSort fun a b => decide (key b ≤ key a)).head? = firstMax key l := by
  induction l with
  | nil => simp [firstMax]
  | cons a l ih =>
    obtain ⟨before, after, whole, rest, later⟩ := List.mergeSort_cons (desc_trans key) (desc_total key) a l
    rw [firstMax_cons, ← ih, whole, rest]
    cases before with
    | nil =>
      cases after with
      | nil => rfl
      | cons b after =>
        have sorted := List.pairwise_mergeSort (desc_trans key) (desc_total key) (a :: l)
        rw [whole, List.nil_append] at sorted
        have first := (List.pairwise_cons.1 sorted).1 b List.mem_cons_self
        have notLt : ¬key a < key b := not_lt.2 (by simpa using first)
        simp [notLt]
    | cons b before =>
      have lt : key a < key b := by simpa using later b List.mem_cons_self
      simp [lt]

end FirstMax
