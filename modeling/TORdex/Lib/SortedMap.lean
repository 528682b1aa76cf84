import Mathlib.Data.List.Basic
import Mathlib.Data.List.Perm.Subperm
import Mathlib.Order.Lattice

/-!
# Maps kept in the order of their keys

A map is the list of its entries in strictly increasing order of the keys, so it lists every key
once.  What a map holds is read off `get`; `foldl_insert` and `foldl_insertIfAbsent` say what a map
holds after the entries of another one went in.
-/

/-- In a list that has every key once, what is found is what is there. -/
theorem lookup_eq_some_iff_of_nodup {K V : Type*} [DecidableEq K] {l : List (K × V)} (once : (l.map Prod.fst).Nodup)
    {key : K} {value : V} : l.lookup key = some value ↔ (key, value) ∈ l := by
  induction l with
  | nil => simp
  | cons e l ih =>
    obtain ⟨k, v⟩ := e
    obtain ⟨new, once⟩ := List.nodup_cons.1 once
    rw [List.lookup_cons, List.mem_cons, Prod.mk.injEq]
    by_cases same : key = k
    · subst same
      have absent : (key, value) ∉ l := fun hm => new (List.mem_map.2 ⟨_, hm, rfl⟩)
      simp [absent, eq_comm]
    · simp [same, beq_false_of_ne same, ih once]

/-- The entries with a key are the one that is found. -/
theorem filter_key_of_nodup {K V : Type*} [DecidableEq K] {l : List (K × V)} (once : (l.map Prod.fst).Nodup)
    (key : K) : l.filter (fun e => e.1 = key) = ((l.lookup key).map fun value => (key, value)).toList := by
  induction l with
  | nil => rfl
  | cons e l ih =>
    obtain ⟨k, v⟩ := e
    obtain ⟨new, once⟩ := List.nodup_cons.1 once
    rw [List.lookup_cons]
    by_cases same : key = k
    · subst same
      have others : ∀ e ∈ l, e.1 ≠ key := fun e he other => new (List.mem_map.2 ⟨e, he, other⟩)
      simpa using others
    · simp [Ne.symm same, beq_false_of_ne same, ih once]

variable {K V : Type*} [LinearOrder K]

/-- Put an entry in its place, over an entry with the same key. -/
def insertEntry (k : K) (v : V) : List (K × V) → List (K × V)
  | [] => [(k, v)]
  | e :: rest =>
    if k < e.1 then (k, v) :: e :: rest
    else if k = e.1 then (k, v) :: rest
    else e :: insertEntry k v rest

/-- Strictly increasing keys. -/
def KeysSorted (l : List (K × V)) : Prop := l.Pairwise fun a b => a.1 < b.1

theorem mem_of_mem_insertEntry {k : K} {v : V} {l : List (K × V)} {e : K × V}
    (h : e ∈ insertEntry k v l) : e = (k, v) ∨ e ∈ l := by
  induction l with
  | nil => exact .inl (List.mem_singleton.1 h)
  | cons e' rest ih =>
    unfold insertEntry at h
    split_ifs at h
    · exact List.mem_cons.1 h
    · exact (List.mem_cons.1 h).imp id (List.mem_cons_of_mem _)
    · rcases List.mem_cons.1 h with rfl | h
      · exact .inr List.mem_cons_self
      · exact (ih h).imp id (List.mem_cons_of_mem _)

theorem keysSorted_insertEntry {l : List (K × V)} (h : KeysSorted l) (k : K) (v : V) :
    KeysSorted (insertEntry k v l) := by
  induction l with
  | nil => exact List.pairwise_singleton _ _
  | cons e rest ih =>
    obtain ⟨first, sorted⟩ := List.pairwise_cons.1 h
    unfold insertEntry
    split_ifs with below same
    · refine List.pairwise_cons.2 ⟨fun b hb => ?_, h⟩
      rcases List.mem_cons.1 hb with rfl | hb
      · exact below
      · exact below.trans (first b hb)
    · exact List.pairwise_cons.2 ⟨fun b hb => same ▸ first b hb, sorted⟩
    · refine List.pairwise_cons.2 ⟨fun b hb => ?_, ih sorted⟩
      rcases mem_of_mem_insertEntry hb with rfl | hb
      · exact lt_of_le_of_ne (not_lt.1 below) (Ne.symm same)
      · exact first b hb

theorem KeysSorted.lookup_eq_some_iff {l : List (K × V)} (h : KeysSorted l) {k : K} {v : V} :
    l.lookup k = some v ↔ (k, v) ∈ l := by
  induction l with
  | nil => simp
  | cons e rest ih =>
    obtain ⟨first, sorted⟩ := List.pairwise_cons.1 h
    obtain ⟨k', v'⟩ := e
    rw [List.lookup_cons, List.mem_cons]
    by_cases same : k = k'
    · subst same
      have absent : (k, v) ∉ rest := fun hm => lt_irrefl k (first _ hm)
      simp [absent, eq_comm]
    · simp [same, beq_false_of_ne same, ih sorted]

/-- An entry in front of which all keys are smaller goes to the end. -/
theorem insertEntry_eq_concat {k : K} (v : V) {l : List (K × V)} (below : ∀ e ∈ l, e.1 < k) :
    insertEntry k v l = l ++ [(k, v)] := by
  induction l with
  | nil => rfl
  | cons e rest ih =>
    have first := below e List.mem_cons_self
    rw [insertEntry, if_neg first.not_gt, if_neg first.ne', ih fun e' h => below e' (List.mem_cons_of_mem _ h)]
    rfl

theorem insertEntry_perm {k : K} (v : V) {l : List (K × V)} (absent : ∀ e ∈ l, e.1 ≠ k) :
    (insertEntry k v l).Perm ((k, v) :: l) := by
  induction l with
  | nil => exact .rfl
  | cons e rest ih =>
    have rest' := ih fun e' h => absent e' (List.mem_cons_of_mem _ h)
    rw [insertEntry, if_neg (absent e List.mem_cons_self).symm]
    split_ifs
    · exact .rfl
    · exact (rest'.cons e).trans (.swap _ _ _)

theorem insertEntry_subperm (k : K) (v : V) (l : List (K × V)) : (insertEntry k v l).Subperm ((k, v) :: l) := by
  induction l with
  | nil => exact .refl _
  | cons e rest ih =>
    rw [insertEntry]
    split_ifs
    · exact .refl _
    · exact (List.subperm_cons _).2 (List.sublist_cons_self _ _).subperm
    · exact ((List.subperm_cons e).2 ih).trans (List.Perm.swap _ _ _).subperm

/-- An entry over another one makes the list no longer. -/
theorem length_insertEntry_of_mem {k : K} (v : V) {l : List (K × V)} (h : KeysSorted l) {e : K × V} (mem : e ∈ l)
    (same : e.1 = k) : (insertEntry k v l).length = l.length := by
  induction l with
  | nil => cases mem
  | cons e' rest ih =>
    obtain ⟨first, sorted⟩ := List.pairwise_cons.1 h
    rcases List.mem_cons.1 mem with rfl | mem
    · rw [insertEntry, if_neg same.le.not_gt, if_pos same.symm, List.length_cons, List.length_cons]
    · have lt : e'.1 < k := same ▸ first e mem
      rw [insertEntry, if_neg lt.not_gt, if_neg lt.ne', List.length_cons, List.length_cons, ih sorted mem]

theorem KeysSorted.filter {l : List (K × V)} (h : KeysSorted l) (p : K × V → Bool) :
    KeysSorted (l.filter p) :=
  h.sublist List.filter_sublist

/-- What a range of a sorted list holds. -/
theorem lookup_filter {l : List (K × V)} (h : KeysSorted l) (p : K → Bool) (k : K) :
    (l.filter fun e => p e.1).lookup k = if p k then l.lookup k else none := by
  apply Option.ext
  intro v
  rw [(h.filter _).lookup_eq_some_iff, List.mem_filter]
  split_ifs with hk
  · rw [h.lookup_eq_some_iff]
    exact and_iff_left hk
  · simp [hk]

theorem lookup_insertEntry_self (k : K) (v : V) (l : List (K × V)) :
    (insertEntry k v l).lookup k = some v := by
  induction l with
  | nil => simp [insertEntry]
  | cons e rest ih =>
    unfold insertEntry
    split_ifs with below same
    · simp
    · simp
    · rw [List.lookup_cons, beq_false_of_ne same]
      exact ih

theorem lookup_insertEntry_of_ne {k k' : K} (h : k' ≠ k) (v : V) (l : List (K × V)) :
    (insertEntry k v l).lookup k' = l.lookup k' := by
  induction l with
  | nil => simp [insertEntry, h]
  | cons e rest ih =>
    unfold insertEntry
    split_ifs with below same
    · rw [List.lookup_cons, beq_false_of_ne h]
    · rw [List.lookup_cons, List.lookup_cons, ← same, beq_false_of_ne h]
    · rw [List.lookup_cons, List.lookup_cons, ih]

/-- A map as the list of its entries. -/
structure SortedMap (K V : Type*) [LinearOrder K] where
  entries : List (K × V)
  sorted : KeysSorted entries

namespace SortedMap

variable (m : SortedMap K V)

/-- Without entries. -/
def empty : SortedMap K V := ⟨[], List.Pairwise.nil⟩

/-- The value of a key. -/
def get (k : K) : Option V := m.entries.lookup k

/-- There is a value. -/
def contains (k : K) : Bool := (m.get k).isSome

/-- Set the value of a key. -/
def insert (k : K) (v : V) : SortedMap K V := ⟨insertEntry k v m.entries, keysSorted_insertEntry m.sorted k v⟩

/-- Put an entry in unless its key is there. -/
def insertIfAbsent (k : K) (v : V) : SortedMap K V :=
  match m.get k with
  | some _ => m
  | none => m.insert k v

/-- The number of entries. -/
def length : ℕ := m.entries.length

/-- The entries with keys from `a` to `b`; there is no such range when `b` comes before `a`. -/
def range (a b : K) : Option (List (K × V)) :=
  if a ≤ b then some (m.entries.filter fun e => a ≤ e.1 && e.1 ≤ b) else none

@[simp] theorem get_empty (k : K) : (empty : SortedMap K V).get k = none := rfl

theorem get_insert (k : K) (v : V) (k' : K) :
    (m.insert k v).get k' = if k' = k then some v else m.get k' := by
  split_ifs with h
  · subst h
    exact lookup_insertEntry_self k' v m.entries
  · exact lookup_insertEntry_of_ne h v m.entries

theorem get_insertIfAbsent (k : K) (v : V) (k' : K) :
    (m.insertIfAbsent k v).get k' = (m.get k').or (if k' = k then some v else none) := by
  unfold insertIfAbsent
  split
  · rename_i w hw
    split_ifs with h
    · subst h
      simp [hw]
    · simp
  · rename_i hk
    rw [get_insert]
    split_ifs with h
    · subst h
      simp [hk]
    · simp

/-- The entries of a sorted list go in over those of the map. -/
theorem foldl_insert {l : List (K × V)} (h : KeysSorted l) (k : K) :
    (l.foldl (fun m e => m.insert e.1 e.2) m).get k = (l.lookup k).or (m.get k) := by
  induction l generalizing m with
  | nil => rfl
  | cons e rest ih =>
    obtain ⟨first, sorted⟩ := List.pairwise_cons.1 h
    obtain ⟨k', v'⟩ := e
    rw [List.foldl_cons, ih _ sorted, get_insert, List.lookup_cons]
    by_cases same : k = k'
    · subst same
      have absent : rest.lookup k = none := by
        rw [List.lookup_eq_none_iff]
        exact fun e he => by simpa using (first e he).ne
      simp [absent]
    · simp [same, beq_false_of_ne same]

/-- The entries of a sorted list go in under those of the map. -/
theorem foldl_insertIfAbsent {l : List (K × V)} (h : KeysSorted l) (k : K) :
    (l.foldl (fun m e => m.insertIfAbsent e.1 e.2) m).get k = (m.get k).or (l.lookup k) := by
  induction l generalizing m with
  | nil => simp
  | cons e rest ih =>
    obtain ⟨-, sorted⟩ := List.pairwise_cons.1 h
    obtain ⟨k', v'⟩ := e
    rw [List.foldl_cons, ih _ sorted, get_insertIfAbsent, List.lookup_cons]
    by_cases same : k = k'
    · subst same
      cases m.get k <;> simp
    · simp [same, beq_false_of_ne same]

end SortedMap
