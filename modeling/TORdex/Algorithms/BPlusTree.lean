import Mathlib.Data.List.Dedup
import TORdex.Lib.Ensures
import TORdex.Lib.SortedMap

/-!
# The B+ tree

The tree is a sorted vector of keys beside one of values.  The binary search of the standard library is a
parameter: it finds some index of the key, or the place where the key would go.
-/

namespace TORdex

variable {K V : Type} [LinearOrder K]

/-- `slice::binary_search`. -/
abbrev BinarySearch (K : Type) := List K → K → Except ℕ ℕ

/-- In a sorted slice the search returns an index of the key; where there is none it returns the place of the
key. -/
def Searches (search : BinarySearch K) : Prop :=
  ∀ keys : List K, keys.Pairwise (· ≤ ·) → ∀ key,
    match search keys key with
    | .ok i => keys[i]? = some key
    | .error i => i ≤ keys.length ∧ (∀ x ∈ keys.take i, x < key) ∧ ∀ x ∈ keys.drop i, key < x

/-- Keys in order, with their values. -/
structure BPlusTree (K V : Type) where
  keys : List K
  values : List V
  order : ℕ

/-- `Vec::insert`, which panics beyond the end. -/
def insertAt {α : Type*} (l : List α) (i : ℕ) (a : α) : Option (List α) :=
  if i ≤ l.length then some (l.take i ++ a :: l.drop i) else none

namespace BPlusTree

/-- Without keys. -/
def new (order : ℕ) : BPlusTree K V := ⟨[], [], order⟩

/-- `binary_search(key).unwrap_or_else(|e| e)`. -/
def position (search : BinarySearch K) (keys : List K) (key : K) : ℕ :=
  match search keys key with
  | .ok i => i
  | .error e => e

/-- `none` is a panic. -/
def insert (search : BinarySearch K) (t : BPlusTree K V) (key : K) (value : V) : Option (BPlusTree K V) := do
  let pos := position search t.keys key
  let keys ← insertAt t.keys pos key
  let values ← insertAt t.values pos value
  return { t with keys, values }

/-- `none` is a panic. -/
def search (search : BinarySearch K) (t : BPlusTree K V) (key : K) : Option (Option V) :=
  match search t.keys key with
  | .ok i => t.values[i]?.map some
  | .error _ => some none

/-- The entry at an index; `none` is a panic. -/
def entryAt (t : BPlusTree K V) (i : ℕ) : Option (K × V) := do
  let key ← t.keys[i]?
  let value ← t.values[i]?
  return (key, value)

/-- `none` is a panic. -/
def rangeScan (search : BinarySearch K) (t : BPlusTree K V) (start last : K) : Option (List (K × V)) :=
  let startPos := position search t.keys start
  let endPos :=
    match search t.keys last with
    | .ok i => i
    | .error e => e - 1
  let final := min endPos (t.keys.length - 1)
  (List.range' startPos (final + 1 - startPos)).mapM t.entryAt

/-- The number of keys. -/
def len (t : BPlusTree K V) : ℕ := t.keys.length

/-- A tree after some insertions. -/
def build (search : BinarySearch K) (order : ℕ) (entries : List (K × V)) : Option (BPlusTree K V) :=
  entries.foldlM (fun t e => t.insert search e.1 e.2) (new order)

/-! ## What insertion keeps -/

/-- The entries of the two vectors. -/
def entries (t : BPlusTree K V) : List (K × V) := t.keys.zip t.values

/-- The keys are in order, and the entries are those that were inserted. -/
structure Holds (t : BPlusTree K V) (inserted : List (K × V)) : Prop where
  sorted : t.keys.Pairwise (· ≤ ·)
  lengths : t.values.length = t.keys.length
  perm : t.entries.Perm inserted

section Holds

variable {search : BinarySearch K} {t : BPlusTree K V} {inserted : List (K × V)} {keys : List K} {key a b : K}
  {value : V}

theorem holds_new (order : ℕ) : (new order : BPlusTree K V).Holds [] :=
  ⟨List.Pairwise.nil, rfl, List.Perm.refl _⟩

theorem Holds.map_fst (h : t.Holds inserted) : t.entries.map Prod.fst = t.keys :=
  List.map_fst_zip h.lengths.ge

/-- The place of a key parts the keys. -/
theorem position_parts (hs : Searches search) (sorted : keys.Pairwise (· ≤ ·)) (key : K) :
    position search keys key ≤ keys.length ∧ (∀ x ∈ keys.take (position search keys key), x ≤ key) ∧
      ∀ x ∈ keys.drop (position search keys key), key ≤ x := by
  have found := hs keys sorted key
  unfold position
  cases run : search keys key with
  | error i =>
    rw [run] at found
    exact ⟨found.1, fun x hx => (found.2.1 x hx).le, fun x hx => (found.2.2 x hx).le⟩
  | ok i =>
    rw [run] at found
    dsimp only at found ⊢
    obtain ⟨lt, at_i⟩ := List.getElem?_eq_some_iff.1 found
    have split := List.take_append_drop i keys
    rw [List.drop_eq_getElem_cons lt, at_i] at split
    have apart := sorted
    rw [← split, List.pairwise_append, List.pairwise_cons] at apart
    refine ⟨lt.le, fun x hx => apart.2.2 x hx key List.mem_cons_self, fun x hx => ?_⟩
    rw [List.drop_eq_getElem_cons lt, at_i] at hx
    rcases List.mem_cons.1 hx with rfl | hx
    · exact le_rfl
    · exact apart.2.1.1 x hx

theorem Holds.insert (hs : Searches search) (h : t.Holds inserted) (key : K) (value : V) :
    ∃ t', t.insert search key value = some t' ∧ t'.Holds (inserted ++ [(key, value)]) := by
  obtain ⟨inside, below, above⟩ := position_parts hs h.sorted key
  refine ⟨⟨t.keys.take (position search t.keys key) ++ key :: t.keys.drop (position search t.keys key),
    t.values.take (position search t.keys key) ++ value :: t.values.drop (position search t.keys key),
      t.order⟩,
    ?_, ?_, ?_, ?_⟩
  · simp [BPlusTree.insert, insertAt, inside, h.lengths]
  · have parts := h.sorted
    rw [← List.take_append_drop (position search t.keys key) t.keys, List.pairwise_append] at parts
    rw [List.pairwise_append, List.pairwise_cons]
    refine ⟨parts.1, ⟨above, parts.2.1⟩, fun x hx y hy => ?_⟩
    rcases List.mem_cons.1 hy with rfl | hy
    · exact below x hx
    · exact parts.2.2 x hx y hy
  · simp [h.lengths]
  · have front : (t.keys.take (position search t.keys key)).length =
        (t.values.take (position search t.keys key)).length := by
      rw [List.length_take, List.length_take, h.lengths]
    have same : t.entries =
      (t.keys.take (position search t.keys key)).zip (t.values.take (position search t.keys key)) ++
        (t.keys.drop (position search t.keys key)).zip (t.values.drop (position search t.keys key)) := by
      rw [← List.zip_append front, List.take_append_drop, List.take_append_drop, entries]
    rw [entries, List.zip_append front, List.zip_cons_cons]
    refine List.perm_middle.trans ?_
    rw [← same]
    exact (h.perm.cons _).trans (List.perm_append_singleton _ _).symm

/-- No insertion panics. -/
theorem exists_build (hs : Searches search) (order : ℕ) (inserted : List (K × V)) :
    ∃ t, build search order inserted = some t ∧ t.Holds inserted := by
  refine foldlM_ensures (P := fun done t => BPlusTree.Holds t done) (holds_new order) ?_
  rintro before e after - t h
  exact h.insert hs e.1 e.2

end Holds

/-! ## Scans -/

theorem entryAt_eq {K V : Type} (t : BPlusTree K V) (i : ℕ) : t.entryAt i = t.entries[i]? := by
  unfold entryAt entries
  apply Option.ext
  rintro ⟨key, value⟩
  rw [List.getElem?_zip_eq_some]
  cases t.keys[i]? <;> cases t.values[i]? <;> simp

/-- What a loop over some indices reads. -/
theorem mapM_range' {α : Type} (l : List α) {start n : ℕ} (inside : start + n ≤ l.length) :
    (List.range' start n).mapM (fun i => l[i]?) = some ((l.drop start).take n) := by
  induction n generalizing start with
  | zero => rfl
  | succ n ih =>
    have lt : start < l.length := by omega
    rw [List.range'_succ, List.mapM_cons, List.getElem?_eq_getElem lt, ih (by omega),
      List.drop_eq_getElem_cons lt]
    rfl

/-! ## Keys that are inserted once -/

/-- A list in order has the keys that satisfy a condition in front, when smaller keys satisfy it too. -/
theorem exists_split {l : List (K × V)} (sorted : KeysSorted l) {p : K → Prop}
    (down : ∀ x y, x < y → p y → p x) :
    ∃ lo hi, l = lo ++ hi ∧ (∀ e ∈ lo, p e.1) ∧ ∀ e ∈ hi, ¬ p e.1 := by
  induction l with
  | nil => exact ⟨[], [], rfl, by simp, by simp⟩
  | cons e l ih =>
    obtain ⟨first, rest⟩ := List.pairwise_cons.1 sorted
    by_cases here : p e.1
    · obtain ⟨lo, hi, rfl, inside, outside⟩ := ih rest
      exact ⟨e :: lo, hi, rfl, List.forall_mem_cons.2 ⟨here, inside⟩, outside⟩
    · refine ⟨[], e :: l, rfl, by simp, List.forall_mem_cons.2 ⟨here, fun e' he' beyond => ?_⟩⟩
      exact here (down _ _ (first e' he') beyond)

section Once

variable {search : BinarySearch K} {t : BPlusTree K V} {inserted : List (K × V)} {key a b : K} {value : V}

theorem Holds.strict (h : t.Holds inserted) (once : (inserted.map Prod.fst).Nodup) :
    KeysSorted t.entries := by
  have nodup : t.keys.Nodup := h.map_fst ▸ ((h.perm.map Prod.fst).nodup_iff).2 once
  have strict : t.keys.Pairwise (· < ·) := h.sorted.imp₂ (fun _ _ => lt_of_le_of_ne) nodup
  rw [← h.map_fst, List.pairwise_map] at strict
  exact strict

theorem Holds.lookup_reverse (h : t.Holds inserted) (once : (inserted.map Prod.fst).Nodup) :
    inserted.reverse.lookup key = some value ↔ (key, value) ∈ t.entries := by
  rw [lookup_eq_some_iff_of_nodup (by rw [List.map_reverse]; exact List.nodup_reverse.2 once),
    List.mem_reverse,
    h.perm.mem_iff]

/-- There is one way to part a list by a condition. -/
theorem length_eq_of_split {α : Type} {p : α → Prop} {lo hi lo' hi' : List α} (same : lo ++ hi = lo' ++ hi')
    (inside : ∀ x ∈ lo, p x) (outside : ∀ x ∈ hi, ¬ p x) (inside' : ∀ x ∈ lo', p x)
    (outside' : ∀ x ∈ hi', ¬ p x) : lo.length = lo'.length := by
  rcases List.append_eq_append_iff.1 same with ⟨more, rfl, rfl⟩ | ⟨more, rfl, rfl⟩
  · cases more with
    | nil => rw [List.append_nil]
    | cons x more => exact absurd (inside' x (by simp)) (outside x (by simp))
  · cases more with
    | nil => rw [List.append_nil]
    | cons x more => exact absurd (inside x (by simp)) (outside' x (by simp))

/-- A key that is found parts the keys. -/
theorem parts_of_ok {keys : List K} (strict : keys.Pairwise (· < ·)) {i : ℕ} (found : keys[i]? = some key) :
    keys = keys.take i ++ key :: keys.drop (i + 1) ∧ i < keys.length ∧ (∀ x ∈ keys.take i, x < key) ∧
      ∀ x ∈ keys.drop (i + 1), key < x := by
  obtain ⟨lt, at_i⟩ := List.getElem?_eq_some_iff.1 found
  have split := List.take_append_drop i keys
  rw [List.drop_eq_getElem_cons lt, at_i] at split
  rw [← split, List.pairwise_append, List.pairwise_cons] at strict
  exact ⟨split.symm, lt, fun x hx => strict.2.2 x hx key List.mem_cons_self, strict.2.1.1⟩

/-- The place of a key is behind the smaller ones. -/
theorem position_eq (hs : Searches search) {keys lo hi : List K} (strict : keys.Pairwise (· < ·))
    (split : keys = lo ++ hi) (below : ∀ x ∈ lo, x < key) (above : ∀ x ∈ hi, key ≤ x) :
    position search keys key = lo.length := by
  have outside : ∀ x ∈ hi, ¬ x < key := fun x hx => (above x hx).not_gt
  have found := hs keys (strict.imp le_of_lt) key
  unfold position
  cases run : search keys key with
  | ok i =>
    rw [run] at found
    obtain ⟨parts, lt, smaller, larger⟩ := parts_of_ok strict found
    have length := length_eq_of_split (p := (· < key)) (split.symm.trans parts) below outside smaller
      (List.forall_mem_cons.2 ⟨lt_irrefl key, fun x hx => (larger x hx).not_gt⟩)
    rw [length, List.length_take, min_eq_left lt.le]
  | error e =>
    rw [run] at found
    obtain ⟨le, smaller, larger⟩ := found
    have length := length_eq_of_split (p := (· < key))
      (split.symm.trans (List.take_append_drop e keys).symm) below
      outside smaller fun x hx => (larger x hx).not_gt
    rw [length, List.length_take, min_eq_left le]

/-- The end of a scan is the last of the keys that are not above the bound. -/
theorem endPos_eq (hs : Searches search) {keys lo hi : List K} (strict : keys.Pairwise (· < ·))
    (split : keys = lo ++ hi) (inside : ∀ x ∈ lo, x ≤ key) (above : ∀ x ∈ hi, key < x) :
    (match search keys key with
      | .ok i => i
      | .error e => e - 1) = lo.length - 1 := by
  have outside : ∀ x ∈ hi, ¬ x ≤ key := fun x hx => (above x hx).not_ge
  have found := hs keys (strict.imp le_of_lt) key
  cases run : search keys key with
  | ok i =>
    rw [run] at found
    obtain ⟨parts, lt, smaller, larger⟩ := parts_of_ok strict found
    rw [← List.singleton_append, ← List.append_assoc] at parts
    have length := length_eq_of_split (p := (· ≤ key)) (split.symm.trans parts) inside outside
      (forall_mem_concat (fun x hx => (smaller x hx).le) le_rfl) fun x hx => (larger x hx).not_ge
    rw [length, List.length_append, List.length_take, min_eq_left lt.le]
    rfl
  | error e =>
    rw [run] at found
    obtain ⟨le, smaller, larger⟩ := found
    have length := length_eq_of_split (p := (· ≤ key))
      (split.symm.trans (List.take_append_drop e keys).symm) inside
      outside (fun x hx => (smaller x hx).le) fun x hx => (larger x hx).not_ge
    rw [length, List.length_take, min_eq_left le]

/-- A scan returns the entries between its bounds, when some key is not above them. -/
theorem Holds.rangeScan (hs : Searches search) (h : t.Holds inserted) (strict : KeysSorted t.entries)
    (le : a ≤ b)
    (reach : ∃ key ∈ t.keys, key ≤ b) : ∃ result, t.rangeScan search a b = some result ∧ KeysSorted result ∧
      ∀ e, e ∈ result ↔ a ≤ e.1 ∧ e.1 ≤ b ∧ e ∈ t.entries := by
  obtain ⟨lo, rest, split, below, above⟩ :=
    exists_split strict (p := (· < a)) fun x y less => less.trans
  rw [split] at strict
  obtain ⟨mid, hi, rfl, inside, beyond⟩ :=
    exists_split (List.pairwise_append.1 strict).2.1 (p := (· ≤ b)) fun x y less => less.le.trans
  have keys : t.keys = lo.map Prod.fst ++
    (mid ++ hi).map Prod.fst := by rw [← h.map_fst, split, List.map_append]
  have increasing : t.keys.Pairwise (· < ·) := by
    rw [← h.map_fst, split, List.pairwise_map]
    exact strict
  have startPos : position search t.keys a = lo.length := by
    rw [position_eq hs increasing keys (List.forall_mem_map.2 below)
      (List.forall_mem_map.2 fun e he => not_lt.1 (above e he)), List.length_map]
  have under : ∀ e ∈ lo ++ mid, e.1 ≤ b := by
    intro e he
    rcases List.mem_append.1 he with he | he
    · exact (below e he).le.trans le
    · exact inside e he
  have parts : t.keys = (lo ++ mid).map Prod.fst ++ hi.map Prod.fst := by
    rw [keys, List.map_append, List.map_append, List.append_assoc]
  have endPos := endPos_eq hs increasing parts (List.forall_mem_map.2 under)
    (List.forall_mem_map.2 fun e he => not_le.1 (beyond e he))
  have some : 0 < (lo ++ mid).length := by
    obtain ⟨key, hk, hb⟩ := reach
    rw [← h.map_fst, split, ← List.append_assoc, List.map_append, List.mem_append] at hk
    rcases hk with hk | hk
    · obtain ⟨e, he, -⟩ := List.mem_map.1 hk
      exact List.length_pos_of_mem he
    · obtain ⟨e, he, rfl⟩ := List.mem_map.1 hk
      exact absurd hb (beyond e he)
  have length : t.keys.length = lo.length + (mid.length + hi.length) := by
    rw [keys, List.length_append, List.length_map, List.length_map, List.length_append]
  have count : min ((lo ++ mid).length - 1) (t.keys.length - 1) + 1 - lo.length = mid.length := by
    rw [List.length_append] at some ⊢
    omega
  refine ⟨mid, ?_, (List.pairwise_append.1 (List.pairwise_append.1 strict).2.1).1, fun e => ?_⟩
  · unfold BPlusTree.rangeScan
    rw [startPos, endPos, List.length_map]
    dsimp only
    rw [count, funext t.entryAt_eq, mapM_range', split, List.drop_left, List.take_left]
    rw [split, List.length_append, List.length_append]
    omega
  · rw [split, List.mem_append, List.mem_append]
    constructor
    · exact fun he => ⟨not_lt.1 (above e (List.mem_append_left _ he)), inside e he, .inr (.inl he)⟩
    · rintro ⟨ha, hb, he | he | he⟩
      · exact absurd (below e he) ha.not_gt
      · exact he
      · exact absurd hb (beyond e he)

/-- A search finds what was inserted. -/
theorem Holds.search_eq (hs : Searches search) (h : t.Holds inserted) (once : (inserted.map Prod.fst).Nodup)
    (key : K) : t.search search key = some (inserted.reverse.lookup key) := by
  have found := hs t.keys h.sorted key
  unfold BPlusTree.search
  cases run : search t.keys key with
  | ok i =>
    rw [run] at found
    obtain ⟨lt, at_i⟩ := List.getElem?_eq_some_iff.1 found
    have inside : i < t.values.length := h.lengths ▸ lt
    have here : (key, t.values[i]) ∈ t.entries := by
      refine List.mem_iff_getElem?.2 ⟨i, ?_⟩
      exact List.getElem?_zip_eq_some.2 ⟨found, List.getElem?_eq_getElem inside⟩
    rw [(h.lookup_reverse once).2 here]
    simp [inside]
  | error e =>
    rw [run] at found
    have absent : key ∉ t.keys := by
      intro hk
      rw [← List.take_append_drop e t.keys, List.mem_append] at hk
      rcases hk with hk | hk
      · exact lt_irrefl key (found.2.1 key hk)
      · exact lt_irrefl key (found.2.2 key hk)
    cases stored : inserted.reverse.lookup key with
    | none => rfl
    | some value =>
      have there := List.mem_map_of_mem (f := Prod.fst) ((h.lookup_reverse once).1 stored)
      exact absurd (h.map_fst ▸ there) absent

/-- Where all keys are above the bounds, a scan panics on an empty tree, and returns the first entry of
another. -/
theorem Holds.rangeScan_above (hs : Searches search) (h : t.Holds inserted) (le : a ≤ b)
    (above : ∀ key ∈ t.keys, b < key) {result : List (K × V)} (run : t.rangeScan search a b = some result) :
    ∃ e ∈ result, e ∈ t.entries := by
  have zero : ∀ key, key ≤ b → search t.keys key = .error 0 := by
    intro key hk
    have found := hs t.keys h.sorted key
    cases outcome : search t.keys key with
    | ok i =>
      rw [outcome] at found
      exact absurd hk (above key (List.mem_of_getElem? found)).not_ge
    | error e =>
      rw [outcome] at found
      cases e with
      | zero => rfl
      | succ e =>
        have pos : 0 < t.keys.length := Nat.lt_of_lt_of_le (Nat.succ_pos e) found.1
        have first : t.keys[0] ∈ t.keys.take (e + 1) := by
          rw [List.mem_take_iff_getElem]
          exact ⟨0, by omega, rfl⟩
        have below := found.2.1 _ first
        exact absurd (below.le.trans hk) (above _ (List.getElem_mem pos)).not_ge
  have one : t.rangeScan search a b = (t.entryAt 0).map ([·]) := by
    unfold BPlusTree.rangeScan position
    rw [zero a le, zero b le_rfl]
    show (List.range' 0 (min 0 (t.keys.length - 1) + 1 - 0)).mapM t.entryAt = _
    rw [Nat.zero_min]
    show (t.entryAt 0).bind _ = _
    cases t.entryAt 0 <;> rfl
  rw [one, Option.map_eq_some_iff] at run
  obtain ⟨e, he, rfl⟩ := run
  rw [entryAt_eq] at he
  exact ⟨e, List.mem_singleton_self e, List.mem_of_getElem? he⟩

end Once

/-! ## The result -/

/-- The tree answers like a sorted map with what was inserted. -/
structure AgreesAt (binarySearch : BinarySearch K) (t : BPlusTree K V) (inserted : List (K × V))
    (key a b : K) :
    Prop where
  search : t.search binarySearch key = some (inserted.reverse.lookup key)
  len : t.len = (inserted.map Prod.fst).dedup.length
  scan : ∃ result, t.rangeScan binarySearch a b = some result ∧ KeysSorted result ∧
    ∀ k v, (k, v) ∈ result ↔ a ≤ k ∧ k ≤ b ∧ inserted.reverse.lookup k = some v

section Result

variable {binarySearch : BinarySearch K} {a b : K}

/-- The tree answers like a sorted map exactly when no key was inserted twice, and the scan does not end below
all of them. -/
theorem agreesAt_iff (hs : Searches binarySearch) (order : ℕ) (inserted : List (K × V)) (key : K)
    (le : a ≤ b) :
    (∃ t, build binarySearch order inserted = some t ∧ AgreesAt binarySearch t inserted key a b) ↔
      (inserted.map Prod.fst).Nodup ∧ ∃ k ∈ inserted.map Prod.fst, k ≤ b := by
  obtain ⟨t, run, h⟩ := exists_build hs order inserted
  have known : ∀ k, k ∈ t.keys ↔ k ∈ inserted.map Prod.fst := fun k => by
    rw [← h.map_fst]
    exact (h.perm.map Prod.fst).mem_iff
  have length : t.len = (inserted.map Prod.fst).length := by
    rw [len, ← h.map_fst]
    exact (h.perm.map Prod.fst).length_eq
  constructor
  · rintro ⟨t', run', agrees⟩
    obtain rfl : t = t' := Option.some.inj (run.symm.trans run')
    have once : (inserted.map Prod.fst).Nodup := by
      rw [← List.dedup_eq_self]
      exact (List.dedup_sublist _).eq_of_length (agrees.len.symm.trans length)
    refine ⟨once, ?_⟩
    by_contra none
    obtain ⟨result, scanned, -, stored⟩ := agrees.scan
    obtain ⟨e, he, there⟩ := h.rangeScan_above hs le
      (fun k hk => not_le.1 fun hb => none ⟨k, (known k).1 hk, hb⟩) scanned
    exact none ⟨e.1, (known e.1).1 (h.map_fst ▸ List.mem_map_of_mem there), ((stored e.1 e.2).1 he).2.1⟩
  · rintro ⟨once, k, hk, hb⟩
    obtain ⟨result, scanned, sorted, stored⟩ :=
      h.rangeScan hs (h.strict once) le ⟨k, (known k).2 hk, hb⟩
    refine ⟨t, run, h.search_eq hs once key, ?_, result, scanned, sorted, fun k v => ?_⟩
    · rw [length, List.dedup_eq_self.2 once]
    · rw [stored, h.lookup_reverse once]

end Result

/-- A binary search. -/
def linearSearch : BinarySearch K
  | [], _ => .error 0
  | k :: keys, key =>
    if key = k then .ok 0
    else if key < k then .error 0
    else
      match linearSearch keys key with
      | .ok i => .ok (i + 1)
      | .error e => .error (e + 1)

theorem searches_linearSearch : Searches (linearSearch (K := K)) := by
  intro keys sorted key
  induction keys with
  | nil => exact ⟨le_rfl, by simp, by simp⟩
  | cons k keys ih =>
    obtain ⟨first, rest⟩ := List.pairwise_cons.1 sorted
    have found := ih rest
    unfold linearSearch
    split_ifs with same less
    · exact congrArg some same.symm
    · refine ⟨Nat.zero_le _, by simp, List.forall_mem_cons.2 ⟨less, fun x hx => less.trans_le (first x hx)⟩⟩
    · cases run : linearSearch keys key with
      | ok i =>
        rw [run] at found
        exact found
      | error e =>
        rw [run] at found
        refine ⟨Nat.succ_le_succ found.1, List.forall_mem_cons.2 ⟨?_, found.2.1⟩, found.2.2⟩
        exact lt_of_le_of_ne (not_lt.1 less) (Ne.symm same)

theorem agreesAt_sample : ∃ t, build linearSearch 4 [(3, "c"), (1, "a"), (7, "g")] = some t ∧
    AgreesAt linearSearch t [(3, "c"), (1, "a"), (7, "g")] 3 2 6 :=
  (agreesAt_iff searches_linearSearch 4 _ 3 (by decide)).2 ⟨by decide, 1, by decide, by decide⟩

/-- A scan of the empty tree panics. -/
theorem not_agreesAt : ¬ ∀ (search : BinarySearch ℕ) (order : ℕ) (inserted : List (ℕ × String)) (key a b : ℕ),
    Searches search → a ≤ b →
      ∃ t, build search order inserted = some t ∧ AgreesAt search t inserted key a b := by
  intro h
  obtain ⟨t, run, agrees⟩ := h linearSearch 4 [] 0 0 1 searches_linearSearch (by decide)
  obtain rfl : new 4 = t := Option.some.inj run
  obtain ⟨result, scanned, -⟩ := agrees.scan
  cases scanned

end BPlusTree

end TORdex
