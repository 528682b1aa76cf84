import Mathlib.Algebra.Ring.Nat
import Mathlib.Data.Finset.Card
import Mathlib.Data.Finset.Dedup
import TORdex.Lib.SortedMap

/-!
# The log-structured merge tree

Entries go into a table in memory, full tables onto a list, and four of them are merged.  A key may be
in several tables; a search takes the youngest.  The tree holds for every key what was inserted last, unless
a build that checks for overflow meets the double of a table size from `2 ^ 63` on.
-/

namespace TORdex

variable {K V : Type*} [LinearOrder K]

/-- An LSM tree. -/
structure LSMTree (K V : Type*) [LinearOrder K] where
  memtable : SortedMap K V
  /-- The oldest table comes first. -/
  sstables : List (SortedMap K V)
  maxMemtableSize : ℕ
  compactionThreshold : ℕ

/-- `slice::chunks`, for a size that is not zero. -/
def chunks {α : Type*} (size : ℕ) : ℕ → List α → List (List α)
  | 0, _ => []
  | fuel + 1, l => if l = [] then [] else l.take size :: chunks size fuel (l.drop size)

namespace LSMTree

/-- An empty tree, which merges at four tables. -/
def new (maxMemtableSize : ℕ) : LSMTree K V := ⟨.empty, [], maxMemtableSize, 4⟩

/-- The youngest value of a key. -/
def get (t : LSMTree K V) (key : K) : Option V :=
  match t.memtable.get key with
  | some value => some value
  | none => t.sstables.reverse.findSome? fun sstable => sstable.get key

/-- Whether a table has the key. -/
def containsKey (t : LSMTree K V) (key : K) : Bool :=
  t.memtable.contains key || t.sstables.reverse.any fun sstable => sstable.contains key

/-- All tables in one, the entries of a younger one over those of an older one. -/
def merged (sstables : List (SortedMap K V)) : SortedMap K V :=
  sstables.foldl (fun m sstable => sstable.entries.foldl (fun m e => m.insert e.1 e.2) m) .empty

/-- `max_memtable_size * 2`.  A build that checks for overflow panics, another one wraps. -/
def twice (checked : Bool) (size : ℕ) : Option ℕ :=
  if checked && size * 2 ≥ 2 ^ 64 then none else some (size * 2 % 2 ^ 64)

/-- Merge the tables; a large result is cut up again.  `none` is the panic of the product, or of `chunks` on size
zero. -/
def compact (checked : Bool) (t : LSMTree K V) : Option (LSMTree K V) :=
  let merged := merged t.sstables
  match twice checked t.maxMemtableSize with
  | none => none
  | some limit =>
    if merged.length > limit then
      if t.maxMemtableSize = 0 then none
      else
        let parts := chunks t.maxMemtableSize merged.length merged.entries
        some { t with
          sstables := parts.map fun chunk => chunk.foldl (fun m e => m.insert e.1 e.2) .empty }
    else some { t with sstables := [merged] }

/-- The table in memory goes onto the list; four tables are merged. -/
def flush (checked : Bool) (t : LSMTree K V) : Option (LSMTree K V) :=
  if t.memtable.entries.isEmpty then some t
  else
    let t := { t with memtable := .empty, sstables := t.sstables ++ [t.memtable] }
    if t.sstables.length ≥ t.compactionThreshold then t.compact checked else some t

/-- Insert into the table in memory, and flush it when it is full. -/
def insert (checked : Bool) (t : LSMTree K V) (key : K) (value : V) : Option (LSMTree K V) :=
  let t := { t with memtable := t.memtable.insert key value }
  if t.memtable.length ≥ t.maxMemtableSize then t.flush checked else some t

/-- The entries with keys from `start` to `last`; `none` is the panic of `range` when `last` comes
before `start`. -/
def rangeScan (t : LSMTree K V) (start last : K) : Option (List (K × V)) := do
  let own ← t.memtable.range start last
  let results := own.foldl (fun m e => m.insert e.1 e.2) (.empty : SortedMap K V)
  let results ← t.sstables.reverse.foldlM (fun results sstable => do
    let part ← sstable.range start last
    return part.foldl (fun m e => m.insertIfAbsent e.1 e.2) results) results
  return results.entries

/-- A call that changes the tree. -/
inductive Call (K V : Type*) where
  | insert (key : K) (value : V)
  | flush

/-- The tree after a call. -/
def perform (checked : Bool) (t : LSMTree K V) : Call K V → Option (LSMTree K V)
  | .insert key value => t.insert checked key value
  | .flush => t.flush checked

/-- The value of the last insertion of a key. -/
def lastInsert (calls : List (Call K V)) (key : K) : Option V :=
  calls.reverse.findSome? fun
    | .insert k v => if k = key then some v else none
    | .flush => none

/-- How many tables the calls fill or flush, when the table in memory has the keys `held`. -/
def frozen (maxMemtableSize : ℕ) : Finset K → List (Call K V) → ℕ
  | _, [] => 0
  | held, .insert key _ :: calls =>
    if maxMemtableSize ≤ (Insert.insert key held).card then frozen maxMemtableSize ∅ calls + 1
    else frozen maxMemtableSize (Insert.insert key held) calls
  | held, .flush :: calls =>
    if held = ∅ then frozen maxMemtableSize ∅ calls else frozen maxMemtableSize ∅ calls + 1

/-- No call of the run panics, and after it the tree is the map of the last insertions: for single keys, for the
question whether a key is there, and for ranges. -/
def Implements (checked : Bool) (maxMemtableSize : ℕ) (calls : List (Call K V)) : Prop :=
  ∃ t, calls.foldlM (perform checked) (new maxMemtableSize) = some t ∧
    (∀ key, t.get key = lastInsert calls key) ∧
    (∀ key, t.containsKey key = true ↔ ∃ value, Call.insert key value ∈ calls) ∧
    ∀ start last, start ≤ last → ∃ l, t.rangeScan start last = some l ∧ KeysSorted l ∧
      ∀ key value, (key, value) ∈ l ↔
        start ≤ key ∧ key ≤ last ∧ lastInsert calls key = some value

/-! ## What the tables hold -/

theorem get_eq (t : LSMTree K V) (key : K) :
    t.get key = (t.memtable.get key).or (t.sstables.reverse.findSome? fun s => s.get key) := by
  unfold get
  cases t.memtable.get key <;> rfl

theorem containsKey_eq (t : LSMTree K V) (key : K) : t.containsKey key = (t.get key).isSome := by
  rw [get_eq, Option.isSome_or, List.isSome_findSome?]
  rfl

theorem get_merged (sstables : List (SortedMap K V)) (key : K) :
    (merged sstables).get key = sstables.reverse.findSome? fun s => s.get key := by
  have from_map : ∀ m : SortedMap K V, (sstables.foldl (fun m sstable =>
      sstable.entries.foldl (fun m e => m.insert e.1 e.2) m) m).get key =
      (sstables.reverse.findSome? fun s => s.get key).or (m.get key) := by
    induction sstables with
    | nil => exact fun m => rfl
    | cons s rest ih =>
      intro m
      rw [List.foldl_cons, ih, m.foldl_insert s.sorted, List.reverse_cons, List.findSome?_append,
        Option.or_assoc]
      congr 1
      simp only [List.findSome?_cons, List.findSome?_nil, SortedMap.get]
      cases s.entries.lookup key <;> simp
  have := from_map .empty
  rwa [SortedMap.get_empty, Option.or_none] at this

theorem chunks_flatten {α : Type*} {size : ℕ} (pos : 0 < size) {fuel : ℕ} {l : List α}
    (enough : l.length ≤ fuel) : (chunks size fuel l).flatten = l := by
  induction fuel generalizing l with
  | zero =>
    rw [List.eq_nil_of_length_eq_zero (by omega : l.length = 0)]
    rfl
  | succ fuel ih =>
    unfold chunks
    split_ifs with empty
    · exact empty.symm
    · rw [List.flatten_cons, ih, List.take_append_drop]
      rw [List.length_drop]
      omega

/-- A sorted list cut into tables holds the same, whatever the order in which they are searched. -/
theorem findSome?_parts {parts : List (List (K × V))} (h : KeysSorted parts.flatten) (key : K) :
    ((parts.map fun chunk => chunk.foldl (fun m e => m.insert e.1 e.2)
      (.empty : SortedMap K V)).reverse.findSome? fun s => s.get key) = parts.flatten.lookup key := by
  induction parts with
  | nil => rfl
  | cons chunk rest ih =>
    rw [List.flatten_cons] at h
    obtain ⟨first, later, apart⟩ := List.pairwise_append.1 h
    rw [List.map_cons, List.reverse_cons, List.findSome?_append, ih later, List.findSome?_cons,
      List.findSome?_nil, SortedMap.foldl_insert _ first, SortedMap.get_empty, Option.or_none,
      List.flatten_cons, List.lookup_append]
    cases hc : chunk.lookup key with
    | none => simp
    | some v =>
      have absent : rest.flatten.lookup key = none := by
        rw [List.lookup_eq_none_iff]
        intro e he
        have below := apart _ ((KeysSorted.lookup_eq_some_iff first).1 hc) e he
        simpa using below.ne
      simp [absent]

theorem twice_eq_none_iff {checked : Bool} {size : ℕ} :
    twice checked size = none ↔ checked = true ∧ 2 ^ 63 ≤ size := by
  unfold twice
  cases checked <;> simp
  omega

/-- A tree and the one that a call leaves: the sizes stay, and the keys of `changes` change their values. -/
structure Follows (t t' : LSMTree K V) (changes : K → Option V) : Prop where
  size : t'.maxMemtableSize = t.maxMemtableSize
  threshold : t'.compactionThreshold = t.compactionThreshold
  get : ∀ key, t'.get key = (changes key).or (t.get key)

theorem Follows.trans {t t₁ t₂ : LSMTree K V} {changes : K → Option V} (first : Follows t t₁ changes)
    (second : Follows t₁ t₂ fun _ => none) : Follows t t₂ changes where
  size := second.size.trans first.size
  threshold := second.threshold.trans first.threshold
  get key := by rw [second.get, Option.none_or, first.get]

/-- Merging changes no value, and panics exactly when the double of the size does. -/
theorem compact_spec (checked : Bool) {t : LSMTree K V} (pos : 0 < t.maxMemtableSize) :
    (checked = true ∧ 2 ^ 63 ≤ t.maxMemtableSize ∧ t.compact checked = none) ∨
      ¬(checked = true ∧ 2 ^ 63 ≤ t.maxMemtableSize) ∧
        ∃ t', t.compact checked = some t' ∧ t'.memtable = t.memtable ∧ Follows t t' fun _ => none := by
  unfold compact
  cases double : twice checked t.maxMemtableSize with
  | none =>
    obtain ⟨check, large⟩ := twice_eq_none_iff.1 double
    exact .inl ⟨check, large, rfl⟩
  | some limit =>
    have fits : ¬(checked = true ∧ 2 ^ 63 ≤ t.maxMemtableSize) := fun exceeds => by
      rw [twice_eq_none_iff.2 exceeds] at double
      cases double
    refine .inr ⟨fits, ?_⟩
    dsimp only
    split_ifs with large zero
    · omega
    · refine ⟨_, rfl, rfl, rfl, rfl, fun key => ?_⟩
      have whole := chunks_flatten pos (Nat.le_refl (merged t.sstables).entries.length)
      rw [Option.none_or, get_eq, get_eq, ← get_merged t.sstables]
      dsimp only
      rw [findSome?_parts]
      · rw [show (merged t.sstables).length = (merged t.sstables).entries.length from rfl, whole]
        rfl
      · rw [show (merged t.sstables).length = (merged t.sstables).entries.length from rfl, whole]
        exact (merged t.sstables).sorted
    · refine ⟨_, rfl, rfl, rfl, rfl, fun key => ?_⟩
      rw [Option.none_or, get_eq, get_eq, ← get_merged t.sstables]
      simp only [List.reverse_singleton, List.findSome?_singleton]

/-- The table in memory is put on the list. -/
def frozenTree (t : LSMTree K V) : LSMTree K V :=
  { t with memtable := .empty, sstables := t.sstables ++ [t.memtable] }

theorem follows_frozenTree (t : LSMTree K V) : Follows t t.frozenTree fun _ => none where
  size := rfl
  threshold := rfl
  get key := by
    unfold frozenTree
    rw [Option.none_or, get_eq, get_eq, SortedMap.get_empty, Option.none_or, List.reverse_append,
      List.findSome?_append, List.reverse_singleton, List.findSome?_singleton]

/-- What the build and the table size make of a fourth table: it panics, or it does not. -/
def Overflows (checked : Bool) (t : LSMTree K V) : Prop := checked = true ∧ 2 ^ 63 ≤ t.maxMemtableSize

/-- A flush moves entries and changes no value, unless it is one of a fourth table and the double overflows. -/
theorem flush_spec (checked : Bool) {t : LSMTree K V} (pos : 0 < t.maxMemtableSize)
    (used : t.memtable.entries.isEmpty = false) :
    (t.Overflows checked ∧ t.compactionThreshold ≤ t.sstables.length + 1 ∧ t.flush checked = none) ∨
      ¬(t.Overflows checked ∧ t.compactionThreshold ≤ t.sstables.length + 1) ∧
        ∃ t', t.flush checked = some t' ∧ t'.memtable = .empty ∧
          (t.Overflows checked → t'.sstables.length = t.sstables.length + 1) ∧ Follows t t' fun _ => none := by
  have step : t.flush checked =
      if t.compactionThreshold ≤ t.sstables.length + 1 then t.frozenTree.compact checked else some t.frozenTree := by
    simp [flush, used, frozenTree]
  rw [step]
  split_ifs with full
  · rcases compact_spec checked (t := t.frozenTree) pos with ⟨check, large, panic⟩ | ⟨fits, t', h, memtable, follows⟩
    · exact .inl ⟨⟨check, large⟩, full, panic⟩
    · exact .inr ⟨fun exceeds => fits exceeds.1, t', h, memtable, fun exceeds => absurd exceeds fits,
        t.follows_frozenTree.trans follows⟩
  · refine .inr ⟨fun exceeds => full exceeds.2, _, rfl, rfl, fun _ => ?_, t.follows_frozenTree⟩
    simp [frozenTree]

/-- A scan lists the values of the keys in the range, in order. -/
theorem rangeScan_ok (t : LSMTree K V) {start last : K} (h : start ≤ last) :
    ∃ l, t.rangeScan start last = some l ∧ KeysSorted l ∧
      ∀ key, l.lookup key = if start ≤ key ∧ key ≤ last then t.get key else none := by
  have part : ∀ m : SortedMap K V, ∃ l, m.range start last = some l ∧ KeysSorted l ∧
      ∀ key, l.lookup key = if start ≤ key ∧ key ≤ last then m.get key else none := by
    intro m
    refine ⟨_, if_pos h, m.sorted.filter _, fun key => ?_⟩
    rw [lookup_filter m.sorted fun k => start ≤ k && k ≤ last]
    simp [SortedMap.get]
  have folded : ∀ (older : List (SortedMap K V)) (results : SortedMap K V), ∃ m : SortedMap K V,
      older.foldlM (fun results sstable => do
        let part ← sstable.range start last
        return part.foldl (fun m e => m.insertIfAbsent e.1 e.2) results) results = some m ∧
      ∀ key, m.get key = (results.get key).or
        (if start ≤ key ∧ key ≤ last then older.findSome? fun s => s.get key else none) := by
    intro older
    induction older with
    | nil => exact fun results => ⟨results, rfl, fun key => by simp⟩
    | cons s rest ih =>
      intro results
      obtain ⟨l, hl, sorted, lookup⟩ := part s
      obtain ⟨m, hm, holds⟩ := ih (l.foldl (fun m e => m.insertIfAbsent e.1 e.2) results)
      refine ⟨m, ?_, fun key => ?_⟩
      · simp only [List.foldlM_cons, hl, Option.bind_eq_bind, Option.bind_some, Option.pure_def]
        exact hm
      · rw [holds, SortedMap.foldl_insertIfAbsent _ sorted, lookup, Option.or_assoc,
          List.findSome?_cons]
        congr 1
        split_ifs
        · cases s.get key <;> simp
        · rfl
  obtain ⟨own, hown, sorted, lookup⟩ := part t.memtable
  obtain ⟨m, hm, holds⟩ := folded t.sstables.reverse
    (own.foldl (fun m e => m.insert e.1 e.2) .empty)
  refine ⟨m.entries, ?_, m.sorted, fun key => ?_⟩
  · simp only [rangeScan, hown, Option.bind_eq_bind, Option.bind_some, Option.pure_def]
    simp only [Option.bind_eq_bind, Option.pure_def] at hm
    rw [hm]
    rfl
  · have held := holds key
    rw [SortedMap.foldl_insert _ sorted, lookup, SortedMap.get_empty, Option.or_none] at held
    rw [show m.entries.lookup key = m.get key from rfl, held, get_eq]
    split_ifs <;> simp

/-! ## Runs -/

/-- The keys of the table in memory. -/
def held (t : LSMTree K V) : Finset K := (t.memtable.entries.map Prod.fst).toFinset

theorem mem_held (t : LSMTree K V) (key : K) : key ∈ t.held ↔ (t.memtable.get key).isSome := by
  rw [held, List.mem_toFinset, List.mem_map]
  constructor
  · rintro ⟨⟨k, v⟩, mem, rfl⟩
    rw [SortedMap.get, (t.memtable.sorted.lookup_eq_some_iff).2 mem]
    rfl
  · intro h
    obtain ⟨v, found⟩ := Option.isSome_iff_exists.1 h
    exact ⟨(key, v), (t.memtable.sorted.lookup_eq_some_iff).1 found, rfl⟩

theorem card_held (t : LSMTree K V) : t.held.card = t.memtable.length := by
  have once : (t.memtable.entries.map Prod.fst).Nodup :=
    List.pairwise_map.2 (t.memtable.sorted.imp fun below => below.ne)
  rw [held, List.toFinset_card_of_nodup once, List.length_map]
  rfl

theorem held_insert (t : LSMTree K V) (key : K) (value : V) :
    held { t with memtable := t.memtable.insert key value } = Insert.insert key t.held := by
  ext k
  rw [mem_held, Finset.mem_insert, mem_held, SortedMap.get_insert]
  by_cases same : k = key <;> simp [same]

theorem held_eq_empty_iff (t : LSMTree K V) : t.held = ∅ ↔ t.memtable.entries.isEmpty = true := by
  rw [← Finset.card_eq_zero, card_held, List.isEmpty_iff]
  exact List.length_eq_zero_iff

/-- How many tables there are and how many more the calls will fill or flush. -/
def tables (t : LSMTree K V) (calls : List (Call K V)) : ℕ :=
  t.sstables.length + frozen t.maxMemtableSize t.held calls

/-- A call goes through and its tables are counted, or it panics over the table that it fills. -/
def Performs (checked : Bool) (t : LSMTree K V) (call : Call K V) : Prop :=
  (∃ t', t.perform checked call = some t' ∧ Follows t t' (lastInsert [call]) ∧
    (t.Overflows checked → (∀ calls, t'.tables calls = t.tables (call :: calls)) ∧
      (t.sstables.length < t.compactionThreshold → t'.sstables.length < t.compactionThreshold))) ∨
  t.Overflows checked ∧ t.perform checked call = none ∧
    ∀ calls, t.compactionThreshold ≤ t.tables (call :: calls)

/-- A call that flushes what it has made of the table in memory. -/
theorem performs_of_flush {checked : Bool} {t t₀ : LSMTree K V} {call : Call K V} (pos : 0 < t.maxMemtableSize)
    (put : Follows t t₀ (lastInsert [call])) (sstables : t₀.sstables = t.sstables)
    (used : t₀.memtable.entries.isEmpty = false)
    (more : ∀ calls, t.tables (call :: calls) = t.sstables.length + 1 + frozen t.maxMemtableSize ∅ calls)
    (runs : t.perform checked call = t₀.flush checked) : Performs checked t call := by
  have same : t₀.Overflows checked ↔ t.Overflows checked := by rw [Overflows, Overflows, put.size]
  unfold Performs
  rw [runs, ← same, ← put.threshold, ← sstables]
  rcases flush_spec checked (put.size ▸ pos) used with
    ⟨exceeds, full, panic⟩ | ⟨fits, t', h, memtable, longer, follows⟩
  · refine .inr ⟨exceeds, panic, fun calls => ?_⟩
    rw [more, ← sstables]
    exact full.trans (Nat.le_add_right _ _)
  · refine .inl ⟨t', h, put.trans follows, fun exceeds => ⟨fun calls => ?_, fun few => ?_⟩⟩
    · have gone : t'.held = ∅ := by
        rw [held_eq_empty_iff, memtable]
        rfl
      rw [more, tables, gone, longer exceeds, follows.size, put.size, sstables]
    · rw [longer exceeds]
      exact not_le.1 fun full => fits ⟨exceeds, full⟩

/-- A call changes the value of the inserted key only, and where the double overflows it merges no tables, or it
panics over a fourth one. -/
theorem perform_spec (checked : Bool) {t : LSMTree K V} (pos : 0 < t.maxMemtableSize) (call : Call K V) :
    Performs checked t call := by
  cases call with
  | flush =>
    cases used : t.memtable.entries.isEmpty with
    | true =>
      have none := t.held_eq_empty_iff.2 used
      refine .inl ⟨t, by simp [perform, flush, used], ⟨rfl, rfl, fun _ => rfl⟩, fun _ => ⟨fun calls => ?_, id⟩⟩
      simp [tables, frozen, none]
    | false =>
      have some : t.held ≠ ∅ := fun none => by
        rw [t.held_eq_empty_iff.1 none] at used
        cases used
      refine performs_of_flush pos ⟨rfl, rfl, fun _ => rfl⟩ rfl used (fun calls => ?_) rfl
      rw [tables, frozen, if_neg some]
      omega
  | insert k v =>
    let t₀ : LSMTree K V := { t with memtable := t.memtable.insert k v }
    have put : Follows t t₀ (lastInsert [.insert k v]) := by
      refine ⟨rfl, rfl, fun key => ?_⟩
      rw [get_eq, get_eq, SortedMap.get_insert]
      by_cases same : key = k
      · simp [lastInsert, same]
      · simp [lastInsert, same, Ne.symm same, t₀]
    have keys : t₀.held = Insert.insert k t.held := t.held_insert k v
    have size : t₀.memtable.length = (Insert.insert k t.held).card := by rw [← keys, card_held]
    have step : t.perform checked (.insert k v) =
        if t.maxMemtableSize ≤ t₀.memtable.length then t₀.flush checked else some t₀ := rfl
    by_cases full : t.maxMemtableSize ≤ t₀.memtable.length
    · have used : t₀.memtable.entries.isEmpty = false := by
        rw [Bool.eq_false_iff, Ne, ← held_eq_empty_iff, keys]
        exact Finset.insert_ne_empty k t.held
      refine performs_of_flush pos put rfl used (fun calls => ?_) (step.trans (if_pos full))
      rw [tables, frozen, if_pos (size ▸ full)]
      omega
    · refine .inl ⟨t₀, step.trans (if_neg full), put, fun _ => ⟨fun calls => ?_, id⟩⟩
      rw [tables, tables, frozen, if_neg (size ▸ full), keys]

theorem lastInsert_cons (call : Call K V) (calls : List (Call K V)) (key : K) :
    lastInsert (call :: calls) key = (lastInsert calls key).or (lastInsert [call] key) := by
  simp only [lastInsert, List.reverse_cons, List.findSome?_append, List.reverse_nil, List.nil_append]

/-- A run goes through, and the last insertions are found, or it panics over too many tables. -/
theorem foldlM_spec (checked : Bool) {t : LSMTree K V} (pos : 0 < t.maxMemtableSize)
    (few : t.Overflows checked → t.sstables.length < t.compactionThreshold) (calls : List (Call K V)) :
    (¬(t.Overflows checked ∧ t.compactionThreshold ≤ t.tables calls) ∧
      ∃ t', calls.foldlM (perform checked) t = some t' ∧
        ∀ key, t'.get key = (lastInsert calls key).or (t.get key)) ∨
    (t.Overflows checked ∧ t.compactionThreshold ≤ t.tables calls) ∧ calls.foldlM (perform checked) t = none := by
  induction calls generalizing t with
  | nil =>
    refine .inl ⟨fun exceeds => ?_, t, rfl, fun _ => rfl⟩
    exact absurd (few exceeds.1) (not_lt.2 exceeds.2)
  | cons call calls ih =>
    rw [List.foldlM_cons]
    rcases perform_spec checked pos call with ⟨t₁, first, follows, counts⟩ | ⟨exceeds, panic, full⟩
    · have same : t₁.Overflows checked ↔ t.Overflows checked := by rw [Overflows, Overflows, follows.size]
      have bad : t₁.Overflows checked ∧ t₁.compactionThreshold ≤ t₁.tables calls ↔
          t.Overflows checked ∧ t.compactionThreshold ≤ t.tables (call :: calls) := by
        rw [same, follows.threshold]
        exact and_congr_right fun exceeds => by rw [(counts exceeds).1]
      have few₁ : t₁.Overflows checked → t₁.sstables.length < t₁.compactionThreshold := fun exceeds => by
        rw [follows.threshold]
        exact (counts (same.1 exceeds)).2 (few (same.1 exceeds))
      rw [first, Option.bind_eq_bind, Option.bind_some, ← bad]
      rcases ih (t := t₁) (follows.size ▸ pos) few₁ with ⟨good, t', rest, got⟩ | panics
      · refine .inl ⟨good, t', rest, fun key => ?_⟩
        rw [got, follows.get, lastInsert_cons call calls, Option.or_assoc]
      · exact .inr panics
    · rw [panic]
      exact .inr ⟨⟨exceeds, full calls⟩, rfl⟩

theorem containsKey_of_get {t : LSMTree K V} {calls : List (Call K V)} (got : ∀ key, t.get key = lastInsert calls key)
    (key : K) : t.containsKey key = true ↔ ∃ value, Call.insert key value ∈ calls := by
  rw [containsKey_eq, got, lastInsert, List.isSome_findSome?, List.any_reverse, List.any_eq_true]
  constructor
  · rintro ⟨call, hcall, found⟩
    cases call with
    | flush => cases found
    | insert k v =>
      by_cases same : k = key
      · exact ⟨v, same ▸ hcall⟩
      · simp [same] at found
  · rintro ⟨v, hv⟩
    exact ⟨_, hv, by simp⟩

theorem rangeScan_of_get {t : LSMTree K V} {calls : List (Call K V)} (got : ∀ key, t.get key = lastInsert calls key)
    {start last : K} (le : start ≤ last) : ∃ l, t.rangeScan start last = some l ∧ KeysSorted l ∧
      ∀ key value, (key, value) ∈ l ↔ start ≤ key ∧ key ≤ last ∧ lastInsert calls key = some value := by
  obtain ⟨l, hl, sorted, lookup⟩ := t.rangeScan_ok le
  refine ⟨l, hl, sorted, fun key value => ?_⟩
  rw [← sorted.lookup_eq_some_iff, lookup, got]
  split_ifs with within
  · exact ⟨fun h => ⟨within.1, within.2, h⟩, fun h => h.2.2⟩
  · simp only [false_iff]
    exact fun h => within ⟨h.1, h.2.1⟩

/-- The tree is the map of the last insertions exactly when the build does not check for overflow, the table size is
below `2 ^ 63`, or fewer than four tables are filled or flushed. -/
theorem implementsMap_iff (checked : Bool) {maxMemtableSize : ℕ} (pos : 1 ≤ maxMemtableSize)
    (calls : List (Call K V)) :
    Implements checked maxMemtableSize calls ↔
      checked = false ∨ maxMemtableSize < 2 ^ 63 ∨ frozen maxMemtableSize ∅ calls < 4 := by
  have condition : (checked = false ∨ maxMemtableSize < 2 ^ 63 ∨ frozen maxMemtableSize ∅ calls < 4) ↔
      ¬((new maxMemtableSize : LSMTree K V).Overflows checked ∧ 4 ≤ (new maxMemtableSize).tables calls) := by
    have start : (new maxMemtableSize : LSMTree K V).tables calls = frozen maxMemtableSize ∅ calls := Nat.zero_add _
    rw [start, Overflows, not_and_or, not_and_or, not_le, not_le, Bool.not_eq_true, or_assoc]
    rfl
  rw [condition]
  rcases foldlM_spec checked (t := (new maxMemtableSize : LSMTree K V)) pos (fun _ => by decide : _ → 0 < 4) calls with
    ⟨good, t, run, got⟩ | ⟨bad, panics⟩
  · refine iff_of_true ?_ good
    have empty : ∀ key, (new maxMemtableSize : LSMTree K V).get key = none := fun _ => rfl
    replace got : ∀ key, t.get key = lastInsert calls key := fun key => by
      rw [got, empty, Option.or_none]
    exact ⟨t, run, got, containsKey_of_get got, fun start last le => rangeScan_of_get got le⟩
  · refine iff_of_false ?_ (not_not.2 bad)
    rintro ⟨t, run, -⟩
    rw [panics] at run
    cases run

/-- The fourth table starts a merge, whose result is cut into three tables of one entry each. -/
theorem implements_merged :
    Implements true 1 [Call.insert 1 10, .insert 2 20, .insert 1 11, .insert 3 30] :=
  (implementsMap_iff true (Nat.le_refl 1) _).2 (.inr (.inl (by decide)))

/-- Four tables of a tree with the largest size, in a build that checks for overflow. -/
theorem not_implementsMap : ¬ ∀ (checked : Bool) (maxMemtableSize : ℕ), 1 ≤ maxMemtableSize → maxMemtableSize < 2 ^ 64 →
    ∀ calls : List (Call ℕ ℕ), Implements checked maxMemtableSize calls := by
  intro h
  obtain ⟨t, run, -⟩ := h true (2 ^ 64 - 1) (by decide) (by decide)
    [.insert 1 1, .flush, .insert 2 2, .flush, .insert 3 3, .flush, .insert 4 4, .flush]
  have panics : [Call.insert 1 1, .flush, .insert 2 2, .flush, .insert 3 3, .flush, .insert 4 4, .flush].foldlM
      (perform true) (new (2 ^ 64 - 1) : LSMTree ℕ ℕ) = none := rfl
  rw [panics] at run
  cases run

end LSMTree

end TORdex
