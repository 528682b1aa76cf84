import TORdex.Core.Primitives
import TORdex.Core.Storage
import TORdex.Lib.FiniteMap
import TORdex.Lib.Runs

/-!
# Working memory

Entries with a time to live and a count of accesses.  The clock is read when an entry is created, and again
for every entry that is checked; the readings come with the calls, and so does the order in which the hash map
is drained.
-/

namespace TORdex

/-- An entry with its time to live and the count of its accesses. -/
structure WMEntry where
  key : String
  value : Json
  createdAt : OffsetDateTime
  /-- An `i64`. -/
  ttlSecs : ℤ
  accessCount : UInt64

namespace WMEntry

/-- An entry that has not been accessed. -/
def new (key : String) (value : Json) (ttlSecs : ℤ) (now : OffsetDateTime) : WMEntry :=
  ⟨key, value, now, ttlSecs, 0⟩

/-- The time of the entry is over. -/
def isExpired (now : OffsetDateTime) (e : WMEntry) : Bool :=
  if e.ttlSecs = 0 then false else wholeSeconds (now - e.createdAt) ≥ e.ttlSecs

end WMEntry

/-- An order in which a hash map is drained, for every content of it. -/
structure Drain where
  order : HashMap String WMEntry → List (Σ _ : String, WMEntry)
  order_eq : ∀ m, (order m : Multiset (Σ _ : String, WMEntry)) = m.entries

/-- The readings of the clock in a call of `set`: when the entry is created, and when the entry under a key is
checked. -/
structure SetReadings where
  created : OffsetDateTime
  checked : String → OffsetDateTime

/-- The entries by their keys, with the greatest number of them. -/
structure DefaultWorkingMemory where
  entries : HashMap String WMEntry
  capacity : ℕ
  defaultTtlSecs : ℤ

namespace DefaultWorkingMemory

/-- Without entries. -/
def withCapacity (capacity : ℕ) : DefaultWorkingMemory := ⟨∅, capacity, 300⟩

/-- The order in which `evict` sorts. -/
def byAccessCount (a b : Σ _ : String, WMEntry) : Bool := a.2.accessCount ≤ b.2.accessCount

/-- Drop the expired entries, and then those with the most accesses that are too many. -/
def evict (checked : String → OffsetDateTime) (drain : Drain) (m : DefaultWorkingMemory) :
    DefaultWorkingMemory :=
  let retained := FiniteMap.filter (fun e => !e.isExpired (checked e.key)) m.entries
  { m with
    entries :=
      if retained.entries.card > m.capacity then
        FiniteMap.collect (((drain.order retained).mergeSort byAccessCount).take m.capacity)
      else retained }

/-- `ttl_secs as i64`, or the default for zero. -/
def ttlOf (m : DefaultWorkingMemory) (ttlSecs : UInt64) : ℤ :=
  if ttlSecs = 0 then m.defaultTtlSecs else ttlSecs.toBitVec.toInt

/-- Set an entry, and evict. -/
def set (m : DefaultWorkingMemory) (key : String) (value : Json) (ttlSecs : UInt64) (now : SetReadings)
    (drain : Drain) : DefaultWorkingMemory :=
  evict now.checked drain
    { m with entries := m.entries.insert key (.new key value (m.ttlOf ttlSecs) now.created) }

/-- The value of a key, with its access counted; an expired entry is dropped. -/
def get (m : DefaultWorkingMemory) (key : String) (now : OffsetDateTime) :
    Option Json × DefaultWorkingMemory :=
  match m.entries.lookup key with
  | none => (none, m)
  | some entry =>
    if entry.isExpired now then (none, { m with entries := m.entries.erase key })
    else
      let accessed := { entry with accessCount := entry.accessCount + 1 }
      (some entry.value, { m with entries := m.entries.insert key accessed })

/-- Remove an entry, and tell whether there was one. -/
def remove (m : DefaultWorkingMemory) (key : String) : Bool × DefaultWorkingMemory :=
  ((m.entries.lookup key).isSome, { m with entries := m.entries.erase key })

end DefaultWorkingMemory

/-- A call, with what it takes from outside. -/
inductive WMCall where
  | set (key : String) (value : Json) (ttlSecs : UInt64) (now : SetReadings) (drain : Drain)
  | get (key : String) (now : OffsetDateTime)
  | remove (key : String)

/-- The effect of a call. -/
def DefaultWorkingMemory.step (m : DefaultWorkingMemory) : WMCall → DefaultWorkingMemory
  | .set key value ttlSecs now drain => m.set key value ttlSecs now drain
  | .get key now => (m.get key now).2
  | .remove key => (m.remove key).2

end TORdex

/-!
# Eviction from working memory

A memory never has more entries than its capacity, so a call of `set` is over it by at most one, and cuts off
the entry with the most accesses: the last one of these in the order in which the map is drained.
-/

namespace TORdex.DefaultWorkingMemory

variable {m : DefaultWorkingMemory} {key : String} {value : Json} {ttlSecs : UInt64} {now : SetReadings}
    {drain : Drain}
  {t : OffsetDateTime}

section Call

variable (m : DefaultWorkingMemory) (key : String) (value : Json) (ttlSecs : UInt64) (now : SetReadings)

/-- The entry that is set. -/
def newEntry : WMEntry := .new key value (m.ttlOf ttlSecs) now.created

/-- The entries before the eviction. -/
def stored : HashMap String WMEntry := m.entries.insert key (m.newEntry key value ttlSecs now)

/-- Those of them that are not expired when they are checked. -/
def unexpired : HashMap String WMEntry :=
  FiniteMap.filter (fun e => !e.isExpired (now.checked e.key)) (m.stored key value ttlSecs now)

/-- The other entries that are not expired. -/
def others : HashMap String WMEntry :=
  FiniteMap.filter (fun e => !e.isExpired (now.checked e.key)) (m.entries.erase key)

variable (drain : Drain)

/-- An entry that is there before the eviction and not after it. -/
def Evicted (k : String) (e : WMEntry) : Prop :=
  (m.stored key value ttlSecs now).lookup k = some e ∧
    (m.set key value ttlSecs now drain).entries.lookup k = none

/-- What is meant by keeping what matters, at an instant after a call of `set`. -/
structure KeepsWhatMatters (t : OffsetDateTime) : Prop where
  live : ((FiniteMap.values (m.set key value ttlSecs now drain).entries).filter
    fun e => !e.isExpired t).card ≤ m.capacity
  retrievable : ((m.set key value ttlSecs now drain).get key t).1 = some value
  evicted : ∀ k e, m.Evicted key value ttlSecs now drain k e →
    e.isExpired (now.checked e.key) ∨ (m.unexpired key value ttlSecs now).entries.card > m.capacity
  least : ∀ k e, m.Evicted key value ttlSecs now drain k e → k ≠ key →
    e.isExpired (now.checked e.key) = false →
    ∀ k' e', (m.set key value ttlSecs now drain).entries.lookup k' = some e' → k' ≠ key →
      e.accessCount ≤ e'.accessCount

/-- There is room for another entry, or the others have been accessed equally often, and not as rarely as the
new one or one of them is the last that is drained. -/
def Room : Prop :=
  (m.others key now).entries.card < m.capacity ∨
    ∃ count, (∀ k e, (m.others key now).lookup k = some e → e.accessCount = count) ∧
      (count ≠ 0 ∨ ((drain.order (m.unexpired key value ttlSecs now)).getLast?.map Sigma.fst ≠ some key))

end Call

/-! ## The size -/

section Size

/-- The entries of a map in the order in which they are sorted. -/
def sorted (drain : Drain) (entries : HashMap String WMEntry) : List (Σ _ : String, WMEntry) :=
  (drain.order entries).mergeSort byAccessCount

theorem coe_sorted (drain : Drain) (entries : HashMap String WMEntry) :
    (sorted drain entries : Multiset (Σ _ : String, WMEntry)) = entries.entries :=
  (Multiset.coe_eq_coe.2 (List.mergeSort_perm _ _)).trans (drain.order_eq entries)

theorem entries_collect_sorted (drain : Drain) (entries : HashMap String WMEntry) (n : ℕ) :
    (FiniteMap.collect ((sorted drain entries).take n)).entries = (sorted drain entries).take n := by
  refine FiniteMap.entries_collect ?_
  have keys : ((sorted drain entries).map Sigma.fst).Nodup := by
    have nodup := Multiset.nodup_keys.2 entries.nodupKeys
    rwa [← coe_sorted drain, Multiset.coe_keys] at nodup
  exact keys.sublist ((List.take_sublist n _).map _)

/-- The entries after a call of `set`. -/
theorem entries_set : (m.set key value ttlSecs now drain).entries =
    if (m.unexpired key value ttlSecs now).entries.card > m.capacity then
      FiniteMap.collect ((sorted drain (m.unexpired key value ttlSecs now)).take m.capacity)
    else m.unexpired key value ttlSecs now := rfl

theorem card_set_le : (m.set key value ttlSecs now drain).entries.entries.card ≤ m.capacity := by
  rw [entries_set]
  split_ifs with full
  · rw [entries_collect_sorted, Multiset.coe_card]
    exact List.length_take_le _ _
  · exact not_lt.1 full

/-- What a call of `get` does. -/
theorem get_cases (m : DefaultWorkingMemory) (key : String) (now : OffsetDateTime) :
    m.entries.lookup key = none ∧ m.get key now = (none, m) ∨
      ∃ e, m.entries.lookup key = some e ∧
        (e.isExpired now = true ∧ m.get key now = (none, { m with entries := m.entries.erase key }) ∨
          e.isExpired now = false ∧ m.get key now = (some e.value,
            { m with entries := m.entries.insert key { e with accessCount := e.accessCount + 1 } })) := by
  unfold get
  cases m.entries.lookup key with
  | none => exact .inl ⟨rfl, rfl⟩
  | some e =>
    refine .inr ⟨e, rfl, ?_⟩
    cases expired : e.isExpired now with
    | true => exact .inl ⟨rfl, by simp [expired]⟩
    | false => exact .inr ⟨rfl, by simp [expired]⟩

/-- A memory keeps its capacity, and has at most as many entries. -/
theorem card_step_le (h : m.entries.entries.card ≤ m.capacity) (call : WMCall) :
    (m.step call).entries.entries.card ≤ m.capacity ∧ (m.step call).capacity = m.capacity := by
  cases call with
  | set key value ttlSecs now drain => exact ⟨card_set_le, rfl⟩
  | remove key => exact ⟨(FiniteMap.card_erase_le _ _).trans h, rfl⟩
  | get key now =>
    rw [step]
    rcases get_cases m key now with ⟨-, same⟩ | ⟨e, found, ⟨-, same⟩ | ⟨-, same⟩⟩
    · rw [same]
      exact ⟨h, rfl⟩
    · rw [same]
      exact ⟨(FiniteMap.card_erase_le _ _).trans h, rfl⟩
    · rw [same]
      refine ⟨?_, rfl⟩
      rwa [FiniteMap.card_insert, ← FiniteMap.card_of_lookup found]

theorem card_le_of_reached {capacity : ℕ}
    (reached : Reached step (fun _ _ => True) (withCapacity capacity) m) :
    m.entries.entries.card ≤ m.capacity ∧ m.capacity = capacity := by
  refine reached.invariant
    (P := fun m => m.entries.entries.card ≤ m.capacity ∧ m.capacity = capacity) ⟨Nat.zero_le _, rfl⟩ ?_
  rintro m call ⟨small, same⟩ -
  obtain ⟨small', same'⟩ := card_step_le small call
  exact ⟨small'.trans_eq same'.symm, same'.trans same⟩

end Size

/-! ## A call that is over the capacity -/

section Full

theorem sorted_pairwise (drain : Drain) (entries : HashMap String WMEntry) :
    (sorted drain entries).Pairwise fun a b => a.2.accessCount ≤ b.2.accessCount := by
  refine (List.pairwise_mergeSort ?_ ?_ _).imp of_decide_eq_true
  · intro a b c first second
    exact decide_eq_true (UInt64.le_trans (of_decide_eq_true first) (of_decide_eq_true second))
  · intro a b
    rw [Bool.or_eq_true]
    exact (UInt64.le_total a.2.accessCount b.2.accessCount).imp (decide_eq_true ·) (decide_eq_true ·)

/-- Entries that have been accessed equally often stay in the order in which they are drained. -/
theorem sorted_eq {entries : HashMap String WMEntry} {count : UInt64}
    (h : ∀ e ∈ entries.entries, e.2.accessCount = count) :
    sorted drain entries = drain.order entries := by
  refine List.mergeSort_of_pairwise (List.pairwise_of_forall_mem_list fun a ha b hb => ?_)
  have same {e : Σ _ : String, WMEntry} (he : e ∈ drain.order entries) : e.2.accessCount = count :=
    h e (by rwa [← drain.order_eq, Multiset.mem_coe])
  rw [byAccessCount, same ha, same hb, decide_eq_true_iff]
  exact UInt64.le_refl count

/-- All entries but one are kept. -/
structure CutsOff (drain : Drain) (entries kept : HashMap String WMEntry) (cut : Σ _ : String, WMEntry) :
    Prop where
  entries_eq : entries.entries = cut ::ₘ kept.entries
  gone : kept.lookup cut.1 = none
  most : ∀ e ∈ kept.entries, e.2.accessCount ≤ cut.2.accessCount
  last : ∀ count, (∀ e ∈ entries.entries, e.2.accessCount = count) → (drain.order entries).getLast? = some cut

/-- One entry is cut off: one with the most accesses, and the last one of these. -/
theorem exists_cutsOff (drain : Drain) {entries : HashMap String WMEntry} {n : ℕ}
    (h : entries.entries.card = n + 1) :
    ∃ cut, CutsOff drain entries (FiniteMap.collect ((sorted drain entries).take n)) cut := by
  have length : (sorted drain entries).length = n + 1 := by rw [← Multiset.coe_card, coe_sorted, h]
  rcases List.eq_nil_or_concat (sorted drain entries) with empty | ⟨kept, cut, split⟩
  · rw [empty] at length
    cases length
  rw [List.concat_eq_append] at split
  have first : (sorted drain entries).take n = kept := by
    rw [split, List.length_append, List.length_singleton, Nat.add_right_cancel_iff] at length
    rw [split, ← length, List.take_left]
  have all : entries.entries = cut ::ₘ (FiniteMap.collect ((sorted drain entries).take n)).entries := by
    rw [entries_collect_sorted, first, ← coe_sorted drain, split, ← Multiset.coe_add, Multiset.coe_singleton,
      add_comm, Multiset.singleton_add]
  refine ⟨cut, all, ?_, ?_, ?_⟩
  · have keys := Multiset.nodup_keys.2 entries.nodupKeys
    rw [all, Multiset.keys, Multiset.map_cons, Multiset.nodup_cons] at keys
    rw [Option.eq_none_iff_forall_ne_some]
    intro e found
    exact keys.1 (Multiset.mem_map.2 ⟨_, Finmap.lookup_eq_some_iff.1 found, rfl⟩)
  · intro e mem
    rw [entries_collect_sorted, first, Multiset.mem_coe] at mem
    have order := sorted_pairwise drain entries
    rw [split, List.pairwise_append] at order
    exact order.2.2 e mem cut (List.mem_singleton_self cut)
  · intro count same
    rw [← sorted_eq same, split, List.getLast?_append, List.getLast?_singleton]
    rfl

theorem CutsOff.lookup_iff {entries kept : HashMap String WMEntry} {cut : Σ _ : String, WMEntry}
    (h : CutsOff drain entries kept cut) {k : String} {e : WMEntry} :
    entries.lookup k = some e ↔ (⟨k, e⟩ : Σ _ : String, WMEntry) = cut ∨ kept.lookup k = some e := by
  rw [Finmap.lookup_eq_some_iff, h.entries_eq, Multiset.mem_cons, Finmap.lookup_eq_some_iff]

end Full

/-! ## A call of `set` -/

section Set

theorem lookup_unexpired_iff {k : String} {e : WMEntry} :
    (m.unexpired key value ttlSecs now).lookup k = some e ↔
    (m.stored key value ttlSecs now).lookup k = some e ∧ e.isExpired (now.checked e.key) = false := by
  rw [unexpired, FiniteMap.lookup_filter, Option.filter_eq_some_iff]
  simp

theorem unexpired_eq (live : (m.newEntry key value ttlSecs now).isExpired (now.checked key) = false) :
    m.unexpired key value ttlSecs now = (m.others key now).insert key (m.newEntry key value ttlSecs now) := by
  refine FiniteMap.filter_insert_of_pos ?_
  change (!(m.newEntry key value ttlSecs now).isExpired (now.checked key)) = true
  rw [live]
  rfl

theorem lookup_others : (m.others key now).lookup key = none := by
  rw [others, FiniteMap.lookup_filter, Finmap.lookup_erase]
  rfl

/-- What is found after a call was not expired when it was checked. -/
theorem lookup_unexpired_of_lookup_set {k : String} {e : WMEntry}
    (h : (m.set key value ttlSecs now drain).entries.lookup k = some e) :
    (m.unexpired key value ttlSecs now).lookup k = some e := by
  rw [entries_set] at h
  split_ifs at h
  · rw [Finmap.lookup_eq_some_iff, entries_collect_sorted, Multiset.mem_coe] at h
    rw [Finmap.lookup_eq_some_iff, ← coe_sorted drain, Multiset.mem_coe]
    exact List.mem_of_mem_take h
  · exact h

/-- Under its key there is nothing but the new entry, which was not expired when it was checked. -/
theorem eq_newEntry_of_lookup_set {e : WMEntry}
    (h : (m.set key value ttlSecs now drain).entries.lookup key = some e) :
    e = m.newEntry key value ttlSecs now ∧ e.isExpired (now.checked key) = false := by
  obtain ⟨found, live⟩ := lookup_unexpired_iff.1 (lookup_unexpired_of_lookup_set h)
  rw [stored, Finmap.lookup_insert, Option.some.injEq] at found
  subst found
  exact ⟨rfl, live⟩

/-- The new entry is retrievable exactly if it is there and not expired. -/
theorem retrievable_iff : ((m.set key value ttlSecs now drain).get key t).1 = some value ↔
    (m.set key value ttlSecs now drain).entries.lookup key = some (m.newEntry key value ttlSecs now) ∧
      (m.newEntry key value ttlSecs now).isExpired t = false := by
  rcases get_cases (m.set key value ttlSecs now drain) key t with
    ⟨absent, got⟩ | ⟨e, found, ⟨expired, got⟩ | ⟨live, got⟩⟩
  · rw [got, absent]
    simp
  · obtain ⟨rfl, -⟩ := eq_newEntry_of_lookup_set found
    rw [got, expired]
    simp
  · obtain ⟨rfl, -⟩ := eq_newEntry_of_lookup_set found
    rw [got]
    exact iff_of_true rfl ⟨found, live⟩

/-- What is evicted although it is not expired is the entry that is cut off. -/
theorem evicted_iff {k : String} {e : WMEntry} :
    m.Evicted key value ttlSecs now drain k e ∧ e.isExpired (now.checked e.key) = false ↔
      (m.unexpired key value ttlSecs now).lookup k = some e ∧
        (m.set key value ttlSecs now drain).entries.lookup k = none := by
  rw [lookup_unexpired_iff, Evicted]
  exact and_right_comm

theorem live_le :
    ((FiniteMap.values (m.set key value ttlSecs now drain).entries).filter fun e => !e.isExpired t).card ≤
      m.capacity := by
  refine (Multiset.card_le_card (Multiset.filter_le _ _)).trans ?_
  rw [FiniteMap.values, Multiset.card_map]
  exact card_set_le

/-- Below the capacity everything that is not expired stays. -/
theorem keepsWhatMatters_iff_of_not_full
    (room : ¬(m.unexpired key value ttlSecs now).entries.card > m.capacity)
    (live : (m.newEntry key value ttlSecs now).isExpired (now.checked key) = false) :
    m.KeepsWhatMatters key value ttlSecs now drain t ↔
      (m.newEntry key value ttlSecs now).isExpired t = false := by
  have same : (m.set key value ttlSecs now drain).entries = m.unexpired key value ttlSecs now := by
    rw [entries_set, if_neg room]
  have stays (k : String) (e : WMEntry) (evicted : m.Evicted key value ttlSecs now drain k e) :
      e.isExpired (now.checked e.key) ≠ false := by
    intro unexpired
    obtain ⟨found, gone⟩ := evicted_iff.1 ⟨evicted, unexpired⟩
    rw [same, found] at gone
    cases gone
  constructor
  · exact fun keeps => (retrievable_iff.1 keeps.retrievable).2
  · intro later
    refine ⟨live_le, ?_, ?_, ?_⟩
    · rw [retrievable_iff, same, unexpired_eq live, Finmap.lookup_insert]
      exact ⟨rfl, later⟩
    · exact fun k e evicted => .inl (Bool.not_eq_false _ ▸ stays k e evicted)
    · exact fun k e evicted _ unexpired => absurd unexpired (stays k e evicted)

theorem lookup_others_iff (live : (m.newEntry key value ttlSecs now).isExpired (now.checked key) = false)
    {k : String} {e : WMEntry} : (m.others key now).lookup k = some e ↔
      k ≠ key ∧ (m.unexpired key value ttlSecs now).lookup k = some e := by
  rw [unexpired_eq live]
  by_cases same : k = key
  · rw [same, lookup_others]
    simp
  · rw [Finmap.lookup_insert_of_ne _ same, and_iff_right same]

theorem lookup_unexpired_self
    (live : (m.newEntry key value ttlSecs now).isExpired (now.checked key) = false) :
    (m.unexpired key value ttlSecs now).lookup key = some (m.newEntry key value ttlSecs now) := by
  rw [unexpired_eq live, Finmap.lookup_insert]

section Cut

variable {cut : Σ _ : String, WMEntry}
  (live : (m.newEntry key value ttlSecs now).isExpired (now.checked key) = false)
  (cuts : CutsOff drain (m.unexpired key value ttlSecs now) (m.set key value ttlSecs now drain).entries cut)

include live cuts

/-- The entry that is cut off decides whether a call over the capacity keeps what matters. -/
theorem keepsWhatMatters_iff_of_cut (full : (m.unexpired key value ttlSecs now).entries.card > m.capacity) :
    m.KeepsWhatMatters key value ttlSecs now drain t ↔ cut.1 ≠ key ∧
      (m.newEntry key value ttlSecs now).isExpired t = false ∧
      ∀ k e, (m.others key now).lookup k = some e → cut.2.accessCount ≤ e.accessCount := by
  constructor
  · intro keeps
    obtain ⟨found, later⟩ := retrievable_iff.1 keeps.retrievable
    have ne : cut.1 ≠ key := by
      intro same
      have gone := cuts.gone
      rw [same, found] at gone
      cases gone
    obtain ⟨evicted, unexpired⟩ := evicted_iff.2 ⟨cuts.lookup_iff.2 (.inl rfl), cuts.gone⟩
    refine ⟨ne, later, fun k e other => ?_⟩
    obtain ⟨ne', inside⟩ := (lookup_others_iff live).1 other
    rcases cuts.lookup_iff.1 inside with same | kept
    · rw [← same]
      exact UInt64.le_refl _
    · exact keeps.least cut.1 cut.2 evicted ne unexpired k e kept ne'
  · rintro ⟨ne, later, least⟩
    refine ⟨live_le, retrievable_iff.2 ⟨?_, later⟩, fun k e _ => .inr full,
      fun k e evicted _ unexpired k' e' kept ne' => ?_⟩
    · have inside := lookup_unexpired_self live
      exact (cuts.lookup_iff.1 inside).resolve_left fun same => ne (same ▸ rfl)
    · obtain ⟨inside, away⟩ := evicted_iff.1 ⟨evicted, unexpired⟩
      have same : (⟨k, e⟩ : Σ _ : String, WMEntry) = cut :=
        (cuts.lookup_iff.1 inside).resolve_right fun kept => by
          rw [kept] at away
          cases away
      have least := least k' e' ((lookup_others_iff live).2 ⟨ne', cuts.lookup_iff.2 (.inr kept)⟩)
      rwa [← same] at least

theorem accessCount_le_cut {k : String} {e : WMEntry} (other : (m.others key now).lookup k = some e) :
    e.accessCount ≤ cut.2.accessCount := by
  rcases cuts.lookup_iff.1 ((lookup_others_iff live).1 other).2 with same | kept
  · rw [← same]
    exact UInt64.le_refl _
  · exact cuts.most _ (Finmap.lookup_eq_some_iff.1 kept)

/-- Where nothing has been accessed, the entry that is drained last is cut off. -/
theorem last_of_unaccessed (zero : ∀ k e, (m.others key now).lookup k = some e → e.accessCount = 0) :
    (drain.order (m.unexpired key value ttlSecs now)).getLast?.map Sigma.fst = some cut.1 := by
  refine congrArg (Option.map Sigma.fst) (cuts.last 0 fun e mem => ?_)
  have found := Finmap.lookup_eq_some_iff.2 mem
  by_cases same : e.1 = key
  · rw [same, lookup_unexpired_self live, Option.some.injEq] at found
    rw [← found]
    rfl
  · exact zero e.1 e.2 ((lookup_others_iff live).2 ⟨same, found⟩)

/-- The new entry is cut off only if nothing has been accessed. -/
theorem accessCount_eq_zero_of_cut (same : cut.1 = key) {k : String} {e : WMEntry}
    (other : (m.others key now).lookup k = some e) : e.accessCount = 0 := by
  have found : (m.unexpired key value ttlSecs now).lookup cut.1 = some cut.2 := cuts.lookup_iff.2 (.inl rfl)
  rw [same, lookup_unexpired_self live, Option.some.injEq] at found
  have le : e.accessCount ≤ 0 := by
    refine UInt64.le_trans (accessCount_le_cut live cuts other) ?_
    rw [← found]
    exact UInt64.le_refl 0
  exact UInt64.le_zero_iff.1 le

/-- The entry that is cut off is another one than the new one, and has been accessed as rarely as the others,
if there is room. -/
theorem room_iff_of_cut (pos : 1 ≤ m.capacity) (full : ¬(m.others key now).entries.card < m.capacity) :
    (cut.1 ≠ key ∧ ∀ k e, (m.others key now).lookup k = some e → cut.2.accessCount ≤ e.accessCount) ↔
      m.Room key value ttlSecs now drain := by
  constructor
  · rintro ⟨ne, least⟩
    have equal (k : String) (e : WMEntry) (other : (m.others key now).lookup k = some e) :
        e.accessCount = cut.2.accessCount :=
      UInt64.le_antisymm (accessCount_le_cut live cuts other) (least k e other)
    refine .inr ⟨cut.2.accessCount, equal, ?_⟩
    by_cases zero : cut.2.accessCount = 0
    · refine .inr ?_
      rw [last_of_unaccessed live cuts fun k e other => (equal k e other).trans zero, ne_eq,
        Option.some.injEq]
      exact ne
    · exact .inl zero
  · rintro (room | ⟨count, equal, away⟩)
    · exact absurd room full
    have ne : cut.1 ≠ key := by
      intro same
      have zero (k : String) (e : WMEntry) (other : (m.others key now).lookup k = some e) :
          e.accessCount = 0 :=
        accessCount_eq_zero_of_cut live cuts same other
      obtain ⟨⟨k, e⟩, mem⟩ :=
        Multiset.card_pos_iff_exists_mem.1 (show 0 < (m.others key now).entries.card by omega)
      have other := Finmap.lookup_eq_some_iff.2 mem
      rcases away with accessed | away
      · exact accessed ((equal k e other).symm.trans (zero k e other))
      · exact away ((last_of_unaccessed live cuts zero).trans (congrArg some same))
    refine ⟨ne, fun k e other => ?_⟩
    have inside : (m.unexpired key value ttlSecs now).lookup cut.1 = some cut.2 :=
      cuts.lookup_iff.2 (.inl rfl)
    rw [equal k e other, equal cut.1 cut.2 ((lookup_others_iff live).2 ⟨ne, inside⟩)]
    exact UInt64.le_refl _

end Cut

theorem keepsWhatMatters_iff_of_card_le (pos : 1 ≤ m.capacity) (small : m.entries.entries.card ≤ m.capacity) :
    m.KeepsWhatMatters key value ttlSecs now drain t ↔
      ((m.newEntry key value ttlSecs now).isExpired (now.checked key) = false ∧
        (m.newEntry key value ttlSecs now).isExpired t = false) ∧ m.Room key value ttlSecs now drain := by
  cases live : (m.newEntry key value ttlSecs now).isExpired (now.checked key) with
  | true =>
    refine iff_of_false (fun keeps => ?_) (by simp)
    have found := (retrievable_iff.1 keeps.retrievable).1
    exact absurd (live.symm.trans (eq_newEntry_of_lookup_set found).2) (by decide)
  | false =>
    have size : (m.unexpired key value ttlSecs now).entries.card = (m.others key now).entries.card + 1 := by
      rw [unexpired_eq live, FiniteMap.card_insert, FiniteMap.erase_of_lookup_eq_none lookup_others]
    have fewer : (m.others key now).entries.card ≤ m.capacity :=
      ((Multiset.card_le_card (Multiset.filter_le _ _)).trans
        (FiniteMap.card_erase_le m.entries key)).trans small
    by_cases room : (m.others key now).entries.card < m.capacity
    · rw [keepsWhatMatters_iff_of_not_full (by omega) live, and_iff_right rfl, and_iff_left (.inl room)]
    · have full : (m.unexpired key value ttlSecs now).entries.card = m.capacity + 1 := by omega
      obtain ⟨cut, cuts⟩ := exists_cutsOff drain full
      have after : (m.set key value ttlSecs now drain).entries =
          FiniteMap.collect ((sorted drain (m.unexpired key value ttlSecs now)).take m.capacity) := by
        rw [entries_set, if_pos (by omega)]
      rw [← after] at cuts
      rw [keepsWhatMatters_iff_of_cut live cuts (by omega), ← room_iff_of_cut live cuts pos room,
        and_iff_right rfl]
      exact and_left_comm

/-- **Working memory keeps what matters** after a call exactly if the new entry is not expired and there is
room for it. -/
theorem keepsWhatMatters_iff {capacity : ℕ} (pos : 1 ≤ capacity)
    (reached : Reached step (fun _ _ => True) (withCapacity capacity) m) (key : String) (value : Json)
    (ttlSecs : UInt64) (now : SetReadings) (drain : Drain) (t : OffsetDateTime) :
    m.KeepsWhatMatters key value ttlSecs now drain t ↔
      ((m.newEntry key value ttlSecs now).isExpired (now.checked key) = false ∧
        (m.newEntry key value ttlSecs now).isExpired t = false) ∧ m.Room key value ttlSecs now drain := by
  obtain ⟨small, rfl⟩ := card_le_of_reached reached
  exact keepsWhatMatters_iff_of_card_le pos small

/-- The entries in the order of their keys. -/
def drainByKey : Drain where
  order m := (sortTexts m.keys).filterMap fun k => (m.lookup k).map fun e => ⟨k, e⟩
  order_eq m := FiniteMap.filterMap_lookup (Finset.sort_eq m.keys _)

/-- All readings are zero. -/
def atZero : SetReadings := ⟨0, fun _ => 0⟩

/-- A full memory whose entries have been accessed equally often. -/
def accessedBoth : DefaultWorkingMemory :=
  [WMCall.set "a" .null 60 atZero drainByKey, .set "b" .null 60 atZero drainByKey, .get "b" 0, .get "a" 0].foldl step
    (withCapacity 2)

/-- A third entry takes the place of one of them. -/
theorem keepsWhatMatters_first : (accessedBoth.unexpired "c" .null 60 atZero).entries.card = 3 ∧
    accessedBoth.KeepsWhatMatters "c" .null 60 atZero drainByKey 0 := by
  have reached : Reached step (fun _ _ => True) (withCapacity 2) accessedBoth := reached_foldl _ _ _
  have counts : (accessedBoth.others "c" atZero).entries.map (·.2.accessCount) = .replicate 2 1 := by decide +kernel
  refine ⟨by decide +kernel, (keepsWhatMatters_iff (by decide) reached "c" .null 60 atZero drainByKey 0).2
    ⟨⟨by decide, by decide⟩, .inr ⟨1, fun k e found => ?_, .inl (by decide)⟩⟩⟩
  have listed := Multiset.mem_map_of_mem (·.2.accessCount) (Finmap.lookup_eq_some_iff.1 found)
  exact Multiset.eq_of_mem_replicate (counts ▸ listed)

/-- Two entries, of which one has been accessed. -/
def accessedOnce : DefaultWorkingMemory :=
  ((((withCapacity 2).set "a" .null 60 atZero drainByKey).set "b" .null 60 atZero drainByKey).get "a" 0).2

/-- A third entry takes the place of the one that has been accessed, whatever the order in which the map is
drained. -/
theorem not_keepsWhatMatters : Reached step (fun _ _ => True) (withCapacity 2) accessedOnce ∧
    ∀ drain, ¬accessedOnce.KeepsWhatMatters "c" .null 60 atZero drain 0 := by
  have reached : Reached step (fun _ _ => True) (withCapacity 2) accessedOnce :=
    (((Reached.start step _ _).next (a := .set "a" .null 60 atZero drainByKey) trivial).next
      (a := .set "b" .null 60 atZero drainByKey) trivial).next (a := .get "a" 0) trivial
  refine ⟨reached, fun drain keeps => ?_⟩
  have room := ((keepsWhatMatters_iff_of_card_le (by decide) (by decide)).1 keeps).2
  have a : (accessedOnce.others "c" atZero).lookup "a" =
      some { WMEntry.new "a" .null 60 0 with accessCount := 1 } := rfl
  have b : (accessedOnce.others "c" atZero).lookup "b" = some (.new "b" .null 60 0) := rfl
  rcases room with room | ⟨count, equal, -⟩
  · exact absurd room (by decide)
  · exact absurd ((equal "a" _ a).trans (equal "b" _ b).symm) (by decide)

end Set

end TORdex.DefaultWorkingMemory
