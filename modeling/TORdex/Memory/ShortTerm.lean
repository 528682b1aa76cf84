import TORdex.Core.Primitives
import TORdex.Core.Storage
import TORdex.Core.Ulid

/-!
# Short-term memory

Entries are values on a Redis server, and a sorted set there has their ids, with the milliseconds of the ids
as scores.  A recall asks the set for the ids between two scores, as many as the limit allows, reads the
entries and drops those that do not fit the query.  Values do not expire here, and the server always answers.
-/

namespace TORdex

/-! ## The server -/

/-- How a sorted set lists its members: by their scores, and in some order among equal ones. -/
structure ScoreOrder where
  list : HashMap String ℤ → List String
  nodup : ∀ set, (list set).Nodup
  mem_list : ∀ set member, member ∈ list set ↔ member ∈ set
  sorted : ∀ set, (list set).Pairwise fun a b => ∀ x ∈ set.lookup a, ∀ y ∈ set.lookup b, x ≤ y

/-- The values and the sorted sets of a server.  The scores used are whole numbers that a float has exactly. -/
structure Redis where
  values : HashMap String String
  sets : HashMap String (HashMap String ℤ)

namespace Redis

/-- A server without values and sets. -/
def empty : Redis := ⟨∅, ∅⟩

/-- The sorted set of a key; one that is missing is empty. -/
def set (r : Redis) (key : String) : HashMap String ℤ := (r.sets.lookup key).getD ∅

/-- `SETEX`. -/
def setEx (r : Redis) (key value : String) : Redis := { r with values := r.values.insert key value }

/-- `GET`. -/
def get (r : Redis) (key : String) : Option String := r.values.lookup key

/-- `ZADD`. -/
def zadd (r : Redis) (key member : String) (score : ℤ) : Redis :=
  { r with sets := r.sets.insert key ((r.set key).insert member score) }

/-- A rank in a set of a given size; a negative one counts from the end. -/
def rank (size : ℕ) (i : ℤ) : ℤ := if i < 0 then size + i else i

/-- `ZREMRANGEBYRANK`. -/
def zremrangebyrank (o : ScoreOrder) (r : Redis) (key : String) (start stop : ℤ) : Redis :=
  let members := o.list (r.set key)
  let removed := (members.take (rank members.length stop + 1).toNat).drop (rank members.length start).toNat
  { r with sets := r.sets.insert key (removed.foldl (fun set member => set.erase member) (r.set key)) }

/-- `ZRANGEBYSCORE` with `LIMIT`.  A negative count stands for all members. -/
def zrangebyscoreLimit (o : ScoreOrder) (r : Redis) (key : String) (low high : ℤ) (offset : ℕ) (count : ℤ) :
    List String :=
  let between := (o.list (r.set key)).filter fun member =>
    ((r.set key).lookup member).any fun score => low ≤ score && score ≤ high
  if count < 0 then between.drop offset else (between.drop offset).take count.toNat

@[simp] theorem set_zadd (r : Redis) (key member : String) (score : ℤ) :
    (r.zadd key member score).set key = (r.set key).insert member score := by
  simp [set, zadd, Finmap.lookup_insert]

@[simp] theorem get_setEx (r : Redis) (key value : String) : (r.setEx key value).get key = some value :=
  Finmap.lookup_insert _

theorem get_setEx_of_ne (r : Redis) {key other : String} (value : String) (ne : other ≠ key) :
    (r.setEx key value).get other = r.get other :=
  Finmap.lookup_insert_of_ne _ ne

/-- Nothing is removed from a set that is small enough. -/
theorem set_zremrangebyrank (o : ScoreOrder) (r : Redis) (key : String) {capacity : ℕ}
    (small : (o.list (r.set key)).length ≤ capacity) :
    (r.zremrangebyrank o key 0 (-(capacity + 1))).set key = r.set key := by
  have stop : (rank (o.list (r.set key)).length (-(capacity + 1)) + 1).toNat = 0 := by
    unfold rank
    rw [if_pos (by omega)]
    omega
  simp only [zremrangebyrank, stop, List.take_zero, List.drop_nil, List.foldl_nil]
  unfold set
  rw [Finmap.lookup_insert, Option.getD_some]

end Redis

/-! ## The memory -/

/-- An entry of the memory. -/
structure STMEntry where
  id : Ulid
  kind : String
  content : Json
  context : HashMap String String
  createdAt : OffsetDateTime
  accessCount : UInt64
  importance : F64

/-- What a recall asks for. -/
structure STMQuery where
  kinds : Option (List String)
  since : Option OffsetDateTime
  untilAt : Option OffsetDateTime
  limit : UInt64
  minImportance : F64

namespace STMQuery

/-- A query without restrictions but a limit. -/
def default : STMQuery := ⟨none, none, none, 100, .finite ⟨false, 0, 0⟩⟩

/-- The lower time bound as a score: `unix_timestamp` has whole seconds. -/
def minScore (q : STMQuery) : ℤ := (q.since.map fun t => t / 10 ^ 9 * 1000).getD (-10 ^ 18)

/-- The upper bound, likewise. -/
def maxScore (q : STMQuery) : ℤ := (q.untilAt.map fun t => t / 10 ^ 9 * 1000).getD (10 ^ 18)

/-- What is asked of an entry that has been read. -/
def accepts (q : STMQuery) (e : STMEntry) : Bool :=
  q.minImportance.le e.importance &&
    match q.kinds with
    | some kinds => kinds.contains e.kind || kinds.isEmpty
    | none => true

end STMQuery

/-- How `serde_json` writes entries and reads them.  An id, which is written as a string, is read back; the rest
need not be, as not every float is read as it was written.  Some entries are not read at all, as those whose
importance is no number or whose content is nested too deeply. -/
structure EntrySerde where
  toString : STMEntry → Except String String
  fromStr : String → Except String STMEntry
  id_fromStr : ∀ e json e', toString e = .ok json → fromStr json = .ok e' → e'.id = e.id

/-- What is read back of an entry. -/
def EntrySerde.back (serde : EntrySerde) (e : STMEntry) : Option STMEntry :=
  (serde.toString e).toOption.bind fun json => (serde.fromStr json).toOption

/-- What a stored entry adds to the answer. -/
def STMQuery.recalled (q : STMQuery) (serde : EntrySerde) (e : STMEntry) : Option STMEntry :=
  (serde.back e).filter q.accepts

/-- `timestamp_ms`. -/
def Ulid.timestampMs (id : Ulid) : ℕ := id.value / 2 ^ 80

/-- The memory, without its connection. -/
structure RedisShortTermMemory where
  keyPrefix : String
  capacity : ℕ

namespace RedisShortTermMemory

/-- The only constructor. -/
def new : RedisShortTermMemory := ⟨"tordex:stm:", 10000⟩

/-- The key of an entry. -/
def entryKey (m : RedisShortTermMemory) (id : Ulid) : String := m.keyPrefix ++ "entry:" ++ id.toString

/-- The key of the sorted set. -/
def indexKey (m : RedisShortTermMemory) : String := m.keyPrefix ++ "index"

variable (o : ScoreOrder) (serde : EntrySerde) (m : RedisShortTermMemory)

/-- Writes an entry, adds its id to the index, and removes the oldest ids over the capacity. -/
def store (e : STMEntry) (r : Redis) : Except String Ulid × Redis :=
  match serde.toString e with
  | .error message => (.error message, r)
  | .ok json =>
    let r := r.setEx (m.entryKey e.id) json
    let r := r.zadd m.indexKey e.id.toString e.id.timestampMs
    let r := r.zremrangebyrank o m.indexKey 0 (-(m.capacity + 1))
    (.ok e.id, r)

/-- A run of calls of `store`. -/
def storeAll (run : List STMEntry) (r : Redis) : Redis :=
  run.foldl (fun r e => (m.store o serde e r).2) r

/-- One round of the loop over the ids. -/
def recallOne (q : STMQuery) (r : Redis) (member : String) : Option STMEntry :=
  match Ulid.fromString member with
  | none => none
  | some id =>
    match r.get (m.entryKey id) with
    | none => none
    | some json =>
      match serde.fromStr json with
      | .error _ => none
      | .ok e => if q.accepts e then some e else none

/-- `recall`. -/
def recallBy (q : STMQuery) (r : Redis) : Except String (List STMEntry) :=
  let ids := r.zrangebyscoreLimit o m.indexKey q.minScore q.maxScore 0 q.limit.toBitVec.toInt
  .ok (ids.filterMap (m.recallOne serde q r))

end RedisShortTermMemory

/-! ## What a recall is meant to return -/

/-- An entry that can be written replaces the one under its id. -/
def keep (serde : EntrySerde) (stored : HashMap Ulid STMEntry) (e : STMEntry) : HashMap Ulid STMEntry :=
  if (serde.toString e).isOk then stored.insert e.id e else stored

/-- The entries a run of `store` leaves. -/
def storedBy (serde : EntrySerde) (run : List STMEntry) : HashMap Ulid STMEntry := run.foldl (keep serde) ∅

/-- What the query asks of an entry. -/
def STMQuery.Matches (q : STMQuery) (e : STMEntry) : Prop :=
  q.accepts e = true ∧ (∀ t ∈ q.since, t ≤ e.createdAt) ∧ ∀ t ∈ q.untilAt, e.createdAt ≤ t

/-- The answer is the beginning of a list of the matching entries by their creation. -/
def STMQuery.Earliest (q : STMQuery) (stored : HashMap Ulid STMEntry)
    (answer : Except String (List STMEntry)) : Prop :=
  ∃ l : List STMEntry, l.Nodup ∧ (∀ e, e ∈ l ↔ stored.lookup e.id = some e ∧ q.Matches e) ∧
    l.Pairwise (fun a b => a.createdAt ≤ b.createdAt) ∧ answer = .ok (l.take q.limit.toNat)

/-- Between the bounds of a query in whole seconds. -/
def STMQuery.inWindow (q : STMQuery) (e : STMEntry) : Bool :=
  q.minScore ≤ e.id.timestampMs && e.id.timestampMs ≤ q.maxScore

namespace RedisShortTermMemory

/-- The stored entry whose id is a member of the index. -/
def named (stored : HashMap Ulid STMEntry) (member : String) : Option STMEntry :=
  (Ulid.fromString member).bind fun id => stored.lookup id

/-- The stored entries in the order of the index. -/
def listing (o : ScoreOrder) (m : RedisShortTermMemory) (r : Redis) (stored : HashMap Ulid STMEntry) :
    List STMEntry :=
  (o.list (r.set m.indexKey)).filterMap (named stored)

/-- The entries that come first between the bounds in whole seconds, whatever else the query asks. -/
def leading (o : ScoreOrder) (m : RedisShortTermMemory) (r : Redis) (stored : HashMap Ulid STMEntry)
    (q : STMQuery) : List STMEntry :=
  ((m.listing o r stored).filter q.inWindow).take q.limit.toNat

/-- The server holds the stored entries. -/
structure Holds (serde : EntrySerde) (m : RedisShortTermMemory) (stored : HashMap Ulid STMEntry) (r : Redis) :
    Prop where
  keyed : ∀ id e, stored.lookup id = some e → e.id = id
  index : ∀ member score, (r.set m.indexKey).lookup member = some score ↔
    ∃ e, stored.lookup e.id = some e ∧ e.id.toString = member ∧ (e.id.timestampMs : ℤ) = score
  value : ∀ e, stored.lookup e.id = some e →
    ∃ json, serde.toString e = .ok json ∧ r.get (m.entryKey e.id) = some json

theorem named_toString {stored : HashMap Ulid STMEntry} {e : STMEntry} (there : stored.lookup e.id = some e) :
    named stored e.id.toString = some e := by
  rw [named, Ulid.fromString_toString]
  exact there

theorem capacity_new_lt : new.capacity < 2 ^ 63 := by norm_num [new]

theorem entryKey_injective (m : RedisShortTermMemory) : Function.Injective m.entryKey := by
  intro a b same
  exact Ulid.toString_injective (String.append_right_inj _ |>.1 same)

section Holds

variable {o : ScoreOrder} {serde : EntrySerde} {m : RedisShortTermMemory} {stored : HashMap Ulid STMEntry}
  {r : Redis} (holds : Holds serde m stored r)

include holds

theorem Holds.mem_list {member : String} :
    member ∈ o.list (r.set m.indexKey) ↔ ∃ e, stored.lookup e.id = some e ∧ e.id.toString = member := by
  rw [o.mem_list, ← Finmap.lookup_isSome, Option.isSome_iff_exists]
  constructor
  · rintro ⟨score, found⟩
    obtain ⟨e, there, name, -⟩ := (holds.index member score).1 found
    exact ⟨e, there, name⟩
  · rintro ⟨e, there, name⟩
    exact ⟨e.id.timestampMs, (holds.index member _).2 ⟨e, there, name, rfl⟩⟩

/-- The index lists the ids of the stored entries. -/
theorem Holds.list_eq : o.list (r.set m.indexKey) = (m.listing o r stored).map fun e => e.id.toString := by
  have decoded : ∀ l : List String, (∀ member ∈ l, member ∈ o.list (r.set m.indexKey)) →
      (l.filterMap (named stored)).map (fun e => e.id.toString) = l := by
    intro l listed
    induction l with
    | nil => rfl
    | cons member l ih =>
      obtain ⟨e, there, rfl⟩ := holds.mem_list.1 (listed member List.mem_cons_self)
      rw [List.filterMap_cons_some (named_toString there), List.map_cons,
        ih fun x hx => listed x (List.mem_cons_of_mem _ hx)]
  exact (decoded _ fun _ h => h).symm

theorem Holds.mem_listing {e : STMEntry} : e ∈ m.listing o r stored ↔ stored.lookup e.id = some e := by
  unfold listing
  rw [List.mem_filterMap]
  constructor
  · rintro ⟨member, -, found⟩
    obtain ⟨id, -, there⟩ := Option.bind_eq_some_iff.1 found
    rwa [holds.keyed id e there]
  · intro there
    exact ⟨e.id.toString, holds.mem_list.2 ⟨e, there, rfl⟩, named_toString there⟩

theorem Holds.nodup_listing : (m.listing o r stored).Nodup := by
  have nodup := o.nodup (r.set m.indexKey)
  rw [holds.list_eq] at nodup
  exact nodup.of_map _

theorem Holds.length_list : (o.list (r.set m.indexKey)).length ≤ stored.keys.card := by
  have nodup := o.nodup (r.set m.indexKey)
  rw [holds.list_eq, ← Function.comp_def Ulid.toString STMEntry.id, ← List.map_map] at nodup
  rw [holds.list_eq, List.length_map, ← List.length_map STMEntry.id,
    ← List.toFinset_card_of_nodup (nodup.of_map _)]
  refine Finset.card_le_card fun id hid => ?_
  obtain ⟨e, listed, rfl⟩ := List.mem_map.1 (List.mem_toFinset.1 hid)
  rw [Finmap.mem_keys, ← Finmap.lookup_isSome, holds.mem_listing.1 listed]
  rfl

theorem Holds.sorted_listing :
    (m.listing o r stored).Pairwise fun a b => a.id.timestampMs ≤ b.id.timestampMs := by
  have sorted := o.sorted (r.set m.indexKey)
  rw [holds.list_eq, List.pairwise_map] at sorted
  refine sorted.imp_of_mem fun {a b} ha hb le => ?_
  have score : ∀ e ∈ m.listing o r stored,
      (r.set m.indexKey).lookup e.id.toString = some (e.id.timestampMs : ℤ) :=
    fun e he => (holds.index _ _).2 ⟨e, holds.mem_listing.1 he, rfl, rfl⟩
  exact_mod_cast le _ (score a ha) _ (score b hb)

/-- What the loop makes of the id of a stored entry. -/
theorem Holds.recallOne_eq {q : STMQuery} {e : STMEntry} (there : stored.lookup e.id = some e) :
    m.recallOne serde q r e.id.toString = q.recalled serde e := by
  obtain ⟨json, written, found⟩ := holds.value e there
  simp only [recallOne, Ulid.fromString_toString, found, STMQuery.recalled, EntrySerde.back, written]
  rw [Except.toOption, Option.bind_some]
  cases serde.fromStr json <;> rfl

/-- The ids that the server returns are those of the leading entries. -/
theorem Holds.ids_eq (few : stored.keys.card ≤ m.capacity) (bound : m.capacity < 2 ^ 63) (q : STMQuery) :
    r.zrangebyscoreLimit o m.indexKey q.minScore q.maxScore 0 q.limit.toBitVec.toInt =
      (m.leading o r stored q).map fun e => e.id.toString := by
  have between : (o.list (r.set m.indexKey)).filter (fun member =>
      ((r.set m.indexKey).lookup member).any fun score => q.minScore ≤ score && score ≤ q.maxScore) =
      ((m.listing o r stored).filter q.inWindow).map fun e => e.id.toString := by
    rw [holds.list_eq (o := o), List.filter_map]
    congr 1
    refine List.filter_congr fun e he => ?_
    have found := (holds.index _ _).2 ⟨e, holds.mem_listing.1 he, rfl, rfl⟩
    rw [Function.comp_apply, found]
    rfl
  have short : ((m.listing o r stored).filter q.inWindow).length < 2 ^ 63 := by
    have length := congrArg List.length (holds.list_eq (o := o))
    rw [List.length_map] at length
    have := holds.length_list (o := o)
    exact (List.length_filter_le _ _).trans_lt (by omega)
  simp only [Redis.zrangebyscoreLimit, between, List.drop_zero, ← List.map_take]
  unfold leading
  have limit := BitVec.toInt_eq_toNat_cond q.limit.toBitVec
  have size := q.limit.toNat_lt
  rw [UInt64.toNat_toBitVec] at limit
  split
  · rw [List.take_of_length_le]
    split at limit <;> omega
  · congr 2
    split at limit <;> omega

theorem Holds.recallBy_eq (few : stored.keys.card ≤ m.capacity) (bound : m.capacity < 2 ^ 63) (q : STMQuery) :
    m.recallBy o serde q r = .ok ((m.leading o r stored q).filterMap (q.recalled serde)) := by
  simp only [recallBy, holds.ids_eq few bound, List.filterMap_map]
  refine congrArg Except.ok (List.filterMap_congr fun e he => ?_)
  have listed := List.mem_of_mem_filter (List.mem_of_mem_take he)
  rw [Function.comp_apply, holds.recallOne_eq (holds.mem_listing.1 listed)]

/-- A list of the stored entries by rising timestamps is the listing. -/
theorem Holds.listing_eq {l : List STMEntry} (mem : ∀ e, e ∈ l ↔ stored.lookup e.id = some e)
    (rising : l.Pairwise fun a b => a.id.timestampMs < b.id.timestampMs) : m.listing o r stored = l := by
  have perm : (m.listing o r stored).Perm l :=
    (List.perm_ext_iff_of_nodup holds.nodup_listing
      (rising.imp fun lt => ne_of_apply_ne (fun e => e.id.timestampMs) lt.ne)).2 fun e =>
        holds.mem_listing.trans (mem e).symm
  have stamps : (l.map fun e => e.id.timestampMs).Nodup := List.pairwise_map.2 (rising.imp ne_of_lt)
  refine perm.eq_of_pairwise (fun a b ha hb le ge => ?_) holds.sorted_listing (rising.imp le_of_lt)
  exact List.inj_on_of_nodup_map stamps (perm.subset ha) hb (le_antisymm le ge)

end Holds

/-! ### Runs -/

section Runs

variable {o : ScoreOrder} {serde : EntrySerde} {m : RedisShortTermMemory} {stored : HashMap Ulid STMEntry}
  {r : Redis}

theorem holds_empty : Holds serde m ∅ .empty where
  keyed _ _ there := by simp at there
  index _ _ := by simp [Redis.set, Redis.empty]
  value _ there := by simp at there

/-- Writing the value of an entry and adding its id to the index. -/
theorem Holds.add (holds : Holds serde m stored r) {e : STMEntry} {json : String}
    (written : serde.toString e = .ok json) :
    Holds serde m (stored.insert e.id e)
      ((r.setEx (m.entryKey e.id) json).zadd m.indexKey e.id.toString e.id.timestampMs) where
  keyed id e' there := by
    by_cases same : id = e.id
    · rw [same, Finmap.lookup_insert] at there
      rw [same, ← Option.some.inj there]
    · rw [Finmap.lookup_insert_of_ne _ same] at there
      exact holds.keyed id e' there
  index member score := by
    rw [Redis.set_zadd]
    by_cases same : member = e.id.toString
    · rw [same, Finmap.lookup_insert, Option.some_inj]
      constructor
      · rintro rfl
        exact ⟨e, Finmap.lookup_insert _, rfl, rfl⟩
      · rintro ⟨e', there, name, rfl⟩
        rw [Ulid.toString_injective name]
    · rw [Finmap.lookup_insert_of_ne _ same]
      refine (holds.index member score).trans (exists_congr fun e' => ?_)
      by_cases id : e'.id = e.id
      · refine iff_of_false (fun h => ?_) fun h => ?_ <;> exact same (id ▸ h.2.1.symm)
      · rw [Finmap.lookup_insert_of_ne _ id]
  value e' there := by
    by_cases id : e'.id = e.id
    · rw [id, Finmap.lookup_insert] at there
      cases there
      exact ⟨json, written, Redis.get_setEx r _ _⟩
    · rw [Finmap.lookup_insert_of_ne _ id] at there
      obtain ⟨json', written', found⟩ := holds.value e' there
      refine ⟨json', written', ?_⟩
      rw [← found]
      exact Redis.get_setEx_of_ne r _ fun h => id (m.entryKey_injective h)

theorem Holds.store (holds : Holds serde m stored r) (e : STMEntry)
    (few : (keep serde stored e).keys.card ≤ m.capacity) :
    Holds serde m (keep serde stored e) (m.store o serde e r).2 := by
  cases written : serde.toString e with
  | error message =>
    simp only [keep, RedisShortTermMemory.store, written, Except.isOk, Except.toBool, Bool.false_eq_true,
      if_false]
    exact holds
  | ok json =>
    simp only [keep, RedisShortTermMemory.store, written, Except.isOk, Except.toBool, if_true] at few ⊢
    have added := holds.add written
    have kept := Redis.set_zremrangebyrank o _ m.indexKey (added.length_list.trans few)
    exact ⟨added.keyed, fun member score => by rw [kept]; exact added.index member score, added.value⟩

theorem card_le_keep (stored : HashMap Ulid STMEntry) (e : STMEntry) :
    stored.keys.card ≤ (keep serde stored e).keys.card := by
  refine Finset.card_le_card fun id hid => ?_
  unfold keep
  split
  · exact Finmap.mem_keys.2 ((Finmap.mem_insert).2 (.inr (Finmap.mem_keys.1 hid)))
  · exact hid

/-- The server holds what a run has stored. -/
theorem holds_storeAll {run : List STMEntry} (few : (storedBy serde run).keys.card ≤ m.capacity) :
    Holds serde m (storedBy serde run) (m.storeAll o serde run .empty) := by
  induction run using List.reverseRecOn with
  | nil => exact holds_empty
  | append_singleton run e ih =>
    unfold storedBy storeAll at *
    rw [List.foldl_append, List.foldl_cons, List.foldl_nil] at few
    rw [List.foldl_append, List.foldl_append]
    exact (ih ((card_le_keep _ e).trans few)).store e few

theorem card_storedBy_le (run : List STMEntry) : (storedBy serde run).keys.card ≤ run.length := by
  induction run using List.reverseRecOn with
  | nil => simp [storedBy]
  | append_singleton run e ih =>
    have more : (keep serde (storedBy serde run) e).keys ⊆ insert e.id (storedBy serde run).keys := by
      intro id there
      unfold keep at there
      split at there
      · rw [Finmap.mem_keys, Finmap.mem_insert] at there
        rwa [Finset.mem_insert, Finmap.mem_keys]
      · exact Finset.mem_insert_of_mem there
    rw [storedBy, List.foldl_append, List.length_append]
    exact ((Finset.card_le_card more).trans (Finset.card_insert_le _ _)).trans (Nat.succ_le_succ ih)

/-- A stored entry has been given to `store`. -/
theorem mem_of_stored {run : List STMEntry} {id : Ulid} {e : STMEntry}
    (there : (storedBy serde run).lookup id = some e) : e ∈ run := by
  induction run using List.reverseRecOn with
  | nil => simp [storedBy] at there
  | append_singleton run e' ih =>
    unfold storedBy at there ih
    rw [List.foldl_append, List.foldl_cons, List.foldl_nil, keep] at there
    rw [List.mem_append, List.mem_singleton]
    split at there
    · by_cases same : id = e'.id
      · rw [same, Finmap.lookup_insert] at there
        exact .inr (Option.some.inj there).symm
      · rw [Finmap.lookup_insert_of_ne _ same] at there
        exact .inl (ih there)
    · exact .inl (ih there)

end Runs

/-! ### The answer -/

section Answer

variable {o : ScoreOrder} {serde : EntrySerde} {m : RedisShortTermMemory} {stored : HashMap Ulid STMEntry}
  {r : Redis} {q : STMQuery}

theorem le_until_of_inWindow {e : STMEntry} (stamp : e.createdAt = e.id.timestampMs * 10 ^ 6)
    (window : q.inWindow e = true) : ∀ t ∈ q.untilAt, e.createdAt ≤ t := by
  intro t ht
  simp only [STMQuery.inWindow, Bool.and_eq_true, decide_eq_true_eq, STMQuery.maxScore, Option.mem_def.1 ht,
    Option.map_some, Option.getD_some] at window
  have seconds : ∀ ms t : ℤ, ms ≤ t / 10 ^ 9 * 1000 → ms * 10 ^ 6 ≤ t := fun ms t h => by omega
  rw [stamp]
  exact seconds _ _ window.2

/-- A matching entry outside the window comes after all entries in it. -/
theorem le_of_not_inWindow {a b : STMEntry} (stampA : a.createdAt = a.id.timestampMs * 10 ^ 6)
    (stampB : b.createdAt = b.id.timestampMs * 10 ^ 6) (window : q.inWindow a = true) (fits : q.Matches b)
    (outside : q.inWindow b = false) : a.createdAt ≤ b.createdAt := by
  have low : q.minScore ≤ b.id.timestampMs := by
    unfold STMQuery.minScore
    cases since : q.since with
    | none => exact le_trans (by norm_num) (Int.natCast_nonneg _)
    | some t =>
      have seconds : ∀ ms t : ℤ, t ≤ ms * 10 ^ 6 → t / 10 ^ 9 * 1000 ≤ ms := fun ms t h => by omega
      have after := fits.2.1 t since
      rw [stampB] at after
      exact seconds _ _ after
  simp only [STMQuery.inWindow, Bool.and_eq_true, decide_eq_true_eq] at window
  simp only [STMQuery.inWindow, Bool.and_eq_false_iff, decide_eq_false_iff_not] at outside
  have earlier : (a.id.timestampMs : ℤ) ≤ b.id.timestampMs := by omega
  rw [stampA, stampB]
  exact mul_le_mul_of_nonneg_right earlier (by norm_num)

/-- What makes the leading entries the earliest matching ones: those that are answered are read back as they are
and are not before `since` (in its second), and the limit is spent on entries that are answered, or nothing that
matches is missed. -/
def LeadingFit (serde : EntrySerde) (stored : HashMap Ulid STMEntry) (q : STMQuery) (leading : List STMEntry) :
    Prop :=
  (∀ e ∈ leading, ∀ e' ∈ q.recalled serde e, e' = e ∧ ∀ t ∈ q.since, t ≤ e.createdAt) ∧
    ((leading.length = q.limit.toNat ∧ ∀ e ∈ leading, (q.recalled serde e).isSome) ∨
      ∀ e, stored.lookup e.id = some e → q.Matches e → e ∈ leading ∧ (q.recalled serde e).isSome)

theorem filterMap_recalled {l : List STMEntry} (same : ∀ e ∈ l, ∀ e' ∈ q.recalled serde e, e' = e) :
    l.filterMap (q.recalled serde) = l.filter fun e => (q.recalled serde e).isSome := by
  rw [← List.filterMap_eq_filter]
  refine List.filterMap_congr fun e he => ?_
  cases back : q.recalled serde e with
  | none => simp [Option.guard, back]
  | some e' => simp [Option.guard, back, same e he e' back]

theorem accepts_of_recalled {e e' : STMEntry} (recalled : q.recalled serde e = some e') : q.accepts e' = true :=
  (Option.filter_eq_some_iff.1 recalled).2

theorem id_of_recalled {e e' : STMEntry} (recalled : q.recalled serde e = some e') : e'.id = e.id := by
  have back : serde.back e = some e' := (Option.filter_eq_some_iff.1 recalled).1
  cases written : serde.toString e with
  | error message => simp [EntrySerde.back, written, Except.toOption] at back
  | ok json =>
    cases read : serde.fromStr json with
    | error message => simp [EntrySerde.back, written, read, Except.toOption] at back
    | ok e'' =>
      simp only [EntrySerde.back, written, read, Except.toOption, Option.bind_some, Option.some.injEq] at back
      exact back ▸ serde.id_fromStr e json e'' written read

variable (holds : Holds serde m stored r)

include holds

theorem leadingFit_of_earliest
    (earliest : q.Earliest stored (.ok ((m.leading o r stored q).filterMap (q.recalled serde)))) :
    LeadingFit serde stored q (m.leading o r stored q) := by
  obtain ⟨l, -, mem, -, answer⟩ := earliest
  have answer := Except.ok.inj answer
  have first : ∀ e ∈ m.leading o r stored q, ∀ e' ∈ q.recalled serde e,
      e' = e ∧ ∀ t ∈ q.since, t ≤ e.createdAt := by
    intro e he e' recalled
    have answered := List.mem_filterMap.2 ⟨e, he, recalled⟩
    rw [answer] at answered
    obtain ⟨stored', fits⟩ := (mem e').1 (List.mem_of_mem_take answered)
    have there := holds.mem_listing.1 (List.mem_of_mem_filter (List.mem_of_mem_take he))
    rw [id_of_recalled recalled, there] at stored'
    obtain rfl := Option.some.inj stored'
    exact ⟨rfl, fits.2.1⟩
  refine ⟨first, ?_⟩
  rw [filterMap_recalled fun e he e' recalled => (first e he e' recalled).1] at answer
  rcases Nat.le_total l.length q.limit.toNat with all | full
  · rw [List.take_of_length_le all] at answer
    refine .inr fun e there fits => ?_
    have returned := (mem e).2 ⟨there, fits⟩
    rw [← answer] at returned
    exact List.mem_filter.1 returned
  · have length := congrArg List.length answer
    rw [List.length_take, Nat.min_eq_left full] at length
    have most : (m.leading o r stored q).length ≤ q.limit.toNat := List.length_take_le _ _
    have least := List.length_filter_le (fun e => (q.recalled serde e).isSome) (m.leading o r stored q)
    exact .inl ⟨by omega, List.length_filter_eq_length_iff.1 (le_antisymm least (by omega))⟩

variable (stamped : ∀ e, stored.lookup e.id = some e → e.createdAt = e.id.timestampMs * 10 ^ 6)

include stamped

/-- Of the leading entries, those that match are those that are answered. -/
theorem matches_iff_returned (fit : LeadingFit serde stored q (m.leading o r stored q)) {e : STMEntry}
    (he : e ∈ m.leading o r stored q) : q.Matches e ↔ (q.recalled serde e).isSome := by
  have inside := List.mem_filter.1 (List.mem_of_mem_take he)
  have there := holds.mem_listing.1 inside.1
  constructor
  · intro fits
    rcases fit.2 with ⟨-, all⟩ | all
    · exact all e he
    · exact (all e there fits).2
  · intro isSome
    obtain ⟨e', recalled⟩ := Option.isSome_iff_exists.1 isSome
    obtain ⟨rfl, since⟩ := fit.1 e he e' recalled
    exact ⟨accepts_of_recalled recalled, since, le_until_of_inWindow (stamped e' there) inside.2⟩

/-- The listing is in the order of the creation. -/
theorem pairwise_createdAt : (m.listing o r stored).Pairwise fun a b => a.createdAt ≤ b.createdAt := by
  refine holds.sorted_listing.imp_of_mem fun {a b} ha hb le => ?_
  rw [stamped a (holds.mem_listing.1 ha), stamped b (holds.mem_listing.1 hb)]
  exact mul_le_mul_of_nonneg_right (by exact_mod_cast le) (by norm_num)

/-- What is answered are the leading entries that match. -/
theorem filterMap_leading (fit : LeadingFit serde stored q (m.leading o r stored q)) [DecidablePred q.Matches] :
    (m.leading o r stored q).filterMap (q.recalled serde) =
      (m.leading o r stored q).filter fun e => q.Matches e := by
  rw [filterMap_recalled fun e he e' recalled => (fit.1 e he e' recalled).1]
  refine List.filter_congr fun e he => ?_
  rw [Bool.eq_iff_iff, decide_eq_true_eq]
  exact (matches_iff_returned holds stamped fit he).symm

theorem earliest_of_leadingFit (fit : LeadingFit serde stored q (m.leading o r stored q)) :
    q.Earliest stored (.ok ((m.leading o r stored q).filterMap (q.recalled serde))) := by
  classical
  set listed := m.listing o r stored with listed_eq
  set window := listed.filter q.inWindow with window_eq
  have leading_eq : m.leading o r stored q = window.take q.limit.toNat := rfl
  have nodup : listed.Nodup := holds.nodup_listing
  have stamp : ∀ e ∈ listed, e.createdAt = e.id.timestampMs * 10 ^ 6 :=
    fun e he => stamped e (holds.mem_listing.1 he)
  have sorted : listed.Pairwise fun a b => a.createdAt ≤ b.createdAt := pairwise_createdAt holds stamped
  let outside := listed.filter fun e => q.Matches e ∧ q.inWindow e = false
  have mem_outside : ∀ e, e ∈ outside ↔ e ∈ listed ∧ q.Matches e ∧ q.inWindow e = false := by
    intro e
    rw [List.mem_filter, decide_eq_true_eq]
  -- the matching entries: those that lead the window, the rest of the window, and those above it
  have split : window.filter (fun e => q.Matches e) =
      (m.leading o r stored q).filter (fun e => q.Matches e) ++
        (window.drop q.limit.toNat).filter fun e => q.Matches e := by
    rw [leading_eq, ← List.filter_append, List.take_append_drop]
  refine ⟨window.filter (fun e => q.Matches e) ++ outside, ?_, ?_, ?_, ?_⟩
  · refine List.Nodup.append ((nodup.filter _).filter _) (nodup.filter _) fun e he he' => ?_
    have inside := (List.mem_filter.1 (List.mem_of_mem_filter he)).2
    exact absurd inside (by simp [((mem_outside e).1 he').2.2])
  · intro e
    rw [List.mem_append, mem_outside, List.mem_filter, List.mem_filter, decide_eq_true_eq, holds.mem_listing]
    cases q.inWindow e <;> tauto
  · refine List.pairwise_append.2 ⟨(sorted.filter _).filter _, sorted.filter _, fun a ha b hb => ?_⟩
    have insideA := List.mem_filter.1 (List.mem_of_mem_filter ha)
    obtain ⟨listedB, fits, outsideB⟩ := (mem_outside b).1 hb
    exact le_of_not_inWindow (stamp a insideA.1) (stamp b listedB) insideA.2 fits outsideB
  · rw [filterMap_leading holds stamped fit, split]
    refine congrArg Except.ok ?_
    rcases fit.2 with ⟨full, all⟩ | all
    · have every : (m.leading o r stored q).filter (fun e => q.Matches e) = m.leading o r stored q :=
        List.filter_eq_self.2 fun e he =>
          decide_eq_true ((matches_iff_returned holds stamped fit he).2 (all e he))
      rw [every, List.append_assoc, ← full, List.take_left]
    · have rest : (window.drop q.limit.toNat).filter (fun e => q.Matches e) = [] := by
        refine List.filter_eq_nil_iff.2 fun e he fits => ?_
        have there := holds.mem_listing.1 (List.mem_of_mem_filter (List.mem_of_mem_drop he))
        have leads := (all e there (of_decide_eq_true fits)).1
        exact List.disjoint_take_drop (nodup.filter _) le_rfl leads he
      have above : outside = [] := by
        refine List.eq_nil_iff_forall_not_mem.2 fun e he => ?_
        obtain ⟨listedE, fits, out⟩ := (mem_outside e).1 he
        have leads := (all e (holds.mem_listing.1 listedE) fits).1
        have inside := (List.mem_filter.1 (List.mem_of_mem_take leads)).2
        exact absurd inside (by simp [out])
      rw [rest, above, List.append_nil, List.append_nil, List.take_of_length_le]
      exact (List.length_filter_le _ _).trans (List.length_take_le _ _)

end Answer

/-- **A recall returns the earliest matching entries** exactly if the leading entries fit. -/
theorem recall_earliest_iff (o : ScoreOrder) (serde : EntrySerde) (run : List STMEntry) (q : STMQuery)
    (few : (storedBy serde run).keys.card ≤ new.capacity)
    (stamped : ∀ e ∈ run, e.createdAt = e.id.timestampMs * 10 ^ 6) :
    q.Earliest (storedBy serde run) (new.recallBy o serde q (new.storeAll o serde run .empty)) ↔
      LeadingFit serde (storedBy serde run) q
        (new.leading o (new.storeAll o serde run .empty) (storedBy serde run) q) := by
  have holds : Holds serde new (storedBy serde run) (new.storeAll o serde run .empty) := holds_storeAll few
  rw [holds.recallBy_eq few capacity_new_lt q]
  exact ⟨leadingFit_of_earliest holds,
    earliest_of_leadingFit holds fun e there => stamped e (mem_of_stored there)⟩

/-! ### Four entries -/

/-- Scores first, then the texts of the members. -/
def byScore : ScoreOrder where
  list set := (sortTexts set.keys).mergeSort fun a b => (set.lookup a).getD 0 ≤ (set.lookup b).getD 0
  nodup set := (List.mergeSort_perm _ _).nodup_iff.2 (sortTexts_increasing set.keys).nodup
  mem_list set member := by rw [List.mem_mergeSort, mem_sortTexts, Finmap.mem_keys]
  sorted set := by
    refine (List.pairwise_mergeSort (fun a b c => ?_) (fun a b => ?_) (sortTexts set.keys)).imp
      fun {a b} le x hx y hy => ?_
    · simpa using le_trans
    · simpa using le_total _ _
    · rw [Option.mem_def.1 hx, Option.mem_def.1 hy] at le
      exact of_decide_eq_true le

/-- An entry that is created so many milliseconds after the epoch. -/
def click (ms : ℕ) : STMEntry :=
  ⟨.ofNat (ms * 2 ^ 80), "click", .null, ∅, ms * 10 ^ 6, 0, .finite ⟨false, 0, 0⟩⟩

/-- A text with an id and the last parts of a time. -/
def clickText (id seconds : String) : String :=
  "\x7b\"id\":\"" ++ id ++ "\",\"kind\":\"click\",\"content\":null,\"context\":\x7b\x7d,\"created_at\":[1970,1,0,0," ++
    seconds ++ ",0,0,0],\"access_count\":0,\"importance\":0.0\x7d"

/-- The text of the entry of that time. -/
def clickJson : ℕ → String
  | 500 => clickText "00000000FM0000000000000000" "0,500000000"
  | 1500 => clickText "00000001EW0000000000000000" "1,500000000"
  | 2500 => clickText "00000002E40000000000000000" "2,500000000"
  | _ => clickText "00000003DC0000000000000000" "3,500000000"

/-- The creation times of the entries. -/
def clickTimes : List ℕ := [500, 1500, 2500, 3500]

/-- The fields of an entry of that time. -/
def isClick (e : STMEntry) (ms : ℕ) : Bool :=
  e.id = (click ms).id && e.kind = "click" && e.content matches .null && e.context = ∅ &&
    e.createdAt = ms * 10 ^ 6 && e.accessCount = 0 && e.importance = .finite ⟨false, 0, 0⟩

theorem isClick_iff {e : STMEntry} {ms : ℕ} : isClick e ms = true ↔ e = click ms := by
  constructor
  · intro same
    obtain ⟨id, kind, content, context, createdAt, accessCount, importance⟩ := e
    cases content <;> simp [isClick] at same
    obtain ⟨⟨⟨⟨⟨rfl, rfl⟩, rfl⟩, rfl⟩, rfl⟩, rfl⟩ := same
    rfl
  · rintro rfl
    simp [isClick, click]

theorem find_clickJson : ∀ ms ∈ clickTimes, clickTimes.find? (fun ms' => clickJson ms = clickJson ms') = some ms := by
  simp [clickTimes, clickJson, clickText]

/-- `serde_json` on the entries. -/
def clickSerde : EntrySerde where
  toString e := match clickTimes.find? (isClick e) with
    | some ms => .ok (clickJson ms)
    | none => .error "not written"
  fromStr json := match clickTimes.find? (fun ms => json = clickJson ms) with
    | some ms => .ok (click ms)
    | none => .error "not read"
  id_fromStr e json e' written read := by
    split at written
    · rename_i ms found
      cases written
      rw [find_clickJson ms (List.mem_of_find?_eq_some found)] at read
      cases read
      rw [isClick_iff.1 (List.find?_some found)]
    · cases written

theorem find_click : ∀ ms ∈ clickTimes, clickTimes.find? (isClick (click ms)) = some ms := by decide

theorem toString_click {ms : ℕ} (known : ms ∈ clickTimes) :
    clickSerde.toString (click ms) = .ok (clickJson ms) := by
  -- for any entry first, or the kernel evaluates the fields of this one
  have written : ∀ e ms, clickTimes.find? (isClick e) = some ms → clickSerde.toString e = .ok (clickJson ms) := by
    intro e ms found
    simp only [clickSerde, found]
  exact written (click ms) ms (find_click ms known)

theorem back_click {ms : ℕ} (known : ms ∈ clickTimes) : clickSerde.back (click ms) = some (click ms) := by
  have read : clickSerde.fromStr (clickJson ms) = .ok (click ms) := by
    simp only [clickSerde, find_clickJson ms known]
  rw [EntrySerde.back, toString_click known, Except.toOption, Option.bind_some, read, Except.toOption]

theorem recalled_click {q : STMQuery} {ms : ℕ} (known : ms ∈ clickTimes) (accepted : q.accepts (click ms)) :
    q.recalled clickSerde (click ms) = some (click ms) := by
  rw [STMQuery.recalled, back_click known]
  exact Option.filter_some_pos accepted

/-- The server after calls of `store` with entries of these times. -/
def clicked (times : List ℕ) : Redis := new.storeAll byScore clickSerde (times.map click) .empty

section Clicks

variable {times : List ℕ}

theorem card_clicks (few : times.length ≤ new.capacity) :
    (storedBy clickSerde (times.map click)).keys.card ≤ new.capacity :=
  (card_storedBy_le _).trans (by rwa [List.length_map])

theorem holds_clicks (few : times.length ≤ new.capacity) :
    Holds clickSerde new (storedBy clickSerde (times.map click)) (clicked times) :=
  holds_storeAll (card_clicks few)

variable (known : times ⊆ clickTimes)

include known

theorem stamped_clicks : ∀ e ∈ times.map click, e.createdAt = e.id.timestampMs * 10 ^ 6 := by
  have all : ∀ ms ∈ clickTimes, (click ms).createdAt = (click ms).id.timestampMs * 10 ^ 6 := by decide
  intro e mem
  obtain ⟨ms, listed, rfl⟩ := List.mem_map.1 mem
  exact all ms (known listed)

theorem lookup_clicks {e : STMEntry} :
    (storedBy clickSerde (times.map click)).lookup e.id = some e ↔ e ∈ times.map click := by
  refine ⟨mem_of_stored, fun mem => ?_⟩
  have apart : ∀ a ∈ clickTimes, ∀ b ∈ clickTimes, (click a).id = (click b).id → a = b := by decide
  induction times using List.reverseRecOn with
  | nil => cases mem
  | append_singleton times ms ih =>
    have here := known (List.mem_append_right times (List.mem_singleton_self ms))
    have keeps (stored) : keep clickSerde stored (click ms) = stored.insert (click ms).id (click ms) := by
      rw [keep, toString_click here]
      rfl
    rw [storedBy, List.map_append, List.foldl_append, List.map_singleton, List.foldl_cons, List.foldl_nil, keeps]
    obtain ⟨other, listed, rfl⟩ := List.mem_map.1 mem
    by_cases same : other = ms
    · rw [same, Finmap.lookup_insert]
    · rw [Finmap.lookup_insert_of_ne _ fun eq => same (apart other (known listed) ms here eq)]
      refine ih (fun _ h => known (List.mem_append_left _ h)) (List.mem_map_of_mem ?_)
      exact (List.mem_append.1 listed).resolve_right fun h => same (List.mem_singleton.1 h)

/-- The entries are listed by their times. -/
theorem leading_clicks (few : times.length ≤ new.capacity) (rising : List ℕ)
    (increasing : rising.Pairwise (· < ·))
    (same : ∀ ms, ms ∈ rising ↔ ms ∈ times) (q : STMQuery) :
    new.leading byScore (clicked times) (storedBy clickSerde (times.map click)) q =
      ((rising.filter fun ms => q.inWindow (click ms)).take q.limit.toNat).map click := by
  have stamp : ∀ ms ∈ clickTimes, (click ms).id.timestampMs = ms := by decide
  have listing := (holds_clicks few).listing_eq (o := byScore) (l := rising.map click)
    (fun e => by simp only [lookup_clicks known, List.mem_map, same]) <| by
      rw [List.pairwise_map]
      refine increasing.imp_of_mem fun ha hb lt => ?_
      rwa [stamp _ (known ((same _).1 ha)), stamp _ (known ((same _).1 hb))]
  rw [leading, listing, List.filter_map, List.map_take]
  rfl

end Clicks

/-- At most two clicks since the first second. -/
def twoSince : STMQuery :=
  { STMQuery.default with kinds := some ["click"], since := some (10 ^ 9), limit := 2 }

/-- Of four entries, stored in another order, three are since the first second, and two of them are found. -/
theorem recall_earliest_clicks :
    twoSince.Earliest (storedBy clickSerde ([2500, 500, 3500, 1500].map click))
      (new.recallBy byScore clickSerde twoSince (clicked [2500, 500, 3500, 1500])) := by
  have known : [2500, 500, 3500, 1500] ⊆ clickTimes := by decide
  refine (recall_earliest_iff byScore clickSerde _ twoSince (card_clicks (by decide))
    (stamped_clicks known)).2 ?_
  have same : ∀ ms, ms ∈ clickTimes ↔ ms ∈ [2500, 500, 3500, 1500] := by
    simp only [clickTimes, List.mem_cons]
    grind
  have leading := leading_clicks known (by decide) clickTimes (by decide) same twoSince
  rw [clicked] at leading
  rw [leading, show (clickTimes.filter fun ms => twoSince.inWindow (click ms)).take twoSince.limit.toNat =
    [1500, 2500] by decide]
  have fits : ∀ ms ∈ [1500, 2500], ms ∈ clickTimes ∧ twoSince.accepts (click ms) = true ∧
      10 ^ 9 ≤ (click ms).createdAt := by decide
  have recalled : ∀ e ∈ [1500, 2500].map click, twoSince.recalled clickSerde e = some e := by
    intro e mem
    obtain ⟨ms, listed, rfl⟩ := List.mem_map.1 mem
    exact recalled_click (fits ms listed).1 (fits ms listed).2.1
  refine ⟨fun e mem e' back => ?_, .inl ⟨rfl, fun e mem => by rw [recalled e mem]; rfl⟩⟩
  rw [recalled e mem] at back
  cases back
  obtain ⟨ms, listed, rfl⟩ := List.mem_map.1 mem
  exact ⟨rfl, fun t ht => by cases ht; exact (fits ms listed).2.2⟩

/-- The entry of 500 ms is returned to a query for what has been created since 900 ms. -/
theorem recall_not_earliest :
    ¬STMQuery.Earliest { STMQuery.default with since := some 900000000 } (storedBy clickSerde ([500].map click))
      (new.recallBy byScore clickSerde { STMQuery.default with since := some 900000000 } (clicked [500])) := by
  intro earliest
  have known : [500] ⊆ clickTimes := by decide
  have holds := @holds_clicks [500] (by decide)
  rw [holds.recallBy_eq (card_clicks (by decide)) capacity_new_lt] at earliest
  have fit := leadingFit_of_earliest holds earliest
  rw [leading_clicks known (by decide) [500] (by decide) fun _ => Iff.rfl] at fit
  have here : 500 ∈ clickTimes := by decide
  exact absurd ((fit.1 (click 500) List.mem_cons_self (click 500) (recalled_click here rfl)).2 _ rfl) (by decide)

end RedisShortTermMemory

end TORdex
