import TORdex.Memory.LongTerm

/-!
# Runs of long-term memory

`Holds` relates the log to the map: how many events each id has, and that the first newest entry of the
log is the first newest one that was stored.  A call answers right exactly when it meets the condition,
and then keeps the relation.
-/

namespace TORdex

open Vm FirstMax InMemoryEventStore

/-- The ids of the entries that a run stores. -/
def storedIds (steps : List (MemoryCall × Readings)) : List Ulid :=
  steps.filterMap fun s =>
    match s.1 with
    | .store entry => some entry.id
    | _ => none

section Runs

variable (serde : TimeSerde)

/-- No call of the run panics, and each answers what it is meant to. -/
def AllRight : DefaultLongTermMemory → MemoryMap → List (MemoryCall × Readings) → Prop
  | _, _, [] => True
  | m, map, (call, r) :: steps => ∃ answer m', m.perform serde r call = some (answer, m') ∧
      map.Right call answer ∧ AllRight m' (map.next call) steps

/-- Every call of the run meets the condition. -/
def MemoryMap.MeetsAll : MemoryMap → List (MemoryCall × Readings) → Prop
  | _, [] => True
  | map, (call, _) :: steps => map.Meets call ∧ (map.next call).MeetsAll steps

/-- The entries of the log that a query without conditions shows. -/
def DefaultLongTermMemory.shown (m : DefaultLongTermMemory) : List LTEntry :=
  (m.eventStore.events.filterMap (entryOf serde)).filter
    (LTQuery.default.minConfidence.le ·.confidence)

/-- The number of events of an id. -/
def MemoryMap.versions (map : MemoryMap) (id : Ulid) : ℕ :=
  match map.live.lookup id with
  | some (_, n) => n + 1
  | none => if id ∈ map.stored.map LTEntry.id then 3 else 0

section Versions

variable {map map' : MemoryMap} {id : Ulid}

theorem MemoryMap.versions_live {e : LTEntry} {n : ℕ} (h : map.live.lookup id = some (e, n)) :
    map.versions id = n + 1 := by
  simp only [versions, h]

theorem MemoryMap.versions_dead (h : map.live.lookup id = none) :
    map.versions id = if id ∈ map.stored.map LTEntry.id then 3 else 0 := by
  simp only [versions, h]

theorem MemoryMap.versions_congr (live : map'.live.lookup id = map.live.lookup id)
    (stored : id ∈ map'.stored.map LTEntry.id ↔ id ∈ map.stored.map LTEntry.id) :
    map'.versions id = map.versions id := by
  cases hl : map.live.lookup id with
  | none => rw [versions_dead (live.trans hl), versions_dead hl, if_congr stored rfl rfl]
  | some e => rw [versions_live (live.trans hl), versions_live hl]

end Versions

/-- The log of the memory is what the map says. -/
structure Holds (m : DefaultLongTermMemory) (map : MemoryMap) : Prop where
  indexed : Indexed m.eventStore
  types : ∀ ev ∈ m.eventStore.events, ev.aggregateType = "LongTermMemory"
  newest : firstMax LTEntry.createdAt (m.shown serde) = firstMax LTEntry.createdAt map.shown
  versions : ∀ id : Ulid, m.eventStore.latestVersion id.toString = map.versions id
  live : ∀ id e n, map.live.lookup id = some (e, n) →
    ∃ s ∈ map.stored, s.id = id ∧ e = { s with content := e.content }
  nodup : (map.stored.map LTEntry.id).Nodup

theorem holds_new : Holds serde .new .new where
  indexed := indexed_new
  types := fun _ h => by cases h
  newest := rfl
  versions := fun _ => rfl
  live := fun _ _ _ h => by cases h
  nodup := List.nodup_nil

variable {serde} {m : DefaultLongTermMemory} {map : MemoryMap}

theorem append_eq (event : EventEnvelope) : m.append event =
    if event.version = m.eventStore.latestVersion event.aggregateId + 1 then
      (.ok (), ⟨m.eventStore.push event⟩)
    else (.error (EventStoreError.versionConflict event.aggregateId
      (m.eventStore.latestVersion event.aggregateId + 1) event.version).text, m) := by
  unfold DefaultLongTermMemory.append InMemoryEventStore.append latestVersion
  by_cases h : event.version =
      ((m.eventStore.byAggregate.lookup event.aggregateId).map List.length).getD 0 + 1
  · simp only [h, ne_eq, not_true_eq_false, if_false, if_true]
  · simp only [h, ne_eq, not_false_eq_true, if_true, if_false]

theorem getLast?_take_one {α : Type*} (l : List α) :
    ((l.drop (min 0 l.length)).take (min (min 0 l.length + 1) l.length - min 0 l.length)).getLast? =
      l.head? := by
  cases l <;> simp

/-- A read answers the first newest entry, whatever the id. -/
theorem Holds.get (holds : Holds serde m map) (id : Ulid) :
    m.get serde id = some (firstMax LTEntry.createdAt map.shown) := by
  have all : m.eventStore.events.filter (ofType "LongTermMemory") = m.eventStore.events :=
    List.filter_eq_self.2 fun ev hev => by simpa [ofType] using holds.types ev hev
  unfold DefaultLongTermMemory.get DefaultLongTermMemory.retrieve
  rw [readAll_eq holds.indexed, all, Option.map_some, Option.map_some]
  simp only [LTQuery.default, List.filter_true]
  rw [getLast?_take_one, head?_mergeSort]
  exact congrArg some holds.newest

theorem Holds.stored_eq (holds : Holds serde m map) {s t : LTEntry} (hs : s ∈ map.stored)
    (ht : t ∈ map.stored) (same : s.id = t.id) : s = t :=
  List.inj_on_of_nodup_map holds.nodup hs ht same

/-- A read is right exactly when it meets the condition. -/
theorem Holds.right_get_iff (holds : Holds serde m map) (id : Ulid) :
    map.Right (.get id) (.got (firstMax LTEntry.createdAt map.shown)) ↔ map.Meets (.get id) := by
  simp only [MemoryMap.Right, MemoryMap.Meets]
  cases hl : map.live.lookup id with
  | none =>
    simp [firstMax_eq_none_iff]
  | some live =>
    obtain ⟨e, n⟩ := live
    obtain ⟨s, hs, rfl, he⟩ := holds.live id e n hl
    cases ht : firstMax LTEntry.createdAt map.shown with
    | none => simp
    | some t =>
      have stored : t ∈ map.stored := List.mem_of_mem_filter (mem_of_firstMax _ ht)
      simp only [Option.map_some, Option.some.injEq, exists_eq_left']
      constructor
      · rintro ⟨accessed, same⟩
        have id_eq := congrArg LTEntry.id same
        have content_eq := congrArg LTEntry.content same
        dsimp only at id_eq content_eq
        exact ⟨id_eq.trans (by rw [he]), content_eq⟩
      · rintro ⟨same, content⟩
        have := holds.stored_eq stored hs same
        subst this
        exact ⟨0, by rw [he, ← content]⟩

/-- What a new event leaves, when its payload shows as the map says. -/
theorem Holds.push (holds : Holds serde m map) (id : Ulid) {map' : MemoryMap} {event : EventEnvelope}
    (own : event.aggregateId = id.toString) (type : event.aggregateType = "LongTermMemory")
    (newest : firstMax LTEntry.createdAt ((⟨m.eventStore.push event⟩ : DefaultLongTermMemory).shown
      serde) = firstMax LTEntry.createdAt map'.shown)
    (count : map'.versions id = map.versions id + 1)
    (others : ∀ id', id' ≠ id → map'.versions id' = map.versions id')
    (live : ∀ id e n, map'.live.lookup id = some (e, n) →
      ∃ s ∈ map'.stored, s.id = id ∧ e = { s with content := e.content })
    (nodup : (map'.stored.map LTEntry.id).Nodup) :
    Holds serde ⟨m.eventStore.push event⟩ map' where
  indexed := holds.indexed.push event
  types := by
    intro ev hev
    rcases List.mem_append.1 hev with old | last
    · exact holds.types ev old
    · rw [List.mem_singleton.1 last]
      exact type
  newest := newest
  versions := by
    intro id'
    rw [latestVersion_push, holds.versions, own]
    by_cases same : id' = id
    · rw [same, if_pos rfl, count]
    · rw [if_neg fun e => same (Ulid.toString_injective e).symm, others id' same, Nat.add_zero]
  live := live
  nodup := nodup

theorem shown_push (event : EventEnvelope) :
    (⟨m.eventStore.push event⟩ : DefaultLongTermMemory).shown serde = m.shown serde ++
      (entryOf serde event).toList.filter (LTQuery.default.minConfidence.le ·.confidence) := by
  simp only [DefaultLongTermMemory.shown, InMemoryEventStore.push, List.filterMap_append,
    List.filter_append]
  rfl

/-- A new entry is stored. -/
theorem Holds.store (holds : Holds serde m map) {entry : LTEntry}
    (fresh : entry.id ∉ map.stored.map LTEntry.id) (r : Readings) :
    ∃ m', m.store serde entry r = (.ok entry.id, m') ∧ Holds serde m' (map.next (.store entry)) := by
  have absent : map.live.lookup entry.id = none := by
    rw [Option.eq_none_iff_forall_ne_some]
    rintro ⟨e, n⟩ hl
    obtain ⟨s, hs, same, -⟩ := holds.live entry.id e n hl
    exact fresh (same ▸ List.mem_map_of_mem hs)
  have none_yet : map.versions entry.id = 0 := by
    rw [MemoryMap.versions_dead absent, if_neg fresh]
  refine ⟨⟨m.eventStore.push (.new entry.id.toString "LongTermMemory" "EntryStored" 1
    (entryToValue serde entry) (r.ulid 0) (r.now 0))⟩, ?_, ?_⟩
  · unfold DefaultLongTermMemory.store
    rw [append_eq, if_pos]
    exact (congrArg (· + 1) ((holds.versions entry.id).trans none_yet)).symm
  · apply holds.push entry.id rfl rfl
    · have read : entryOf serde (.new entry.id.toString "LongTermMemory" "EntryStored" 1
          (entryToValue serde entry) (r.ulid 0) (r.now 0)) =
          if entry.confidence.isFinite then some entry else none :=
        entryFromValue_entryToValue serde entry
      have shown : (map.next (.store entry)).shown = map.shown ++ [entry].filter fun e =>
          e.confidence.isFinite && LTQuery.default.minConfidence.le e.confidence := by
        simp only [MemoryMap.shown, MemoryMap.next, List.filter_append]
      rw [shown_push, shown, read]
      by_cases finite : entry.confidence.isFinite = true
      · by_cases le : LTQuery.default.minConfidence.le entry.confidence = true
        · simp [finite, le, firstMax_concat, holds.newest]
        · simp [finite, le, holds.newest]
      · simp [finite, holds.newest]
    · rw [none_yet]
      exact MemoryMap.versions_live (e := entry) (Finmap.lookup_insert _)
    · intro id' other
      exact MemoryMap.versions_congr (Finmap.lookup_insert_of_ne _ other) (by
        simp [MemoryMap.next, other])
    · intro id e n hl
      by_cases same : id = entry.id
      · subst same
        simp only [MemoryMap.next, Finmap.lookup_insert, Option.some.injEq, Prod.mk.injEq] at hl
        obtain ⟨rfl, rfl⟩ := hl
        exact ⟨entry, List.mem_append_right _ List.mem_cons_self, rfl, rfl⟩
      · simp only [MemoryMap.next, Finmap.lookup_insert_of_ne _ same] at hl
        obtain ⟨s, hs, rest⟩ := holds.live id e n hl
        exact ⟨s, List.mem_append_left _ hs, rest⟩
    · simp only [MemoryMap.next, List.map_append, List.map_singleton]
      exact List.nodup_append.2 ⟨holds.nodup, List.nodup_singleton _, fun a ha b hb => by
        rw [List.mem_singleton.1 hb]
        exact fun e => fresh (e ▸ ha)⟩

/-- The newest entry written again, with other content, does not become the first newest one. -/
theorem Holds.pushUpdate (holds : Holds serde m map) {id : Ulid} {content : Json} {e t : LTEntry} {n : ℕ}
    {now : ℤ} {event : EventEnvelope} (hl : map.live.lookup id = some (e, n))
    (ht : firstMax LTEntry.createdAt map.shown = some t) (own : event.aggregateId = id.toString)
    (type : event.aggregateType = "LongTermMemory")
    (data : event.data = .other (entryToValue serde { t with content, lastAccessedAt := now })) :
    Holds serde ⟨m.eventStore.push event⟩ (map.next (.update id content)) := by
  have next : map.next (.update id content) =
      { map with live := map.live.insert id ({ e with content }, n + 1) } := by
    simp only [MemoryMap.next, hl]
  rw [next]
  apply holds.push id own type
  · have finite : t.confidence.isFinite = true ∧
        LTQuery.default.minConfidence.le t.confidence = true := by
      have := List.of_mem_filter (mem_of_firstMax _ ht)
      simpa using this
    have read : entryOf serde event = some { t with content, lastAccessedAt := now } := by
      simp only [entryOf, data, entryFromValue_entryToValue, if_pos finite.1]
    rw [shown_push, read]
    simp only [Option.toList_some, List.filter_cons, finite.2, if_true, List.filter_nil]
    rw [firstMax_concat, holds.newest, ht]
    exact (if_neg (lt_irrefl _)).trans ht.symm
  · rw [MemoryMap.versions_live hl]
    exact MemoryMap.versions_live (Finmap.lookup_insert _)
  · intro id' other
    exact MemoryMap.versions_congr (Finmap.lookup_insert_of_ne _ other) Iff.rfl
  · intro id' e' n' hl'
    by_cases same : id' = id
    · subst same
      simp only [Finmap.lookup_insert, Option.some.injEq, Prod.mk.injEq] at hl'
      obtain ⟨rfl, rfl⟩ := hl'
      obtain ⟨s, hs, own, he⟩ := holds.live id' e n hl
      exact ⟨s, hs, own, by rw [he]⟩
    · simp only [Finmap.lookup_insert_of_ne _ same] at hl'
      exact holds.live id' e' n' hl'
  · exact holds.nodup

/-- An update is right exactly when it meets the condition, and then changes the map. -/
theorem Holds.update (holds : Holds serde m map) (id : Ulid) (content : Json) (r : Readings) :
    ∃ result m', m.update serde id content r = some (result, m') ∧
      (map.Right (.update id content) (.updated result) ↔ map.Meets (.update id content)) ∧
      (map.Meets (.update id content) → Holds serde m' (map.next (.update id content))) := by
  simp only [DefaultLongTermMemory.update, holds.get id, Option.map_some]
  cases ht : firstMax LTEntry.createdAt map.shown with
  | none =>
    refine ⟨_, _, rfl, ?_, fun meets => ?_⟩
    · have empty := (firstMax_eq_none_iff _).1 ht
      simp only [MemoryMap.Right, MemoryMap.Meets, reduceCtorEq, false_iff, empty, ne_eq,
        not_true_eq_false, and_false]
      cases map.live.lookup id with
      | none => simp
      | some live => simpa using ⟨live.1, live.2, rfl⟩
    · have dead : map.live.lookup id = none := by
        rw [Option.eq_none_iff_forall_ne_some]
        rintro ⟨e, n⟩ hl
        exact (meets e n hl).2 ((firstMax_eq_none_iff _).1 ht)
      simpa only [MemoryMap.next, dead] using holds
  | some t =>
    have some_shown : map.shown ≠ [] := fun empty => by
      rw [(firstMax_eq_none_iff _).2 empty] at ht
      cases ht
    dsimp only
    rw [append_eq]
    simp only [EventEnvelope.new, holds.versions]
    cases hl : map.live.lookup id with
    | none =>
      have other : 2 ≠ map.versions id + 1 := by
        rw [MemoryMap.versions_dead hl]
        split_ifs <;> omega
      rw [if_neg other]
      refine ⟨_, _, rfl, by simp [MemoryMap.Right, MemoryMap.Meets, hl], fun _ => ?_⟩
      simpa only [MemoryMap.next, hl] using holds
    | some live =>
      obtain ⟨e, n⟩ := live
      have count := MemoryMap.versions_live hl
      by_cases first : n = 0
      · rw [if_pos (by omega)]
        refine ⟨_, _, rfl, by simp [MemoryMap.Right, MemoryMap.Meets, hl, first, some_shown],
          fun _ => ?_⟩
        exact holds.pushUpdate hl ht rfl rfl rfl
      · rw [if_neg (by omega)]
        refine ⟨_, _, rfl, by simp [MemoryMap.Right, MemoryMap.Meets, hl, first], fun meets => ?_⟩
        exact absurd (meets e n hl).1 first

/-- The payload of a deletion is no entry. -/
theorem Holds.pushForget (holds : Holds serde m map) {id : Ulid} {e : LTEntry} {event : EventEnvelope}
    (hl : map.live.lookup id = some (e, 1)) (own : event.aggregateId = id.toString)
    (type : event.aggregateType = "LongTermMemory")
    (data : event.data = .other (.obj [("id", .str id.toString)])) :
    Holds serde ⟨m.eventStore.push event⟩ (map.next (.forget id)) := by
  obtain ⟨s, hs, same, -⟩ := holds.live id e 1 hl
  apply holds.push id own type
  · have unread : entryOf serde event = none := by
      simp [entryOf, data, entryFromValue, Json.get, Json.asStr]
    rw [shown_push, unread, Option.toList_none, List.filter_nil, List.append_nil]
    exact holds.newest
  · have stored : id ∈ (map.next (.forget id)).stored.map LTEntry.id := same ▸ List.mem_map_of_mem hs
    have dead : (map.next (.forget id)).live.lookup id = none := Finmap.lookup_erase _ _
    rw [MemoryMap.versions_live hl, MemoryMap.versions_dead dead, if_pos stored]
  · intro id' other
    exact MemoryMap.versions_congr (Finmap.lookup_erase_ne other) Iff.rfl
  · intro id' e' n' hl'
    by_cases same : id' = id
    · rw [same] at hl'
      simp only [MemoryMap.next, Finmap.lookup_erase, reduceCtorEq] at hl'
    · simp only [MemoryMap.next, Finmap.lookup_erase_ne same] at hl'
      exact holds.live id' e' n' hl'
  · exact holds.nodup

/-- A deletion is right exactly when it meets the condition, and then changes the map. -/
theorem Holds.forget (holds : Holds serde m map) (id : Ulid) (r : Readings) :
    (map.Right (.forget id) (.forgotten (m.forget id r).1) ↔ map.Meets (.forget id)) ∧
      (map.Meets (.forget id) → Holds serde (m.forget id r).2 (map.next (.forget id))) := by
  unfold DefaultLongTermMemory.forget
  rw [append_eq]
  simp only [EventEnvelope.new, holds.versions]
  cases hl : map.live.lookup id with
  | none =>
    have other : 3 ≠ map.versions id + 1 := by
      rw [MemoryMap.versions_dead hl]
      split_ifs <;> omega
    rw [if_neg other]
    refine ⟨by simp [MemoryMap.Right, MemoryMap.Meets, hl], fun _ => ?_⟩
    have same : map.next (.forget id) = map := by
      simp only [MemoryMap.next]
      congr 1
      apply Finmap.ext_lookup
      intro id'
      by_cases own : id' = id
      · rw [own, Finmap.lookup_erase, hl]
      · rw [Finmap.lookup_erase_ne own]
    rw [same]
    exact holds
  | some live =>
    obtain ⟨e, n⟩ := live
    have count := MemoryMap.versions_live hl
    by_cases updated : n = 1
    · rw [if_pos (by omega)]
      refine ⟨by simp [MemoryMap.Right, MemoryMap.Meets, hl, updated], fun _ => ?_⟩
      exact holds.pushForget (updated ▸ hl) rfl rfl rfl
    · rw [if_neg (by omega)]
      refine ⟨by simp [MemoryMap.Right, MemoryMap.Meets, hl, updated], fun meets => ?_⟩
      exact absurd (meets e n hl) updated

/-- The ids that are stored in the rest of the run are new, and no two of them are the same. -/
def FreshFrom (map : MemoryMap) (steps : List (MemoryCall × Readings)) : Prop :=
  (storedIds steps).Nodup ∧ ∀ id ∈ storedIds steps, id ∉ map.stored.map LTEntry.id

theorem FreshFrom.step {call : MemoryCall} {r : Readings} {steps : List (MemoryCall × Readings)}
    (fresh : FreshFrom map ((call, r) :: steps)) : FreshFrom (map.next call) steps := by
  obtain ⟨nodup, apart⟩ := fresh
  cases call with
  | store entry =>
    obtain ⟨first, nodup⟩ := List.nodup_cons.1 nodup
    refine ⟨nodup, fun id hid => ?_⟩
    have old := apart id (List.mem_cons_of_mem _ hid)
    simp only [MemoryMap.next, List.map_append, List.map_singleton, List.mem_append,
      List.mem_singleton, not_or]
    exact ⟨old, fun e => first (e ▸ hid)⟩
  | update id content =>
    refine ⟨nodup, fun id' hid => ?_⟩
    simp only [MemoryMap.next]
    cases map.live.lookup id <;> exact apart id' hid
  | get id => exact ⟨nodup, apart⟩
  | forget id => exact ⟨nodup, apart⟩

/-- A call answers; it is right exactly when it meets the condition, and then keeps the relation. -/
theorem Holds.perform (holds : Holds serde m map) {call : MemoryCall} {r : Readings}
    {steps : List (MemoryCall × Readings)} (fresh : FreshFrom map ((call, r) :: steps)) :
    ∃ answer m', m.perform serde r call = some (answer, m') ∧
      (map.Right call answer ↔ map.Meets call) ∧
      (map.Meets call → Holds serde m' (map.next call)) := by
  cases call with
  | store entry =>
    obtain ⟨m', stored, holds'⟩ := holds.store (fresh.2 entry.id List.mem_cons_self) r
    refine ⟨.stored (.ok entry.id), m', ?_, iff_of_true rfl trivial, fun _ => holds'⟩
    simp only [DefaultLongTermMemory.perform, stored]
  | get id =>
    refine ⟨_, m, ?_, holds.right_get_iff id, fun _ => holds⟩
    simp only [DefaultLongTermMemory.perform, holds.get id, Option.map_some]
  | update id content =>
    obtain ⟨result, m', updated, right, next⟩ := holds.update id content r
    refine ⟨.updated result, m', ?_, right, next⟩
    simp only [DefaultLongTermMemory.perform, updated, Option.map_some]
  | forget id =>
    obtain ⟨right, next⟩ := holds.forget id r
    exact ⟨_, _, rfl, right, next⟩

theorem Holds.allRight_iff (holds : Holds serde m map) {steps : List (MemoryCall × Readings)}
    (fresh : FreshFrom map steps) : AllRight serde m map steps ↔ map.MeetsAll steps := by
  induction steps generalizing m map with
  | nil => exact Iff.rfl
  | cons s steps ih =>
    obtain ⟨call, r⟩ := s
    obtain ⟨answer, m', performed, right, next⟩ := holds.perform fresh
    constructor
    · rintro ⟨answer₁, m₁, performed₁, right₁, rest⟩
      rw [performed] at performed₁
      cases performed₁
      have meets := right.1 right₁
      exact ⟨meets, (ih (next meets) fresh.step).1 rest⟩
    · rintro ⟨meets, rest⟩
      exact ⟨answer, m', performed, right.2 meets, (ih (next meets) fresh.step).2 rest⟩

/-- From an empty memory a run answers everything right exactly when all its calls meet the
condition. -/
theorem longTermMemory_right_iff (serde : TimeSerde) (steps : List (MemoryCall × Readings))
    (fresh : (storedIds steps).Nodup) : AllRight serde .new .new steps ↔ MemoryMap.new.MeetsAll steps :=
  (holds_new serde).allRight_iff ⟨fresh, fun _ _ => List.not_mem_nil⟩

end Runs

/-- Year, day of the year, time and offset, as the crate writes them for the first second of 1970;
whole seconds and nanoseconds. -/
def epochSerde : TimeSerde where
  dateTime t := .arr [.int 1970, .int 1, .int 0, .int 0, .int 0, .int t, .int 0, .int 0, .int 0]
  readDateTime := fun
    | .arr [_, _, _, _, _, .int t, _, _, _] => some t
    | _ => none
  duration d := .arr [.int (d.tdiv (10 ^ 9)), .int (d.tmod (10 ^ 9))]
  readDuration := fun
    | .arr [.int seconds, .int nanos] => some (10 ^ 9 * seconds + nanos)
    | _ => none
  readDateTime_dateTime := fun _ => rfl
  readDuration_duration := fun d => congrArg some (Int.mul_tdiv_add_tmod d (10 ^ 9))
  duration_ne_null := fun _ h => by cases h

/-- An entry created at some moment. -/
def sampleEntry (id : ℕ) (createdAt : OffsetDateTime) : LTEntry where
  id := .ofNat id
  kind := "fact"
  content := .int id
  sourceIds := []
  confidence := .finite ⟨false, 1, 0⟩
  createdAt := createdAt
  lastAccessedAt := createdAt
  accessCount := 0
  ttl := none

/-- The same reading at every moment. -/
def sampleReadings : Readings := ⟨fun _ => 0, fun _ => .ofNat 0⟩

/-- An entry that is alone can be stored, read, updated once and forgotten. -/
theorem right_alone : AllRight epochSerde .new .new
    [(.store (sampleEntry 1 5), sampleReadings), (.get (.ofNat 1), sampleReadings),
      (.update (.ofNat 1) (.str "new"), sampleReadings), (.forget (.ofNat 1), sampleReadings)] := by
  refine (longTermMemory_right_iff epochSerde _ (by decide)).2
    ⟨trivial, ⟨sampleEntry 1 5, rfl, rfl, rfl⟩, ?_, ?_, trivial⟩
  · intro e n h
    cases h
    exact ⟨rfl, List.cons_ne_nil _ _⟩
  · intro e n h
    cases h
    rfl

/-- The second entry is newer: a read of the first answers the second. -/
theorem get_other : ¬AllRight epochSerde .new .new
    [(.store (sampleEntry 1 5), sampleReadings), (.store (sampleEntry 2 6), sampleReadings),
      (.get (.ofNat 1), sampleReadings)] := by
  intro right
  have meets := ((holds_new epochSerde).allRight_iff ⟨by decide, fun _ _ => List.not_mem_nil⟩).1 right
  obtain ⟨t, newest, same, -⟩ := meets.2.2.1
  cases newest
  exact absurd same (by decide)

end TORdex
