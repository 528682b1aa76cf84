import TORdex.Core.EventStore
import TORdex.Core.Primitives
import TORdex.Lib.FirstMax
import TORdex.Vm.Services

/-!
# Long-term memory

Entries are written as events and read back from the log.  A query for an id is a query for everything:
the answer is the entry with the latest creation, the first among equals, whatever the id; an update or
a deletion comes later in the log and is never seen.  `MemoryMap` is the map that the calls are meant to
implement.
-/

namespace TORdex

open Vm FirstMax

/-! ## Entries as JSON -/

/-- How the `time` crate writes a moment and a duration, and reads them back. -/
structure TimeSerde where
  dateTime : OffsetDateTime → Json
  readDateTime : Json → Option OffsetDateTime
  duration : ℤ → Json
  readDuration : Json → Option ℤ
  readDateTime_dateTime : ∀ t, readDateTime (dateTime t) = some t
  readDuration_duration : ∀ d, readDuration (duration d) = some d
  duration_ne_null : ∀ d, duration d ≠ .null

section Serde

variable (serde : TimeSerde)

/-- `serde_json::to_value`. -/
def entryToValue (e : LTEntry) : Json := .obj [
  ("access_count", .int e.accessCount),
  ("confidence", match e.confidence.toJson with
    | some d => .float d
    | none => .null),
  ("content", e.content),
  ("created_at", serde.dateTime e.createdAt),
  ("id", .str e.id.toString),
  ("kind", .str e.kind),
  ("last_accessed_at", serde.dateTime e.lastAccessedAt),
  ("source_ids", .arr (e.sourceIds.map .str)),
  ("ttl", match e.ttl with
    | some d => serde.duration d
    | none => .null)]

/-- An optional duration: a field that is missing or `null` is `None`. -/
def optionalDuration : Option Json → Option (Option ℤ)
  | none | some .null => some none
  | some d => (serde.readDuration d).map some

/-- `serde_json::from_value`, for an object. -/
def entryFromValue (v : Json) : Option LTEntry := do
  let id ← Ulid.fromString (← (← v.get "id").asStr)
  let kind ← (← v.get "kind").asStr
  let content ← v.get "content"
  let sourceIds ← (← (← v.get "source_ids").asArray).mapM Json.asStr
  let confidence ← (← v.get "confidence").asF64
  let createdAt ← serde.readDateTime (← v.get "created_at")
  let lastAccessedAt ← serde.readDateTime (← v.get "last_accessed_at")
  let accessCount ← (← v.get "access_count").asU64
  let ttl ← optionalDuration serde (v.get "ttl")
  return { id, kind, content, sourceIds, confidence, createdAt, lastAccessedAt, accessCount, ttl }

theorem mapM_asStr (l : List String) : l.mapM (Json.asStr ∘ Json.str) = some l := by
  induction l with
  | nil => rfl
  | cons x l ih =>
    rw [List.mapM_cons, ih]
    rfl

theorem optionalDuration_written (ttl : Option ℤ) :
    optionalDuration serde (some (match ttl with
      | some d => serde.duration d
      | none => .null)) = some ttl := by
  cases ttl with
  | none => rfl
  | some d =>
    unfold optionalDuration
    split
    · rename_i h
      cases h
    · rename_i h
      exact absurd (Option.some.inj h) (serde.duration_ne_null d)
    · rename_i h
      cases h
      rw [serde.readDuration_duration]
      rfl

/-- Writing an entry and reading it back; a confidence that is no number becomes `null`. -/
theorem entryFromValue_entryToValue (e : LTEntry) :
    entryFromValue serde (entryToValue serde e) = if e.confidence.isFinite then some e else none := by
  obtain ⟨id, kind, content, sourceIds, confidence, createdAt, lastAccessedAt, accessCount, ttl⟩ := e
  have written : (entryToValue serde ⟨id, kind, content, sourceIds, confidence, createdAt,
      lastAccessedAt, accessCount, ttl⟩).get "ttl" =
        some (match ttl with
          | some d => serde.duration d
          | none => .null) := rfl
  unfold entryFromValue
  rw [written, optionalDuration_written]
  cases confidence with
  | finite d =>
    simp [entryToValue, Json.get, Json.asStr, Json.asArray, Json.asF64, Json.asU64, F64.toJson,
      F64.isFinite, Ulid.fromString_toString, mapM_asStr, serde.readDateTime_dateTime]
  | _ =>
    simp [entryToValue, Json.get, Json.asStr, Json.asArray, Json.asF64, F64.toJson, F64.isFinite]

end Serde

/-! ## The memory -/

/-- `Display` of an event store error. -/
def EventStoreError.text : EventStoreError → String
  | .storage message => "event store error: " ++ message
  | .versionConflict aggregateId expected got =>
    "version conflict for aggregate " ++ aggregateId ++ ": expected " ++ toString expected ++
      ", got " ++ toString got

/-- `EventEnvelope::new`, with the ULID and the clock reading it takes. -/
def EventEnvelope.new (aggregateId aggregateType eventType : String) (version : ℕ) (data : Json)
    (id : Ulid) (now : OffsetDateTime) : EventEnvelope where
  id := id
  aggregateId := aggregateId
  aggregateType := aggregateType
  eventType := eventType
  version := version
  data := .other data
  metadata := ∅
  timestamp := now

/-- The entry in the payload of an event. -/
def entryOf (serde : TimeSerde) (ev : EventEnvelope) : Option LTEntry :=
  match ev.data with
  | .other v => entryFromValue serde v
  | .event _ => none

/-- The memory is its log. -/
structure DefaultLongTermMemory where
  eventStore : InMemoryEventStore

namespace DefaultLongTermMemory

/-- Without entries. -/
def new : DefaultLongTermMemory := ⟨.new⟩

variable (serde : TimeSerde) (m : DefaultLongTermMemory)

/-- Append an event; an error comes back as its text. -/
def append (event : EventEnvelope) : Except String Unit × DefaultLongTermMemory :=
  match m.eventStore.append event with
  | .ok eventStore => (.ok (), ⟨eventStore⟩)
  | .error e => (.error e.text, m)

/-- Append that an entry is stored. -/
def store (entry : LTEntry) (r : Readings) : Except String Ulid × DefaultLongTermMemory :=
  match m.append (.new entry.id.toString "LongTermMemory" "EntryStored" 1 (entryToValue serde entry)
    (r.ulid 0) (r.now 0)) with
  | (.ok (), m) => (.ok entry.id, m)
  | (.error e, m) => (.error e, m)

/-- The ids of the query are not looked at.  `none` when the store panics. -/
def retrieve (query : LTQuery) : Option (List LTEntry) :=
  (m.eventStore.readAll "LongTermMemory").map fun raw =>
    let entries := (raw.filterMap (entryOf serde)).filter (query.minConfidence.le ·.confidence)
    let entries := entries.filter fun e =>
      match query.kinds with
      | some k => k.contains e.kind
      | none => true
    let entries := entries.mergeSort fun a b => decide (b.createdAt ≤ a.createdAt)
    let start := min query.offset entries.length
    let last := min (start + query.limit) entries.length
    (entries.drop start).take (last - start)

/-- The entry of an id. -/
def get (id : Ulid) : Option (Option LTEntry) :=
  (m.retrieve serde { LTQuery.default with ids := some [id.toString], limit := 1 }).map
    List.getLast?

/-- Append that the content of an entry is replaced. -/
def update (id : Ulid) (content : Json) (r : Readings) :
    Option (Except String Unit × DefaultLongTermMemory) :=
  (m.get serde id).map fun
    | none => (.error ("LTM entry " ++ id.toString ++ " not found"), m)
    | some entry =>
      let updated := { entry with content, lastAccessedAt := r.now 0 }
      m.append (.new id.toString "LongTermMemory" "EntryUpdated" 2 (entryToValue serde updated)
        (r.ulid 0) (r.now 1))

/-- Append that an entry is deleted. -/
def forget (id : Ulid) (r : Readings) : Except String Unit × DefaultLongTermMemory :=
  m.append (.new id.toString "LongTermMemory" "EntryDeleted" 3 (.obj [("id", .str id.toString)])
    (r.ulid 0) (r.now 0))

end DefaultLongTermMemory

/-! ## Calls -/

/-- The calls of a memory. -/
inductive MemoryCall where
  | store (entry : LTEntry)
  | get (id : Ulid)
  | update (id : Ulid) (content : Json)
  | forget (id : Ulid)

/-- What a call answers. -/
inductive MemoryAnswer where
  | stored (result : Except String Ulid)
  | got (result : Option LTEntry)
  | updated (result : Except String Unit)
  | forgotten (result : Except String Unit)

/-- The answer to a call and the memory after it; `none` when the store panics. -/
def DefaultLongTermMemory.perform (serde : TimeSerde) (m : DefaultLongTermMemory) (r : Readings) :
    MemoryCall → Option (MemoryAnswer × DefaultLongTermMemory)
  | .store entry => let (result, m) := m.store serde entry r; some (.stored result, m)
  | .get id => (m.get serde id).map fun result => (.got result, m)
  | .update id content => (m.update serde id content r).map fun (result, m) => (.updated result, m)
  | .forget id => let (result, m) := m.forget id r; some (.forgotten result, m)

/-- The map that the memory is meant to be: the live entries, each with the number of its updates,
and all entries that were ever stored. -/
structure MemoryMap where
  live : HashMap Ulid (LTEntry × ℕ)
  stored : List LTEntry

namespace MemoryMap

/-- Without entries. -/
def new : MemoryMap := ⟨∅, []⟩

/-- The effect of a call. -/
def next (map : MemoryMap) : MemoryCall → MemoryMap
  | .store entry => ⟨map.live.insert entry.id (entry, 0), map.stored ++ [entry]⟩
  | .get _ => map
  | .update id content =>
    match map.live.lookup id with
    | some (entry, n) => { map with live := map.live.insert id ({ entry with content }, n + 1) }
    | none => map
  | .forget id => { map with live := map.live.erase id }

/-- What the call is meant to answer; when an entry was last read is left open. -/
def Right (map : MemoryMap) : MemoryCall → MemoryAnswer → Prop
  | .store entry, .stored result => result = .ok entry.id
  | .get id, .got result => ∃ accessed, result.map (fun e => { e with lastAccessedAt := accessed }) =
      (map.live.lookup id).map fun e => { e.1 with lastAccessedAt := accessed }
  | .update id _, .updated result => result = .ok () ↔ (map.live.lookup id).isSome
  | .forget id, .forgotten result => (map.live.lookup id).isSome → result = .ok ()
  | _, _ => False

/-- The entries that a query without conditions shows: their confidence is a number, not negative. -/
def shown (map : MemoryMap) : List LTEntry :=
  map.stored.filter fun e => e.confidence.isFinite && LTQuery.default.minConfidence.le e.confidence

/-- The calls that are answered right.  A live entry can be read when no shown entry was created later,
nor stored earlier with the same creation, and its content is the stored one; it can be updated once and
then be forgotten.  For an id that is not live nothing must be shown. -/
def Meets (map : MemoryMap) : MemoryCall → Prop
  | .store _ => True
  | .get id =>
    match map.live.lookup id with
    | some (entry, _) => ∃ t, firstMax LTEntry.createdAt map.shown = some t ∧ t.id = id ∧
        t.content = entry.content
    | none => map.shown = []
  | .update id _ => ∀ entry n, map.live.lookup id = some (entry, n) → n = 0 ∧ map.shown ≠ []
  | .forget id => ∀ entry n, map.live.lookup id = some (entry, n) → n = 1

end MemoryMap

end TORdex
