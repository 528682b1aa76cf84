import TORdex.Core.SystemEvent
import TORdex.Lib.BackwardSearch

/-!
# The in-memory event store

An append-only log with two indexes, by aggregate and by aggregate type.  `Indexed` says that each
index holds the positions of the entries with its key; every run of appends keeps it, and the readers
then return the filtered log.
-/

namespace TORdex

open Positions

/-- The clock readings and the fresh ULIDs of one call, in the order they are taken. -/
structure Readings where
  now : ℕ → OffsetDateTime
  ulid : ℕ → Ulid

/-- An envelope wrapping every event in the system. -/
structure EventEnvelope where
  id : Ulid
  aggregateId : String
  aggregateType : String
  eventType : String
  version : ℕ
  data : Value
  metadata : HashMap String String
  timestamp : OffsetDateTime

/-- Pack an event into an envelope; the fresh ULID and the clock reading are arguments. -/
def SystemEvent.intoEnvelope (e : SystemEvent F64) (version : ℕ) (id : Ulid)
    (now : OffsetDateTime) : EventEnvelope where
  id := id
  aggregateId := e.aggregateId
  aggregateType := e.aggregateType
  eventType := e.eventType
  version := version
  data := e.toValue
  metadata := ∅
  timestamp := now

/-- The errors of an event store. -/
inductive EventStoreError where
  | storage (message : String)
  | versionConflict (aggregateId : String) (expected got : ℕ)
  deriving DecidableEq, Repr

/-- The errors of the core. -/
inductive CoreError where
  | config (message : String)
  | infra (message : String)
  | serialization (message : String)
  | agent (message : String)
  deriving DecidableEq, Repr

/-- The text of an error. -/
def EventStoreError.message : EventStoreError → String
  | .storage message => "event store error: " ++ message
  | .versionConflict aggregateId expected got =>
    "version conflict for aggregate " ++ aggregateId ++ ": expected " ++ toString expected ++ ", got " ++
      toString got

/-- `impl From<EventStoreError> for CoreError`. -/
def CoreError.ofEventStore (e : EventStoreError) : CoreError := .infra e.message

/-- `Inner`: the log and its indexes. -/
structure InMemoryEventStore where
  events : List EventEnvelope
  byAggregate : HashMap String (List ℕ)
  byType : HashMap String (List ℕ)

namespace InMemoryEventStore

/-- A store without events. -/
def new : InMemoryEventStore := ⟨[], ∅, ∅⟩

/-- `entry(key).or_default().push(idx)`. -/
def pushIndex (index : HashMap String (List ℕ)) (key : String) (idx : ℕ) :
    HashMap String (List ℕ) :=
  index.insert key ((index.lookup key).getD [] ++ [idx])

/-- The log with the event pushed and both indexes extended. -/
def push (s : InMemoryEventStore) (event : EventEnvelope) : InMemoryEventStore where
  events := s.events ++ [event]
  byAggregate := pushIndex s.byAggregate event.aggregateId s.events.length
  byType := pushIndex s.byType event.aggregateType s.events.length

/-- Latest version for an aggregate (0 if none). -/
def latestVersion (s : InMemoryEventStore) (aggregateId : String) : ℕ :=
  ((s.byAggregate.lookup aggregateId).map List.length).getD 0

/-- Append an event; its version must follow the length of its aggregate's index. -/
def append (s : InMemoryEventStore) (event : EventEnvelope) :
    Except EventStoreError InMemoryEventStore :=
  let current := ((s.byAggregate.lookup event.aggregateId).map List.length).getD 0
  if event.version ≠ current + 1 then
    .error (.versionConflict event.aggregateId (current + 1) event.version)
  else .ok (s.push event)

/-- `append(event).ok()`: a rejected append is dropped. -/
def appendOk (s : InMemoryEventStore) (event : EventEnvelope) : InMemoryEventStore :=
  match s.append event with
  | .ok s' => s'
  | .error _ => s

/-- The version check, and the two outcomes of an append. -/
theorem appendOk_eq (s : InMemoryEventStore) (event : EventEnvelope) :
    s.appendOk event =
      if event.version = s.latestVersion event.aggregateId + 1 then s.push event else s := by
  unfold appendOk append latestVersion
  by_cases hv : event.version =
      ((s.byAggregate.lookup event.aggregateId).map List.length).getD 0 + 1
  · simp [hv]
  · simp [hv]

/-- The events at the indexed positions; `none` when an index is out of range (a panic). -/
def readIndex (s : InMemoryEventStore) (index : HashMap String (List ℕ)) (key : String) :
    Option (List EventEnvelope) :=
  match index.lookup key with
  | some indices => indices.mapM fun i => s.events[i]?
  | none => some []

/-- Read all events for an aggregate. -/
def readEvents (s : InMemoryEventStore) (aggregateId : String) : Option (List EventEnvelope) :=
  s.readIndex s.byAggregate aggregateId

/-- Read all events of a given aggregate type. -/
def readAll (s : InMemoryEventStore) (aggregateType : String) : Option (List EventEnvelope) :=
  s.readIndex s.byType aggregateType

/-- Read all events after a given ULID: those whose own ULID is larger. -/
def readSince (s : InMemoryEventStore) (sinceId : Ulid) : List EventEnvelope :=
  s.events.filter fun e => sinceId.value < e.id.value

/-- Read all events of an aggregate after a given version. -/
def readSinceVersion (s : InMemoryEventStore) (aggregateId : String) (sinceVersion : ℕ) :
    Option (List EventEnvelope) :=
  (s.readIndex s.byAggregate aggregateId).map fun events =>
    events.filter fun e => sinceVersion < e.version

/-- Total event count for an aggregate type. -/
def count (s : InMemoryEventStore) (aggregateType : String) : ℕ :=
  ((s.byType.lookup aggregateType).map List.length).getD 0

/-- Total events across all aggregates. -/
def totalCount (s : InMemoryEventStore) : ℕ := s.events.length

/-- Clear all events. -/
def clear (_ : InMemoryEventStore) : InMemoryEventStore := ⟨[], ∅, ∅⟩

/-! ## The index invariant -/

/-- The event belongs to the aggregate. -/
def ofAggregate (a : String) (e : EventEnvelope) : Bool := e.aggregateId == a

/-- The event has the aggregate type. -/
def ofType (t : String) (e : EventEnvelope) : Bool := e.aggregateType == t

/-- Each index holds, for each key, the positions of the events with that key. -/
structure Indexed (s : InMemoryEventStore) : Prop where
  byAggregate : ∀ a, (s.byAggregate.lookup a).getD [] = positions (ofAggregate a) s.events
  byType : ∀ t, (s.byType.lookup t).getD [] = positions (ofType t) s.events

theorem indexed_new : Indexed new := ⟨fun _ => rfl, fun _ => rfl⟩

theorem pushIndex_positions {index : HashMap String (List ℕ)} {events : List EventEnvelope}
    {key : EventEnvelope → String}
    (h : ∀ k, (index.lookup k).getD [] = positions (fun e => key e == k) events)
    (event : EventEnvelope) (k : String) :
    ((pushIndex index (key event) events.length).lookup k).getD [] =
      positions (fun e => key e == k) (events ++ [event]) := by
  unfold pushIndex
  by_cases hk : key event = k
  · subst hk
    rw [Finmap.lookup_insert, Option.getD_some, h]
    exact (positions_concat_of_pos (fun e => key e == key event) (beq_self_eq_true _)).symm
  · rw [Finmap.lookup_insert_of_ne _ (Ne.symm hk), h]
    exact (positions_concat_of_neg (fun e => key e == k) (by simpa using hk)).symm

theorem Indexed.push {s : InMemoryEventStore} (h : Indexed s) (event : EventEnvelope) :
    Indexed (s.push event) :=
  ⟨pushIndex_positions h.byAggregate event, pushIndex_positions h.byType event⟩

theorem Indexed.appendOk {s : InMemoryEventStore} (h : Indexed s) (event : EventEnvelope) :
    Indexed (s.appendOk event) := by
  rw [appendOk_eq]
  split_ifs
  · exact h.push event
  · exact h

section Readers

variable {s : InMemoryEventStore} (h : Indexed s)
include h

theorem latestVersion_eq (a : String) :
    s.latestVersion a = (s.events.filter (ofAggregate a)).length := by
  rw [← length_positions, ← h.byAggregate]
  unfold latestVersion
  cases s.byAggregate.lookup a <;> rfl

omit h in
theorem readIndex_eq {index : HashMap String (List ℕ)} {p : EventEnvelope → Bool} {k : String}
    (hk : (index.lookup k).getD [] = positions p s.events) :
    s.readIndex index k = some (s.events.filter p) := by
  have found := mapM_positions p s.events
  rw [← hk] at found
  unfold readIndex
  cases hl : index.lookup k with
  | none => rw [hl] at found; exact found
  | some indices => rw [hl] at found; exact found

/-- `read_events` returns the events of the aggregate, in log order. -/
theorem readEvents_eq (a : String) : s.readEvents a = some (s.events.filter (ofAggregate a)) :=
  readIndex_eq (h.byAggregate a)

/-- `read_all` returns the events of the type, in log order. -/
theorem readAll_eq (t : String) : s.readAll t = some (s.events.filter (ofType t)) :=
  readIndex_eq (h.byType t)

end Readers

/-! ## Appending an event of the system -/

section Envelope

variable (s : InMemoryEventStore) (e : SystemEvent F64) (id : Ulid) (now : OffsetDateTime)

/-- An envelope whose version follows its own aggregate is appended. -/
theorem appendOk_of_version {v : ℕ} (hv : v = s.latestVersion e.aggregateId + 1) :
    s.appendOk (e.intoEnvelope v id now) = s.push (e.intoEnvelope v id now) := by
  rw [appendOk_eq]
  exact if_pos hv

/-- An envelope with any other version is dropped. -/
theorem appendOk_of_version_ne {v : ℕ} (hv : v ≠ s.latestVersion e.aggregateId + 1) :
    s.appendOk (e.intoEnvelope v id now) = s := by
  rw [appendOk_eq]
  exact if_neg hv

theorem latestVersion_push (event : EventEnvelope) (a : String) :
    (s.push event).latestVersion a =
      s.latestVersion a + if event.aggregateId = a then 1 else 0 := by
  unfold latestVersion push pushIndex
  dsimp only
  split_ifs with ha
  · subst ha
    rw [Finmap.lookup_insert]
    cases s.byAggregate.lookup event.aggregateId <;> simp
  · rw [Finmap.lookup_insert_of_ne _ (Ne.symm ha)]
    rfl

end Envelope

end InMemoryEventStore

end TORdex
