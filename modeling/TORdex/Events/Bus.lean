import TORdex.Core.Json
import TORdex.Core.Ulid

/-!
# The event buses

Both buses publish the same bodies and filter them by topic in the same way.  A receiver of the in-memory
bus gets exactly the messages sent after it was created, in order; a `XREAD` returns the entries of the
stream with larger ids, at most 64 of them.  A subscription of the Redis bus reads the stream from its
beginning.
-/

namespace TORdex.Events

/-- The errors of an event bus. -/
inductive EventBusError where
  | unavailable (message : String)
  | encoding (message : String)
  deriving DecidableEq, Repr

/-- An event of a topic, as it is sent. -/
structure EventEnvelope where
  id : Ulid
  topic : String
  occurredAt : OffsetDateTime
  payload : Json

/-- `serde_json` on byte strings, and the JSON form of a time. -/
structure Serde (Bytes : Type) where
  toVec : Json → Bytes
  fromSlice : Bytes → Except String Json
  timeToJson : OffsetDateTime → Json
  timeFromJson : Json → Except String OffsetDateTime

namespace EventEnvelope

variable {Bytes : Type} (serde : Serde Bytes)

/-- The object keys are sorted. -/
def encode (env : EventEnvelope) : Bytes :=
  serde.toVec (.obj [("id", .str env.id.toString), ("occurred_at", serde.timeToJson env.occurredAt),
    ("payload", env.payload), ("topic", .str env.topic)])

/-- The message for a string that is not a ULID. -/
def invalidId (s : String) : String :=
  "invalid id: " ++ if s.length = 26 then "invalid character" else "invalid length"

/-- The envelope in a body. -/
def decode (bytes : Bytes) : Except EventBusError EventEnvelope := do
  let value ← (serde.fromSlice bytes).mapError .encoding
  let idStr ← ((value.get "id").bind Json.asStr).elim (.error (.encoding "missing id")) .ok
  let id ← (Ulid.fromString idStr).elim (.error (.encoding (invalidId idStr))) .ok
  let topic ← ((value.get "topic").bind Json.asStr).elim (.error (.encoding "missing topic")) .ok
  let occurredAt ← (value.get "occurred_at").elim (.error (.encoding "missing occurred_at")) .ok
  let occurredAt ← (serde.timeFromJson occurredAt).mapError .encoding
  let payload ← (value.get "payload").elim (.error (.encoding "missing payload")) .ok
  pure ⟨id, topic, occurredAt, payload⟩

/-- When JSON and times survive `serde`, envelopes do. -/
theorem decode_encode (json : ∀ j, serde.fromSlice (serde.toVec j) = .ok j)
    (time : ∀ t, serde.timeFromJson (serde.timeToJson t) = .ok t) (env : EventEnvelope) :
    decode serde (env.encode serde) = .ok env := by
  unfold decode encode
  rw [json]
  simp [Except.mapError, Json.get, Json.asStr, Ulid.fromString_toString, time, bind, Except.bind, pure,
    Except.pure]

end EventEnvelope

/-- What a stream yields. -/
abbrev Item := Except EventBusError EventEnvelope

section Buses

variable {Bytes : Type} (serde : Serde Bytes)

/-- What a body gives on the stream of a topic: both buses have these arms. -/
def yields (topic : String) (body : Bytes) : Option Item :=
  match EventEnvelope.decode serde body with
  | .ok env => if env.topic = topic then some (.ok env) else none
  | .error e => some (.error e)

/-- A subscription of the in-memory bus, with the messages that it has not taken yet. -/
structure Receiver (Bytes : Type) where
  topic : String
  queue : List Bytes
  yielded : List Item

namespace Receiver

/-- Add a body to the queue of a receiver. -/
def send (body : Bytes) (r : Receiver Bytes) : Receiver Bytes := { r with queue := r.queue ++ [body] }

/-- One round of the loop of the stream: take a message. -/
def recv (r : Receiver Bytes) : Receiver Bytes :=
  match r.queue with
  | [] => r
  | body :: queue => { r with
      queue
      yielded := r.yielded ++ (yields serde r.topic body).toList }

end Receiver

/-- A subscription of the Redis bus. -/
structure Reader where
  topic : String
  lastId : ℕ
  yielded : List Item

/-- `XREAD` with a count of 64. -/
def xread (entries : List (ℕ × Bytes)) (lastId : ℕ) : List (ℕ × Bytes) :=
  (entries.filter fun entry => lastId < entry.1).take 64

namespace Reader

/-- One round of the loop of the spawned task. -/
def read (entries : List (ℕ × Bytes)) (r : Reader) : Reader :=
  (xread entries r.lastId).foldl (fun r entry => { r with
    lastId := entry.1
    yielded := r.yielded ++ (yields serde r.topic entry.2).toList }) r

end Reader

/-- The two buses under the same calls. -/
structure Buses (Bytes : Type) where
  receivers : List (Receiver Bytes)
  entries : List (ℕ × Bytes)
  lastGenerated : ℕ
  readers : List Reader

/-- A call on both buses, or a round of one of the subscriptions.  `XADD` with `*` makes an id above the
last one. -/
inductive Call where
  | publish (envelope : EventEnvelope) (gap : ℕ)
  | subscribe (topic : String)
  | recv (subscription : ℕ)
  | read (subscription : ℕ)

namespace Buses

/-- Before the first call. -/
def start : Buses Bytes := ⟨[], [], 0, []⟩

/-- The effect of a call. -/
def step (b : Buses Bytes) : Call → Buses Bytes
  | .publish envelope gap =>
    let body := envelope.encode serde
    { b with
      receivers := b.receivers.map (Receiver.send body)
      entries := b.entries ++ [(b.lastGenerated + 1 + gap, body)]
      lastGenerated := b.lastGenerated + 1 + gap }
  | .subscribe topic => { b with
      receivers := b.receivers ++ [⟨topic, [], []⟩]
      readers := b.readers ++ [⟨topic, 0, []⟩] }
  | .recv i => { b with receivers := b.receivers.modify i (Receiver.recv serde) }
  | .read i => { b with readers := b.readers.modify i (Reader.read serde b.entries) }

/-- The effect of a list of calls. -/
def run (b : Buses Bytes) (calls : List Call) : Buses Bytes := calls.foldl (step serde) b

/-- The items that a subscription has yielded on the in-memory bus. -/
def memoryItems (b : Buses Bytes) (i : ℕ) : Option (List Item) := b.receivers[i]?.map (·.yielded)

/-- The items that a subscription has yielded on the Redis bus. -/
def redisItems (b : Buses Bytes) (i : ℕ) : Option (List Item) := b.readers[i]?.map (·.yielded)

/-- Both streams of a subscription have taken all there is. -/
def CaughtUp (b : Buses Bytes) (i : ℕ) : Prop :=
  (∀ r, b.receivers[i]? = some r → r.queue = []) ∧
    ∀ r, b.readers[i]? = some r → ∀ entry ∈ b.entries, entry.1 ≤ r.lastId

end Buses

/-- The envelopes that calls publish. -/
def envelopes (calls : List Call) : List EventEnvelope :=
  calls.filterMap fun
    | .publish envelope _ => some envelope
    | _ => none

/-- How many subscriptions calls make. -/
def subscriptions (calls : List Call) : ℕ :=
  calls.countP fun
    | .subscribe _ => true
    | _ => false

end Buses

end TORdex.Events
