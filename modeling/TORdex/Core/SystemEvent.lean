import TORdex.Core.Json
import TORdex.Core.Ulid

/-!
# Kernel events

`SystemEvent φ` has the 25 payload variants of `event_store.rs`, with the floats in the
representation `φ`: `F64` in a running program, `Option Decimal` in a JSON payload, where a float
that is not finite has become `null`.
-/

namespace TORdex

/-- Strongly-typed payload variants for all kernel events. -/
inductive SystemEvent (φ : Type) where
  | entityCreated (id kind name : String) (attributes : HashMap String String)
      (firstSeen : OffsetDateTime)
  | entityUpdated (id : String) (kind name : Option String)
      (attributes : Option (HashMap String String))
  | entityDeleted (id : String)
  | observationRecorded (id kind : String) (data : List UInt8) (contentType : Option String)
      (source : String) (observedAt : OffsetDateTime)
  | artifactStored (id sessionId kind : String) (contentType : Option String) (byteCount : ℕ)
      (sha256 storagePath : String)
  | artifactDeleted (id : String)
  | evidenceExtracted (id artifactId kind : String) (value : Json) (confidence : φ)
  | relationshipEstablished (id kind sourceType sourceId targetType targetId : String)
  | relationshipDeleted (id : String)
  | knowledgeProduced (id kind : String) (content : Json) (confidence : φ)
      (sourceIds : List String)
  | findingCreated (id investigationId kind title description severity : String) (confidence : φ)
      (sourceIds : List String)
  | findingUpdated (id : String) (title description severity : Option String)
      (confidence : Option φ)
  | decisionMade (id : String) (findingIds : List String) (kind rationale actor status : String)
  | decisionExecuted (id : String)
  | serviceRegistered (id name kind locator status : String) (version : Option String)
  | serviceUpdated (id : String) (name status version : Option String)
  | serviceDeleted (id : String)
  | investigationOpened (id title description owner : String) (tags : List String)
  | investigationClosed (id : String)
  | investigationArchived (id : String)
  | timelineEntryAdded (id investigationId : String) (timestamp : OffsetDateTime)
      (kind sourceId summary : String)
  | agentStarted (id name kind version : String)
  | agentStopped (id reason : String)
  | agentHeartbeat (id status : String) (timestamp : OffsetDateTime)
  | monitoringChangeDetected (id watcherKind subject changeType : String)
      (previousState : Option Json) (currentState : Json) (detectedAt : OffsetDateTime)

namespace SystemEvent

variable {φ : Type}

/-- The aggregate type string for this event. -/
def aggregateType : SystemEvent φ → String
  | entityCreated .. | entityUpdated .. | entityDeleted .. => "Entity"
  | observationRecorded .. => "Observation"
  | artifactStored .. | artifactDeleted .. => "Artifact"
  | evidenceExtracted .. => "Evidence"
  | relationshipEstablished .. | relationshipDeleted .. => "Relationship"
  | knowledgeProduced .. => "Knowledge"
  | findingCreated .. | findingUpdated .. => "Finding"
  | decisionMade .. | decisionExecuted .. => "Decision"
  | serviceRegistered .. | serviceUpdated .. | serviceDeleted .. => "Service"
  | investigationOpened .. | investigationClosed .. | investigationArchived .. => "Investigation"
  | timelineEntryAdded .. => "Timeline"
  | agentStarted .. | agentStopped .. | agentHeartbeat .. => "Agent"
  | monitoringChangeDetected .. => "Monitoring"

/-- The event type string for this variant. -/
def eventType : SystemEvent φ → String
  | entityCreated .. => "Created"
  | entityUpdated .. => "Updated"
  | entityDeleted .. => "Deleted"
  | observationRecorded .. => "Recorded"
  | artifactStored .. => "Stored"
  | artifactDeleted .. => "Deleted"
  | evidenceExtracted .. => "Extracted"
  | relationshipEstablished .. => "Established"
  | relationshipDeleted .. => "Deleted"
  | knowledgeProduced .. => "Produced"
  | findingCreated .. => "Created"
  | findingUpdated .. => "Updated"
  | decisionMade .. => "Made"
  | decisionExecuted .. => "Executed"
  | serviceRegistered .. => "Registered"
  | serviceUpdated .. => "Updated"
  | serviceDeleted .. => "Deleted"
  | investigationOpened .. => "Opened"
  | investigationClosed .. => "Closed"
  | investigationArchived .. => "Archived"
  | timelineEntryAdded .. => "EntryAdded"
  | agentStarted .. => "Started"
  | agentStopped .. => "Stopped"
  | agentHeartbeat .. => "Heartbeat"
  | monitoringChangeDetected .. => "ChangeDetected"

/-- The aggregate ID for this event. -/
def aggregateId : SystemEvent φ → String
  | entityCreated id .. | entityUpdated id .. | entityDeleted id
  | observationRecorded id .. | artifactStored id .. | artifactDeleted id
  | evidenceExtracted id .. | relationshipEstablished id .. | relationshipDeleted id
  | knowledgeProduced id .. | findingCreated id .. | findingUpdated id ..
  | decisionMade id .. | decisionExecuted id | serviceRegistered id .. | serviceUpdated id ..
  | serviceDeleted id | investigationOpened id .. | investigationClosed id
  | investigationArchived id | timelineEntryAdded id .. | agentStarted id .. | agentStopped id ..
  | agentHeartbeat id .. | monitoringChangeDetected id .. => id

end SystemEvent

/-- A JSON payload, as far as reading it back as an event can tell: the image of an event, or
something that is not one. -/
inductive Value where
  | event (e : SystemEvent (Option Decimal))
  | other (v : Json)

namespace SystemEvent

/-- `serde_json::to_value`: every float goes through its JSON form. -/
def toValue : SystemEvent F64 → Value
  | entityCreated i k n a f => .event (entityCreated i k n a f)
  | entityUpdated i k n a => .event (entityUpdated i k n a)
  | entityDeleted i => .event (entityDeleted i)
  | observationRecorded i k d c s o => .event (observationRecorded i k d c s o)
  | artifactStored i s k c b h p => .event (artifactStored i s k c b h p)
  | artifactDeleted i => .event (artifactDeleted i)
  | evidenceExtracted i a k v c => .event (evidenceExtracted i a k v c.toJson)
  | relationshipEstablished i k st si tt ti => .event (relationshipEstablished i k st si tt ti)
  | relationshipDeleted i => .event (relationshipDeleted i)
  | knowledgeProduced i k v c s => .event (knowledgeProduced i k v c.toJson s)
  | findingCreated i n k t d s c ids => .event (findingCreated i n k t d s c.toJson ids)
  | findingUpdated i t d s c => .event (findingUpdated i t d s (c.map F64.toJson))
  | decisionMade i f k r a s => .event (decisionMade i f k r a s)
  | decisionExecuted i => .event (decisionExecuted i)
  | serviceRegistered i n k l s v => .event (serviceRegistered i n k l s v)
  | serviceUpdated i n s v => .event (serviceUpdated i n s v)
  | serviceDeleted i => .event (serviceDeleted i)
  | investigationOpened i t d o g => .event (investigationOpened i t d o g)
  | investigationClosed i => .event (investigationClosed i)
  | investigationArchived i => .event (investigationArchived i)
  | timelineEntryAdded i n t k s m => .event (timelineEntryAdded i n t k s m)
  | agentStarted i n k v => .event (agentStarted i n k v)
  | agentStopped i r => .event (agentStopped i r)
  | agentHeartbeat i s t => .event (agentHeartbeat i s t)
  | monitoringChangeDetected i w s c p v d => .event (monitoringChangeDetected i w s c p v d)

/-- `null` in an optional field reads back as `None`. -/
def optionalJson : Option Json → Option Json
  | some .null => none
  | v => v

/-- `serde_json::from_value`: `null` is refused where a float is required and is `None` where one is
optional. -/
def fromValue : Value → Option (SystemEvent F64)
  | .other _ => none
  | .event e =>
    match e with
    | entityCreated i k n a f => some (entityCreated i k n a f)
    | entityUpdated i k n a => some (entityUpdated i k n a)
    | entityDeleted i => some (entityDeleted i)
    | observationRecorded i k d c s o => some (observationRecorded i k d c s o)
    | artifactStored i s k c b h p => some (artifactStored i s k c b h p)
    | artifactDeleted i => some (artifactDeleted i)
    | evidenceExtracted i a k v c => c.map fun d => evidenceExtracted i a k v (.finite d)
    | relationshipEstablished i k st si tt ti => some (relationshipEstablished i k st si tt ti)
    | relationshipDeleted i => some (relationshipDeleted i)
    | knowledgeProduced i k v c s => c.map fun d => knowledgeProduced i k v (.finite d) s
    | findingCreated i n k t d s c ids => c.map fun x => findingCreated i n k t d s (.finite x) ids
    | findingUpdated i t d s c => some (findingUpdated i t d s (c.join.map .finite))
    | decisionMade i f k r a s => some (decisionMade i f k r a s)
    | decisionExecuted i => some (decisionExecuted i)
    | serviceRegistered i n k l s v => some (serviceRegistered i n k l s v)
    | serviceUpdated i n s v => some (serviceUpdated i n s v)
    | serviceDeleted i => some (serviceDeleted i)
    | investigationOpened i t d o g => some (investigationOpened i t d o g)
    | investigationClosed i => some (investigationClosed i)
    | investigationArchived i => some (investigationArchived i)
    | timelineEntryAdded i n t k s m => some (timelineEntryAdded i n t k s m)
    | agentStarted i n k v => some (agentStarted i n k v)
    | agentStopped i r => some (agentStopped i r)
    | agentHeartbeat i s t => some (agentHeartbeat i s t)
    | monitoringChangeDetected i w s c p v d =>
      some (monitoringChangeDetected i w s c (optionalJson p) v d)

/-- The floats of the event that the JSON form requires are finite. -/
def requiredFinite : SystemEvent F64 → Bool
  | evidenceExtracted _ _ _ _ c | knowledgeProduced _ _ _ c _ | findingCreated _ _ _ _ _ _ c _ =>
    c.isFinite
  | _ => true

/-- What survives of an event in its JSON form: an optional float that is not finite and an optional
`null` are gone. -/
def normalize : SystemEvent F64 → SystemEvent F64
  | findingUpdated i t d s c => findingUpdated i t d s (c.filter F64.isFinite)
  | monitoringChangeDetected i w s c p v d => monitoringChangeDetected i w s c (optionalJson p) v d
  | e => e

/-- Writing an event and reading it back. -/
theorem fromValue_toValue (e : SystemEvent F64) :
    fromValue e.toValue = if e.requiredFinite then some e.normalize else none := by
  cases e with
  | evidenceExtracted _ _ _ _ c => cases c <;> rfl
  | knowledgeProduced _ _ _ c _ => cases c <;> rfl
  | findingCreated _ _ _ _ _ _ c _ => cases c <;> rfl
  | findingUpdated _ _ _ _ c =>
    rcases c with _ | (_ | _ | _) <;> rfl
  | _ => rfl

@[simp] theorem aggregateType_normalize (e : SystemEvent F64) :
    e.normalize.aggregateType = e.aggregateType := by cases e <;> rfl

end SystemEvent

end TORdex
