import TORdex.Core.SystemEvent

/-! The objects of the universal object model, and what is stored of them.  A confidence is an `F64`
in memory and an `Option Decimal` in a file, where a float that is not finite has become `null`. -/

namespace TORdex

/-- How severe a finding is. -/
inductive Severity where
  | info
  | low
  | medium
  | high
  | critical
  deriving DecidableEq, Repr

/-- The status of a decision. -/
inductive DecisionStatus where
  | proposed
  | approved
  | rejected
  | executed
  | failed
  deriving DecidableEq, Repr

/-- The status of an investigation. -/
inductive InvestigationStatus where
  | «open»
  | closed
  | archived
  deriving DecidableEq, Repr

/-- The status of a service. -/
inductive ServiceStatus where
  | active
  | inactive
  | error
  deriving DecidableEq, Repr

/-- Parse a severity string from an event. -/
def parseSeverity (s : String) : Severity :=
  if s = "info" then .info
  else if s = "low" then .low
  else if s = "medium" then .medium
  else if s = "high" then .high
  else if s = "critical" then .critical
  else .info

/-- Parse a decision status string from an event. -/
def parseDecisionStatus (s : String) : DecisionStatus :=
  if s = "proposed" then .proposed
  else if s = "approved" then .approved
  else if s = "rejected" then .rejected
  else if s = "executed" then .executed
  else if s = "failed" then .failed
  else .proposed

/-- Parse a service status string from an event. -/
def parseServiceStatus (s : String) : ServiceStatus :=
  if s = "active" then .active
  else if s = "inactive" then .inactive
  else if s = "error" then .error
  else .active

/-- Texts by their keys. -/
abbrev Metadata := HashMap String String

/-- What was observed. -/
structure Observation where
  id : Ulid
  kind : String
  data : List UInt8
  contentType : Option String
  source : String
  observedAt : OffsetDateTime
  createdAt : OffsetDateTime
  metadata : Metadata

/-- A stored artifact. -/
structure Artifact where
  id : Ulid
  sessionId : Ulid
  kind : String
  contentType : Option String
  byteCount : ℕ
  sha256 : String
  storagePath : String
  createdAt : OffsetDateTime
  metadata : Metadata

/-- What was extracted from an artifact. -/
structure Evidence (φ : Type) where
  id : Ulid
  artifactId : Ulid
  kind : String
  value : Json
  confidence : φ
  createdAt : OffsetDateTime
  metadata : Metadata

/-- Something that is known by a name. -/
structure Entity where
  id : Ulid
  kind : String
  name : String
  attributes : Metadata
  firstSeen : OffsetDateTime
  lastSeen : OffsetDateTime
  createdAt : OffsetDateTime
  metadata : Metadata

/-- A relationship of two things. -/
structure Relationship where
  id : Ulid
  kind : String
  sourceType : String
  sourceId : String
  targetType : String
  targetId : String
  properties : Metadata
  firstSeen : OffsetDateTime
  lastSeen : OffsetDateTime
  createdAt : OffsetDateTime
  metadata : Metadata

/-- What was concluded. -/
structure Knowledge (φ : Type) where
  id : Ulid
  kind : String
  content : Json
  confidence : φ
  sourceIds : List String
  createdAt : OffsetDateTime
  metadata : Metadata

/-- A finding of an investigation. -/
structure Finding (φ : Type) where
  id : Ulid
  investigationId : Ulid
  kind : String
  title : String
  description : String
  severity : Severity
  confidence : φ
  sourceIds : List String
  createdAt : OffsetDateTime
  metadata : Metadata

/-- A decision on findings. -/
structure Decision where
  id : Ulid
  findingIds : List Ulid
  kind : String
  rationale : String
  actor : String
  status : DecisionStatus
  createdAt : OffsetDateTime
  executedAt : Option OffsetDateTime
  metadata : Metadata

/-- An entry of a timeline. -/
structure TimelineEntry where
  id : String
  timestamp : OffsetDateTime
  kind : String
  sourceId : String
  summary : String
  metadata : Metadata

/-- The timeline of an investigation. -/
structure Timeline where
  id : Ulid
  investigationId : Ulid
  entries : List TimelineEntry
  createdAt : OffsetDateTime
  metadata : Metadata

/-- An investigation with its status. -/
structure Investigation where
  id : Ulid
  title : String
  description : String
  status : InvestigationStatus
  owner : String
  tags : List String
  createdAt : OffsetDateTime
  updatedAt : OffsetDateTime
  metadata : Metadata

/-- A service with its status. -/
structure Service where
  id : Ulid
  name : String
  kind : String
  locator : String
  status : ServiceStatus
  version : Option String
  createdAt : OffsetDateTime
  metadata : Metadata

/-- The confidence of an object as JSON. -/
def Evidence.toJson (e : Evidence F64) : Evidence (Option Decimal) :=
  { e with confidence := e.confidence.toJson }

/-- The knowledge as JSON has it. -/
def Knowledge.toJson (k : Knowledge F64) : Knowledge (Option Decimal) :=
  { k with confidence := k.confidence.toJson }

/-- The finding as JSON has it. -/
def Finding.toJson (f : Finding F64) : Finding (Option Decimal) :=
  { f with confidence := f.confidence.toJson }

/-- A `null` does not read as a float. -/
def Finding.fromJson (f : Finding (Option Decimal)) : Option (Finding F64) :=
  f.confidence.map fun d => { f with confidence := .finite d }

/-- The contents of a file.  The records of agents and of monitored changes carry their timestamp as
text. -/
inductive Stored where
  | observation (o : Observation)
  | artifact (a : Artifact)
  | evidence (e : Evidence (Option Decimal))
  | entity (e : Entity)
  | relationship (r : Relationship)
  | knowledge (k : Knowledge (Option Decimal))
  | finding (f : Finding (Option Decimal))
  | decision (d : Decision)
  | timeline (t : Timeline)
  | investigation (i : Investigation)
  | service (s : Service)
  | agentStarted (id name kind version status : String) (timestamp : OffsetDateTime)
  | agentStopped (id status reason : String) (timestamp : OffsetDateTime)
  | agentHeartbeat (agentId status : String) (timestamp : OffsetDateTime)
  | monitoringChange (id watcherKind subject changeType : String) (currentState : Json)
      (detectedAt : OffsetDateTime)

end TORdex
