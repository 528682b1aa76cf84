import TORdex.Core.EventStore
import TORdex.Vifs.Types

/-!
# The virtual intelligence filesystem

Paths, the flat storage behind them, the projection of events and the replay of an event store.
-/

namespace TORdex

/-! ## Paths -/

/-- A virtual path. -/
structure VifsPath where
  raw : String
  deriving DecidableEq, Repr

/-- `strip_prefix('/')`. -/
def stripLeading (s : String) : String :=
  match s.toList with
  | '/' :: rest => String.ofList rest
  | _ => s

/-- `strip_suffix('/')`. -/
def stripTrailing (s : String) : String :=
  if s.toList.getLast? = some '/' then String.ofList s.toList.dropLast else s

theorem stripLeading_slash (s : String) : stripLeading ("/" ++ s) = s := by
  unfold stripLeading
  have chars : ("/" ++ s).toList = '/' :: s.toList := by simp
  rw [chars]
  exact String.ofList_toList

namespace VifsPath

/-- Build a path from components. -/
def join (base child : String) : VifsPath := ⟨stripTrailing base ++ "/" ++ stripLeading child⟩

/-- The path of an entity. -/
def entity (id : Ulid) : VifsPath := join "/entities/" id.toString

/-- The path of an artifact. -/
def artifact (id : Ulid) : VifsPath := join "/artifacts/" id.toString

/-- The path of an observation. -/
def observation (id : Ulid) : VifsPath := join "/observations/" id.toString

/-- The path of a piece of evidence. -/
def evidence (id : Ulid) : VifsPath := join "/evidence/" id.toString

/-- The path of a relationship. -/
def relationship (id : Ulid) : VifsPath := join "/relationships/" id.toString

/-- The path of a piece of knowledge. -/
def knowledge (id : Ulid) : VifsPath := join "/knowledge/" id.toString

/-- The path of a finding. -/
def finding (id : Ulid) : VifsPath := join "/findings/" id.toString

/-- The path of a decision. -/
def decision (id : Ulid) : VifsPath := join "/decisions/" id.toString

/-- The path of a timeline. -/
def timeline (id : Ulid) : VifsPath := join "/timelines/" id.toString

/-- The path of an investigation. -/
def investigation (id : Ulid) : VifsPath := join "/investigations/" id.toString

/-- The path of a service. -/
def service (id : Ulid) : VifsPath := join "/services/" id.toString

/-- The storage key: the path under `vifs/`. -/
def toKey (p : VifsPath) : String :=
  if stripLeading p.raw = "" then "vifs" else "vifs" ++ "/" ++ stripLeading p.raw

/-- The storage key of a path below the root. -/
theorem toKey_slash {s : String} (h : s ≠ "") : toKey ⟨"/" ++ s⟩ = "vifs/" ++ s := by
  unfold toKey
  rw [stripLeading_slash, if_neg h]
  rfl

end VifsPath

/-! ## Storage -/

/-- The errors of the filesystem. -/
inductive VifsError where
  | notFound (path : String)
  | serialization (message : String)
  | storage (message : String)
  | invalidPath (message : String)
  deriving DecidableEq, Repr

/-- The files by their storage keys. -/
abbrev Vifs := HashMap String Stored

namespace Vifs

/-- The content of a file. -/
def read (v : Vifs) (path : VifsPath) : Except VifsError Stored :=
  match v.lookup path.toKey with
  | some x => .ok x
  | none => .error (.notFound path.raw)

/-- Write a file, in place of an earlier one. -/
def write (v : Vifs) (path : VifsPath) (x : Stored) : Except VifsError Vifs :=
  if path.toKey = "vifs" then .error (.invalidPath "cannot write to root")
  else .ok (v.insert path.toKey x)

/-- Delete a file. -/
def delete (v : Vifs) (path : VifsPath) : Except VifsError Vifs :=
  if (v.lookup path.toKey).isSome then .ok (v.erase path.toKey) else .error (.notFound path.raw)

/-- There is a file. -/
def existsAt (v : Vifs) (path : VifsPath) : Bool := (v.lookup path.toKey).isSome

/-- `if self.exists(&path)`: read the object, change it and write it back. -/
def modify (v : Vifs) (path : VifsPath) (change : Stored → Except VifsError Stored) :
    Except VifsError Vifs :=
  if v.existsAt path then do
    let x ← v.read path
    let y ← change x
    v.write path y
  else .ok v

end Vifs

/-! ## Reading an object -/

/-- The file does not hold the JSON of such an object. -/
def malformed {α : Type} : Except VifsError α := .error (.serialization "invalid type")

namespace Stored

/-- The entity in a file. -/
def asEntity : Stored → Except VifsError Entity
  | .entity e => .ok e
  | _ => malformed

/-- The finding in a file; without a confidence it is not read. -/
def asFinding : Stored → Except VifsError (Finding F64)
  | .finding f =>
    match f.fromJson with
    | some f => .ok f
    | none => .error (.serialization "invalid type: null, expected f64")
  | _ => malformed

/-- The decision in a file. -/
def asDecision : Stored → Except VifsError Decision
  | .decision d => .ok d
  | _ => malformed

/-- The service in a file. -/
def asService : Stored → Except VifsError Service
  | .service s => .ok s
  | _ => malformed

/-- The investigation in a file. -/
def asInvestigation : Stored → Except VifsError Investigation
  | .investigation i => .ok i
  | _ => malformed

/-- The timeline in a file. -/
def asTimeline : Stored → Except VifsError Timeline
  | .timeline t => .ok t
  | _ => malformed

end Stored

/-! ## Projection -/

/-- `id.parse()`, with the error of the projector. -/
def parseId (what id : String) : Except VifsError Ulid :=
  match Ulid.fromString id with
  | some u => .ok u
  | none => .error (.invalidPath ("invalid " ++ what ++ " id: " ++ id))

namespace Vifs

/-- Project a single event, creating or updating the corresponding object. -/
def projectEvent (r : Readings) (v : Vifs) : SystemEvent F64 → Except VifsError Vifs
  | .entityCreated id kind name attributes firstSeen => do
    let eid ← parseId "entity" id
    v.write (.entity eid) (.entity {
      id := eid, kind, name, attributes, firstSeen
      lastSeen := firstSeen
      createdAt := r.now 0
      metadata := ∅ })
  | .entityUpdated id kind name attributes => do
    let eid ← parseId "entity" id
    v.modify (.entity eid) fun x => do
      let entity ← x.asEntity
      .ok (.entity { entity with
        kind := kind.getD entity.kind
        name := name.getD entity.name
        attributes := attributes.getD entity.attributes
        lastSeen := r.now 0 })
  | .entityDeleted id => do
    let eid ← parseId "entity" id
    v.delete (.entity eid)
  | .observationRecorded id kind data contentType source observedAt => do
    let oid ← parseId "observation" id
    v.write (.observation oid) (.observation {
      id := oid, kind, data, contentType, source, observedAt
      createdAt := r.now 0
      metadata := ∅ })
  | .artifactStored id sessionId kind contentType byteCount sha256 storagePath => do
    let aid ← parseId "artifact" id
    let sid ← parseId "session" sessionId
    v.write (.artifact aid) (.artifact {
      id := aid, sessionId := sid, kind, contentType, byteCount, sha256, storagePath
      createdAt := r.now 0
      metadata := ∅ })
  | .artifactDeleted id => do
    let aid ← parseId "artifact" id
    v.delete (.artifact aid)
  | .evidenceExtracted id artifactId kind value confidence => do
    let eid ← parseId "evidence" id
    let aid ← parseId "artifact" artifactId
    let evidence : Evidence F64 := {
      id := eid, artifactId := aid, kind, value, confidence
      createdAt := r.now 0
      metadata := ∅ }
    v.write (.evidence eid) (.evidence evidence.toJson)
  | .relationshipEstablished id kind sourceType sourceId targetType targetId => do
    let rid ← parseId "relationship" id
    v.write (.relationship rid) (.relationship {
      id := rid, kind, sourceType, sourceId, targetType, targetId
      properties := ∅
      firstSeen := r.now 0
      lastSeen := r.now 1
      createdAt := r.now 2
      metadata := ∅ })
  | .relationshipDeleted id => do
    let rid ← parseId "relationship" id
    v.delete (.relationship rid)
  | .knowledgeProduced id kind content confidence sourceIds => do
    let kid ← parseId "knowledge" id
    let knowledge : Knowledge F64 := {
      id := kid, kind, content, confidence, sourceIds
      createdAt := r.now 0
      metadata := ∅ }
    v.write (.knowledge kid) (.knowledge knowledge.toJson)
  | .findingCreated id investigationId kind title description severity confidence sourceIds => do
    let fid ← parseId "finding" id
    let iid ← parseId "investigation" investigationId
    let finding : Finding F64 := {
      id := fid, investigationId := iid, kind, title, description
      severity := parseSeverity severity
      confidence, sourceIds
      createdAt := r.now 0
      metadata := ∅ }
    v.write (.finding fid) (.finding finding.toJson)
  | .findingUpdated id title description severity confidence => do
    let fid ← parseId "finding" id
    v.modify (.finding fid) fun x => do
      let finding ← x.asFinding
      let finding := { finding with
        title := title.getD finding.title
        description := description.getD finding.description
        severity := (severity.map parseSeverity).getD finding.severity
        confidence := confidence.getD finding.confidence }
      .ok (.finding finding.toJson)
  | .decisionMade id findingIds kind rationale actor status => do
    let did ← parseId "decision" id
    v.write (.decision did) (.decision {
      id := did
      findingIds := findingIds.filterMap Ulid.fromString
      kind, rationale, actor
      status := parseDecisionStatus status
      createdAt := r.now 0
      executedAt := none
      metadata := ∅ })
  | .decisionExecuted id => do
    let did ← parseId "decision" id
    v.modify (.decision did) fun x => do
      let decision ← x.asDecision
      .ok (.decision { decision with status := .executed, executedAt := some (r.now 0) })
  | .serviceRegistered id name kind locator status version => do
    let sid ← parseId "service" id
    v.write (.service sid) (.service {
      id := sid, name, kind, locator
      status := parseServiceStatus status
      version
      createdAt := r.now 0
      metadata := ∅ })
  | .serviceUpdated id name status version => do
    let sid ← parseId "service" id
    v.modify (.service sid) fun x => do
      let svc ← x.asService
      .ok (.service { svc with
        name := name.getD svc.name
        status := (status.map parseServiceStatus).getD svc.status
        version := version.or svc.version })
  | .serviceDeleted id => do
    let sid ← parseId "service" id
    v.delete (.service sid)
  | .investigationOpened id title description owner tags => do
    let iid ← parseId "investigation" id
    v.write (.investigation iid) (.investigation {
      id := iid, title, description
      status := .open
      owner, tags
      createdAt := r.now 0
      updatedAt := r.now 1
      metadata := ∅ })
  | .investigationClosed id => do
    let iid ← parseId "investigation" id
    v.modify (.investigation iid) fun x => do
      let inv ← x.asInvestigation
      .ok (.investigation { inv with status := .closed, updatedAt := r.now 0 })
  | .investigationArchived id => do
    let iid ← parseId "investigation" id
    v.modify (.investigation iid) fun x => do
      let inv ← x.asInvestigation
      .ok (.investigation { inv with status := .archived, updatedAt := r.now 0 })
  | .timelineEntryAdded id investigationId timestamp kind sourceId summary => do
    let tid ← parseId "timeline" id
    let iid ← parseId "investigation" investigationId
    let entry : TimelineEntry := { id, timestamp, kind, sourceId, summary, metadata := ∅ }
    let timeline ←
      if v.existsAt (.timeline tid) then do
        let x ← v.read (.timeline tid)
        x.asTimeline
      else .ok {
        id := tid
        investigationId := iid
        entries := []
        createdAt := r.now 0
        metadata := ∅ }
    v.write (.timeline tid) (.timeline { timeline with entries := timeline.entries ++ [entry] })
  | .agentStarted id name kind version =>
    v.write ⟨"/agents/" ++ id⟩ (.agentStarted id name kind version "running" (r.now 0))
  | .agentStopped id reason =>
    v.write ⟨"/agents/" ++ id⟩ (.agentStopped id "stopped" reason (r.now 0))
  | .agentHeartbeat id status _ =>
    v.write ⟨"/agents/" ++ id ++ "/heartbeats/" ++ (r.ulid 0).toString⟩
      (.agentHeartbeat id status (r.now 0))
  | .monitoringChangeDetected id watcherKind subject changeType _ currentState detectedAt =>
    v.write ⟨"/monitoring/changes/" ++ id⟩
      (.monitoringChange id watcherKind subject changeType currentState detectedAt)

/-! ## Replay -/

/-- The aggregate types that a replay reads. -/
def aggTypes : List String :=
  ["Entity", "Observation", "Artifact", "Evidence", "Relationship", "Knowledge", "Finding",
    "Decision", "Service", "Investigation", "Timeline"]

/-- Project the events of one aggregate type; `rs k` are the readings of the `k`-th event of the
replay.  A failure keeps the files written before it. -/
def replayEvents (rs : ℕ → Readings) :
    List EventEnvelope → ℕ → Vifs → Except VifsError ℕ × Vifs
  | [], total, v => (.ok total, v)
  | envelope :: events, total, v =>
    match SystemEvent.fromValue envelope.data with
    | none => (.error (.serialization "invalid event"), v)
    | some e =>
      match v.projectEvent (rs total) e with
      | .error err => (.error err, v)
      | .ok v' => replayEvents rs events (total + 1) v'

/-- The loop over the aggregate types; `none` when the store panics. -/
def replayTypes (rs : ℕ → Readings) (store : InMemoryEventStore) :
    List String → ℕ → Vifs → Option (Except VifsError ℕ × Vifs)
  | [], total, v => some (.ok total, v)
  | t :: types, total, v =>
    match store.readAll t with
    | none => none
    | some events =>
      match replayEvents rs events total v with
      | (.error err, v') => some (.error err, v')
      | (.ok total', v') => replayTypes rs store types total' v'

/-- Replay all events of a store; returns the number of events projected. -/
def replayFromEventStore (rs : ℕ → Readings) (v : Vifs) (store : InMemoryEventStore) :
    Option (Except VifsError ℕ × Vifs) :=
  replayTypes rs store aggTypes 0 v

end Vifs

end TORdex
