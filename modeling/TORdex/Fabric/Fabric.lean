import TORdex.Core.EventStore
import TORdex.Fabric.Queue

/-! The collection session state machine. -/

namespace TORdex

/-- The state of a session. -/
inductive SessionState where
  | queued
  | running
  | succeeded
  | failed
  | cancelled
  deriving DecidableEq, Repr

/-- The `Debug` name of a state. -/
def SessionState.debug : SessionState → String
  | .queued => "Queued"
  | .running => "Running"
  | .succeeded => "Succeeded"
  | .failed => "Failed"
  | .cancelled => "Cancelled"

/-- A task with its attempts and their outcome. -/
structure CollectionSession where
  taskId : String
  target : String
  driver : String
  capability : String
  state : SessionState
  attempt : ℕ
  maxRetries : ℕ
  result : Option Json
  error : Option String
  queuedAt : OffsetDateTime
  startedAt : Option OffsetDateTime
  completedAt : Option OffsetDateTime
  metadata : HashMap String String

/-- All valid state transitions. -/
def allowedTransition : SessionState → SessionState → Bool
  | .queued, .running | .queued, .cancelled => true
  | .running, .succeeded | .running, .failed | .running, .cancelled => true
  | .failed, .queued | .failed, .cancelled => true
  | _, _ => false

/-- The session after an allowed transition: entering `Running` counts an attempt. -/
def CollectionSession.enter (s : CollectionSession) (next : SessionState) (result : Option Json)
    (error : Option String) (now : OffsetDateTime) : CollectionSession where
  taskId := s.taskId
  target := s.target
  driver := s.driver
  capability := s.capability
  state := next
  attempt := if next = .running then s.attempt + 1 else s.attempt
  maxRetries := s.maxRetries
  result := result.or s.result
  error := error.or s.error
  queuedAt := s.queuedAt
  startedAt := if next = .running then some now else s.startedAt
  completedAt :=
    match next with
    | .succeeded | .failed | .cancelled => some now
    | _ => s.completedAt
  metadata := s.metadata

/-- The sessions by task id. -/
abbrev SessionManager := HashMap String CollectionSession

namespace SessionManager

/-- Create a new session in the Queued state, over whatever session the id had. -/
def create (m : SessionManager) (taskId target driver capability : String) (maxRetries : ℕ)
    (metadata : HashMap String String) (now : OffsetDateTime) : SessionManager :=
  m.insert taskId {
    taskId, target, driver, capability
    state := .queued
    attempt := 0
    maxRetries
    result := none
    error := none
    queuedAt := now
    startedAt := none
    completedAt := none
    metadata }

/-- Transition a session to a new state. -/
def transition (m : SessionManager) (taskId : String) (next : SessionState) (result : Option Json)
    (error : Option String) (now : OffsetDateTime) : Except FabricError SessionManager :=
  match m.lookup taskId with
  | none => .error (.taskNotFound taskId)
  | some s =>
    if allowedTransition s.state next then .ok (m.insert taskId (s.enter next result error now))
    else .error (.session s!"invalid transition: {s.state.debug} → {next.debug}")

/-- Whether a session should be retried (failed + attempts < `max_retries`). -/
def shouldRetry (m : SessionManager) (taskId : String) : Bool :=
  match m.lookup taskId with
  | some s => s.state = .failed ∧ s.attempt < s.maxRetries
  | none => false

section Transition

variable {m : SessionManager} {taskId : String} {s : CollectionSession} {next : SessionState}
  {result : Option Json} {error : Option String} {now : OffsetDateTime}

theorem transition_allowed (hs : m.lookup taskId = some s) (h : allowedTransition s.state next) :
    m.transition taskId next result error now =
      .ok (m.insert taskId (s.enter next result error now)) := by
  simp only [transition, hs, h, if_true]

/-- A transition that succeeds was allowed, and replaces that one session. -/
theorem transition_ok {m' : SessionManager}
    (h : m.transition taskId next result error now = .ok m') :
    ∃ s, m.lookup taskId = some s ∧ allowedTransition s.state next ∧
      m' = m.insert taskId (s.enter next result error now) := by
  unfold transition at h
  split at h
  · cases h
  · rename_i s hs
    split_ifs at h with ha
    cases h
    exact ⟨s, hs, ha, rfl⟩

end Transition

/-- A session starts running from the queue only. -/
theorem allowedTransition_running {s : SessionState} (h : allowedTransition s .running) :
    s = .queued := by
  cases s <;> simp_all [allowedTransition]

end SessionManager

end TORdex

/-!
## The collection fabric

`submit`, `cancel` and `processNext` over the queue, the sessions and the event log.  The clock
readings and fresh ULIDs of a call are its argument `Readings`; a call of the driver registry is the
function the registry is at that moment, so a run may see any sequence of driver outcomes.
-/

namespace TORdex

/-- The errors of a driver. -/
inductive DriverError where
  | capabilityNotFound (driver capability : String)
  | driverNotFound (driver : String)
  | execution (message : String)
  | invalidParameters (message : String)
  | alreadyRegistered (driver : String)
  deriving DecidableEq, Repr

/-- The text of an error. -/
def DriverError.message : DriverError → String
  | .capabilityNotFound driver capability =>
    "driver '" ++ driver ++ "' has no capability '" ++ capability ++ "'"
  | .driverNotFound driver => "driver '" ++ driver ++ "' not found"
  | .execution message => "execution error: " ++ message
  | .invalidParameters message => "invalid parameters: " ++ message
  | .alreadyRegistered driver => "driver '" ++ driver ++ "' already registered"

/-- `DriverRegistry::execute`, as it answers at one moment. -/
abbrev DriverRegistry := String → String → Json → Except DriverError Json

/-- The queue, the sessions and the log of a fabric. -/
structure CollectionFabric where
  queue : PriorityQueue
  sessions : SessionManager
  events : InMemoryEventStore
  running : Bool

namespace CollectionFabric

/-- A fabric without tasks. -/
def new (events : InMemoryEventStore) : CollectionFabric := ⟨.new, ∅, events, true⟩

/-- Append an event under the version that follows the aggregate `versioned`; a rejected append is
dropped. -/
def emit (events : InMemoryEventStore) (versioned : String) (e : SystemEvent F64) (ulid : Ulid)
    (now : OffsetDateTime) : InMemoryEventStore :=
  events.appendOk (e.intoEnvelope (events.latestVersion versioned + 1) ulid now)

/-- The event of an accepted submission. -/
def queuedEvent (task : CollectionTask) : SystemEvent F64 :=
  .serviceRegistered task.id ("collection:" ++ task.target.locator) "collection"
    task.target.locator "active" none

/-- The event of a task that starts running. -/
def runningEvent (taskId : String) : SystemEvent F64 :=
  .serviceUpdated taskId none (some "active") none

/-- The event of a task whose driver succeeded. -/
def successEvent (task : CollectionTask) (output : Json) (now : OffsetDateTime) :
    SystemEvent F64 :=
  .observationRecorded ("obs_" ++ task.id) ("collection." ++ task.capability) output.toVec
    (some "application/json") ("driver:" ++ task.driver) now

/-- The event of a task whose driver failed. -/
def failureEvent (taskId : String) : SystemEvent F64 :=
  .serviceUpdated taskId none (some "error") none

/-- Submit a collection task to the fabric. -/
def submit (f : CollectionFabric) (task : CollectionTask) (r : Readings) :
    Except FabricError String × CollectionFabric :=
  let f := { f with
    sessions := f.sessions.create task.id task.target.locator task.driver task.capability
      task.maxRetries task.metadata (r.now 0) }
  match f.queue.enqueue task (r.now 1) with
  | .error e => (.error e, f)
  | .ok queue =>
    (.ok task.id, { f with
      queue
      events := emit f.events task.id (queuedEvent task) (r.ulid 0) (r.now 2) })

/-- Cancel a task by ID; `none` when the queue panics. -/
def cancel (f : CollectionFabric) (taskId : String) (r : Readings) :
    Option (Except FabricError Unit × CollectionFabric) :=
  match f.queue.cancel taskId with
  | none => none
  | some (.ok queue) =>
    let f := { f with queue }
    match f.sessions.transition taskId .cancelled none none (r.now 0) with
    | .error e => some (.error e, f)
    | .ok sessions => some (.ok (), { f with sessions })
  | some (.error _) =>
    match f.sessions.lookup taskId with
    | none => some (.error (.taskNotFound taskId), f)
    | some _ =>
      match f.sessions.transition taskId .cancelled none none (r.now 0) with
      | .error e => some (.error e, f)
      | .ok sessions => some (.ok (), { f with sessions })

/-- The priority of a retry. -/
def demoted : Priority → Priority
  | .critical => .high
  | .high => .medium
  | .medium => .low
  | .low => .background
  | .background => .background

/-- What a `process_next` call returns and leaves, the task it took off the queue and the outcome
of the driver call it made. -/
structure Processed where
  result : Except FabricError (Option String)
  fabric : CollectionFabric
  task : Option CollectionTask
  outcome : Option (Except DriverError Json)

/-- The driver succeeded. -/
def settleSuccess (f : CollectionFabric) (task : CollectionTask) (output : Json) (r : Readings) :
    Except FabricError (Option String) × CollectionFabric :=
  match f.sessions.transition task.id .succeeded (some output) none (r.now 2) with
  | .error e => (.error e, f)
  | .ok sessions =>
    (.ok (some task.id), { f with
      sessions
      events := emit f.events task.id (successEvent task output (r.now 3)) (r.ulid 1) (r.now 4) })

/-- Put a failed task back at the next priority level down. -/
def requeue (f : CollectionFabric) (task : CollectionTask) (now : OffsetDateTime) :
    CollectionFabric :=
  match f.queue.enqueue { task with priority := demoted task.priority } now with
  | .error _ => f
  | .ok queue => { f with queue }

/-- The driver failed. -/
def settleFailure (f : CollectionFabric) (task : CollectionTask) (e : DriverError)
    (r : Readings) : Except FabricError (Option String) × CollectionFabric :=
  match f.sessions.transition task.id .failed none (some e.message) (r.now 2) with
  | .error e => (.error e, f)
  | .ok sessions =>
    let f := { f with sessions }
    let f := if f.sessions.shouldRetry task.id then f.requeue task (r.now 3) else f
    (.ok (some task.id), { f with
      events := emit f.events task.id (failureEvent task.id) (r.ulid 1) (r.now 4) })

/-- Process the next task from the queue. -/
def processNext (f : CollectionFabric) (drivers : DriverRegistry) (r : Readings) : Processed :=
  if f.running then
    match f.queue.dequeue with
    | none => ⟨.ok none, f, none, none⟩
    | some (task, queue) =>
      let f := { f with queue }
      match f.sessions.transition task.id .running none none (r.now 0) with
      | .error e => ⟨.error e, f, some task, none⟩
      | .ok sessions =>
        let f := { f with
          sessions
          events := emit f.events task.id (runningEvent task.id) (r.ulid 0) (r.now 1) }
        match drivers task.driver task.capability task.params with
        | .ok output =>
          let (result, f) := f.settleSuccess task output r
          ⟨result, f, some task, some (.ok output)⟩
        | .error e =>
          let (result, f) := f.settleFailure task e r
          ⟨result, f, some task, some (.error e)⟩
  else ⟨.error .stopped, f, none, none⟩

/-- A call that a run makes on the fabric. -/
inductive Call where
  | submit (task : CollectionTask) (r : Readings)
  | processNext (drivers : DriverRegistry) (r : Readings)

/-- The fabric after a call. -/
def step (f : CollectionFabric) : Call → CollectionFabric
  | .submit task r => (f.submit task r).2
  | .processNext drivers r => (f.processNext drivers r).fabric

/-- The fabric after a run of calls. -/
def run (f : CollectionFabric) (calls : List Call) : CollectionFabric := calls.foldl step f

/-- A task, clock and ULIDs for concrete runs. -/
def sampleTask (id : String) (maxRetries : ℕ) : CollectionTask where
  id := id
  target := .domain "example.com"
  priority := .high
  driver := "dns"
  capability := "dns.resolve_a"
  params := .obj [("domain", .str "example.com")]
  maxRetries := maxRetries
  createdAt := 0
  metadata := ∅

/-- Readings of the clock and of the generator of ids. -/
def sampleReadings : Readings := ⟨fun i => i, Ulid.ofNat⟩

end CollectionFabric

end TORdex
