import TORdex.Cluster.Results

/-!
# The task queue

Schedulers enqueue tasks, and workers dequeue, process and publish; each Redis command is a step.  A worker
acknowledges a task before it processes it.  What the workers compute is a parameter.
-/

namespace TORdex.Cluster

open LogStream

variable {Payload : Type}

/-- Where a worker is in its loop.  A task comes with the entry that it was read from. -/
inductive Working (Payload : Type) where
  | idle
  /-- The consumer group has been ensured. -/
  | listening
  /-- An entry has been delivered. -/
  | received (entry : StreamEntry Fields)
  | processing (entry : StreamEntry Fields) (task : ClusterTask Payload)
  | publishing (entry : StreamEntry Fields) (result : TaskResult)

/-- The entry of the task that a worker holds. -/
def Working.held : Working Payload → Option (StreamEntry Fields)
  | processing entry _ | publishing entry _ => some entry
  | _ => none

/-- The stream of a role with its consumer group.  Consumers are numbered. -/
structure TaskStream where
  stream : Stream Fields
  group : Option (ConsumerGroup ℕ)

/-- The streams of tasks, the results, the running workers by their consumer names, and every enqueued task with
its entry. -/
structure Tasks (Payload : Type) where
  streams : NodeRole → TaskStream
  results : Results
  workers : ℕ → Option (NodeRole × Working Payload)
  enqueued : List (StreamEntry Fields × ClusterTask Payload)

/-- A Redis command or another step of a scheduler or a worker.  A command may fail, and the reply of an
`XREADGROUP` that was executed may be lost. -/
inductive ClusterAction (Payload : Type) where
  | enqueue (task : ClusterTask Payload) (gap : ℕ)
  | results (action : ResultAction)
  | start (worker : ℕ) (role : NodeRole)
  | createGroup (worker : ℕ) (success : Bool)
  | readGroup (worker : ℕ) (executed replied : Bool)
  | acknowledge (worker : ℕ) (success : Bool)
  | process (worker : ℕ) (now : OffsetDateTime)
  | publish (worker : ℕ) (success : Bool) (gap : ℕ)
  | crash (worker : ℕ)

/-- `Worker::process`: what the worker computes, or its error, as a result for the task. -/
def process (work : ClusterTask Payload → Except String Json × String) (task : ClusterTask Payload)
    (now : OffsetDateTime) : TaskResult :=
  match work task with
  | (.ok data, workerId) => .ok task.id data workerId now
  | (.error error, workerId) => .fail task.id error workerId now

theorem process_taskId (work : ClusterTask Payload → Except String Json × String) (task : ClusterTask Payload)
    (now : OffsetDateTime) : (process work task now).taskId = task.id := by
  unfold process
  split <;> rfl

namespace Tasks

variable (serde : Serde Payload) (work : ClusterTask Payload → Except String Json × String)

/-- Before the first action. -/
def start : Tasks Payload := ⟨fun _ => ⟨.empty, none⟩, .start, fun _ => none, []⟩

/-- Set what a worker does. -/
def setWorker (s : Tasks Payload) (w : ℕ) (role : NodeRole) (phase : Working Payload) : Tasks Payload :=
  { s with workers := Function.update s.workers w (some (role, phase)) }

/-- Set the consumer group of a role. -/
def setGroup (s : Tasks Payload) (role : NodeRole) (group : ConsumerGroup ℕ) : Tasks Payload :=
  { s with streams := Function.update s.streams role ⟨(s.streams role).stream, some group⟩ }

/-- `XADD` to the stream of the task's role. -/
def enqueue (s : Tasks Payload) (task : ClusterTask Payload) (gap : ℕ) : Tasks Payload :=
  match serde.taskToString task with
  | .error _ => s
  | .ok bytes =>
    let fields := Finmap.singleton "task" (RedisValue.bulkString bytes)
    let before := s.streams task.targetRole
    { s with
      streams := Function.update s.streams task.targetRole ⟨before.stream.add gap fields, before.group⟩
      enqueued := s.enqueued ++ [(⟨before.stream.lastId + 1 + gap, fields⟩, task)] }

/-- `XGROUP CREATE` from the beginning of the stream; a group that exists stays. -/
def createGroup (s : Tasks Payload) (w : ℕ) (success : Bool) : Tasks Payload :=
  match s.workers w with
  | some (role, .idle) =>
    match (s.streams role).group with
    | none => if success then (s.setGroup role ⟨0, []⟩).setWorker w role .listening
      else s.setWorker w role .listening
    | some _ => s.setWorker w role .listening
  | _ => s

/-- `XREADGROUP` with `>`: nothing may be there within the time. -/
def readGroup (s : Tasks Payload) (w : ℕ) (executed replied : Bool) : Tasks Payload :=
  match s.workers w with
  | some (role, .listening) =>
    match (s.streams role).group.bind fun group => (group.next (s.streams role).stream).map (group, ·) with
    | none => s.setWorker w role .idle
    | some (group, e) =>
      if executed then (s.setGroup role (group.deliver e w)).setWorker w role
        (if replied then .received e else .idle)
      else s.setWorker w role .idle
  | _ => s

/-- The task is read from the entry and the entry acknowledged. -/
def acknowledge (s : Tasks Payload) (w : ℕ) (success : Bool) : Tasks Payload :=
  match s.workers w with
  | some (role, .received e) =>
    match bulkField "task" e.fields with
    | none => s.setWorker w role .idle
    | some bytes =>
      match serde.taskFromStr bytes with
      | .error _ => s.setWorker w role .idle
      | .ok task =>
        match (s.streams role).group with
        | some group =>
          if success then (s.setGroup role (group.acknowledge e.id)).setWorker w role (.processing e task)
          else s.setWorker w role (.processing e task)
        | none => s.setWorker w role (.processing e task)
  | _ => s

/-- `publish_result`, with its error ignored. -/
def publish (s : Tasks Payload) (w : ℕ) (success : Bool) (gap : ℕ) : Tasks Payload :=
  match s.workers w with
  | some (role, .publishing _ result) =>
    { s with results := if success then s.results.publish serde result gap else s.results }.setWorker w role .idle
  | _ => s

/-- The effect of an action. -/
def step (s : Tasks Payload) : ClusterAction Payload → Tasks Payload
  | .enqueue task gap => s.enqueue serde task gap
  | .results action => { s with results := s.results.step serde action }
  | .start w role => if (s.workers w).isNone then s.setWorker w role .idle else s
  | .createGroup w success => s.createGroup w success
  | .readGroup w executed replied => s.readGroup w executed replied
  | .acknowledge w success => s.acknowledge serde w success
  | .process w now =>
    match s.workers w with
    | some (role, .processing e task) => s.setWorker w role (.publishing e (process work task now))
    | _ => s
  | .publish w success gap => s.publish serde w success gap
  | .crash w => { s with workers := Function.update s.workers w none }

/-! ## Where a task is -/

section Places

variable (s : Tasks Payload) (role : NodeRole) (e : StreamEntry Fields)

/-- The group, if there is one, has not come to the entry. -/
def Undelivered : Prop := ∀ group, (s.streams role).group = some group → group.lastDelivered < e.id

/-- The entry has been delivered and not acknowledged. -/
def Pending : Prop := ∃ group, (s.streams role).group = some group ∧ group.Pending e.id

/-- A result of the task was published. -/
def Published (id : Ulid) : Prop := ∃ t ∈ s.results.published, t.2.taskId = id

/-- The task of the entry is in a running worker that has read it. -/
def HeldBy (w : ℕ) : Prop := ∃ phase, s.workers w = some (role, phase) ∧ phase.held = some e

/-- Every enqueued task is undelivered, pending, published or in a running worker. -/
def NoTaskLost : Prop :=
  ∀ t ∈ s.enqueued, s.Undelivered t.2.targetRole t.1 ∨ s.Pending t.2.targetRole t.1 ∨ s.Published t.2.id ∨
    ∃ w, s.HeldBy t.2.targetRole t.1 w

/-- The entry is still pending, or a result for its task has been published. -/
def Settled : Prop := s.Pending role e ∨ ∀ t ∈ s.enqueued, t.2.targetRole = role → t.1 = e → s.Published t.2.id

end Places

/-- A worker crashes or fails to publish only when the task that it holds is pending or published. -/
def Careful (s : Tasks Payload) : ClusterAction Payload → Prop
  | .crash w => ∀ role e, s.HeldBy role e w → s.Settled role e
  | .publish w success _ => ∀ role e result, s.workers w = some (role, .publishing e result) →
      success ∧ (serde.resultToString result).isOk ∨ s.Settled role e
  | _ => True

end Tasks

end TORdex.Cluster
