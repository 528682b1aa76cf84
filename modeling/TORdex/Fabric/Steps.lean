import TORdex.Fabric.Fabric

/-!
# What one `processNext` call does

On a running fabric a call finds the queue empty, refuses a task whose session is not queued, or runs
the driver.  `ProcessStep` lists these cases with their results and states, and `processNext_step`
says that there are no others.
-/

namespace TORdex.CollectionFabric

/-- The session of `id` is in the state `st`. -/
def InState (f : CollectionFabric) (id : String) (st : SessionState) : Prop :=
  ∃ s, f.sessions.lookup id = some s ∧ s.state = st

/-- The session after its driver succeeded. -/
def succeededSession (s : CollectionSession) (output : Json) (r : Readings) : CollectionSession :=
  (s.enter .running none none (r.now 0)).enter .succeeded (some output) none (r.now 2)

/-- The session after its driver failed. -/
def failedSession (s : CollectionSession) (e : DriverError) (r : Readings) : CollectionSession :=
  (s.enter .running none none (r.now 0)).enter .failed none (some e.message) (r.now 2)

/-- The log while the driver runs. -/
def runningEvents (f : CollectionFabric) (id : String) (r : Readings) : InMemoryEventStore :=
  emit f.events id (runningEvent id) (r.ulid 0) (r.now 1)

/-- The fabric after a driver success. -/
def afterSuccess (f : CollectionFabric) (task : CollectionTask) (queue : PriorityQueue)
    (s : CollectionSession) (output : Json) (r : Readings) : CollectionFabric where
  queue := queue
  sessions := f.sessions.insert task.id (succeededSession s output r)
  events := emit (f.runningEvents task.id r) task.id (successEvent task output (r.now 3))
    (r.ulid 1) (r.now 4)
  running := true

/-- The queue with a failed task back in it, one priority level down. -/
def requeued (queue : PriorityQueue) (task : CollectionTask) (now : OffsetDateTime) :
    PriorityQueue :=
  match queue.enqueue { task with priority := demoted task.priority } now with
  | .error _ => queue
  | .ok queue => queue

/-- The fabric after a driver failure. -/
def afterFailure (f : CollectionFabric) (task : CollectionTask) (queue : PriorityQueue)
    (s : CollectionSession) (e : DriverError) (r : Readings) : CollectionFabric where
  queue := if s.attempt + 1 < s.maxRetries then requeued queue task (r.now 3) else queue
  sessions := f.sessions.insert task.id (failedSession s e r)
  events := emit (f.runningEvents task.id r) task.id (failureEvent task.id) (r.ulid 1) (r.now 4)
  running := true

variable {f : CollectionFabric} {drivers : DriverRegistry} {r : Readings} {task : CollectionTask}
  {queue : PriorityQueue} {s : CollectionSession}

theorem processNext_stopped (hr : ¬ f.running) :
    f.processNext drivers r = ⟨.error .stopped, f, none, none⟩ := by
  simp only [processNext, hr, Bool.false_eq_true, if_false]

theorem processNext_empty (hr : f.running) (hq : f.queue.heap = []) :
    f.processNext drivers r = ⟨.ok none, f, none, none⟩ := by
  simp only [processNext, hr, if_true, (PriorityQueue.dequeue_eq_none_iff f.queue).2 hq]

/-- A task whose session is not queued is taken off the queue, and the call fails. -/
theorem processNext_refused (drivers : DriverRegistry) (r : Readings) (hr : f.running)
    (hd : f.queue.dequeue = some (task, queue)) (hs : ¬ f.InState task.id .queued) :
    ∃ e, f.processNext drivers r = ⟨.error e, { f with queue }, some task, none⟩ := by
  simp only [processNext, hr, if_true, hd]
  cases ht : f.sessions.transition task.id .running none none (r.now 0) with
  | error e => exact ⟨e, rfl⟩
  | ok sessions =>
    obtain ⟨s, hl, ha, -⟩ := SessionManager.transition_ok ht
    exact absurd ⟨s, hl, SessionManager.allowedTransition_running ha⟩ hs

theorem transition_running (hs : f.sessions.lookup task.id = some s) (hq : s.state = .queued) :
    f.sessions.transition task.id .running none none (r.now 0) =
      .ok (f.sessions.insert task.id (s.enter .running none none (r.now 0))) :=
  SessionManager.transition_allowed hs (by rw [hq]; rfl)

theorem processNext_success {output : Json} (hr : f.running)
    (hd : f.queue.dequeue = some (task, queue)) (hs : f.sessions.lookup task.id = some s)
    (hq : s.state = .queued) (ho : drivers task.driver task.capability task.params = .ok output) :
    f.processNext drivers r = ⟨.ok (some task.id), f.afterSuccess task queue s output r,
      some task, some (.ok output)⟩ := by
  have settle : (SessionManager.transition
      (f.sessions.insert task.id (s.enter .running none none (r.now 0))) task.id .succeeded
      (some output) none (r.now 2)) =
      .ok (f.sessions.insert task.id (succeededSession s output r)) := by
    rw [SessionManager.transition_allowed (Finmap.lookup_insert _) rfl, Finmap.insert_insert]
    rfl
  simp only [processNext, hr, if_true, hd, transition_running hs hq, ho, settleSuccess, settle]
  rfl

theorem processNext_failure {e : DriverError} (hr : f.running)
    (hd : f.queue.dequeue = some (task, queue)) (hs : f.sessions.lookup task.id = some s)
    (hq : s.state = .queued) (ho : drivers task.driver task.capability task.params = .error e) :
    f.processNext drivers r = ⟨.ok (some task.id), f.afterFailure task queue s e r,
      some task, some (.error e)⟩ := by
  have settle : (SessionManager.transition
      (f.sessions.insert task.id (s.enter .running none none (r.now 0))) task.id .failed
      none (some e.message) (r.now 2)) =
      .ok (f.sessions.insert task.id (failedSession s e r)) := by
    rw [SessionManager.transition_allowed (Finmap.lookup_insert _) rfl, Finmap.insert_insert]
    rfl
  have retry : SessionManager.shouldRetry (f.sessions.insert task.id (failedSession s e r))
      task.id = decide (s.attempt + 1 < s.maxRetries) := by
    simp only [SessionManager.shouldRetry, Finmap.lookup_insert]
    simp [failedSession, CollectionSession.enter]
  simp only [processNext, hr, if_true, hd, transition_running hs hq, ho, settleFailure, settle,
    retry, decide_eq_true_eq]
  unfold afterFailure requeue requeued
  split_ifs
  · cases queue.enqueue { task with priority := demoted task.priority } (r.now 3) <;> rfl
  · rfl

/-- The cases of a `processNext` call. -/
inductive ProcessStep (f : CollectionFabric) (drivers : DriverRegistry) (r : Readings) :
    Processed → Prop
  | stopped (hr : ¬ f.running) : ProcessStep f drivers r ⟨.error .stopped, f, none, none⟩
  | empty (hr : f.running) (hq : f.queue.heap = []) :
    ProcessStep f drivers r ⟨.ok none, f, none, none⟩
  | refused (task : CollectionTask) (queue : PriorityQueue) (e : FabricError) (hr : f.running)
    (hd : f.queue.dequeue = some (task, queue)) (hs : ¬ f.InState task.id .queued) :
    ProcessStep f drivers r ⟨.error e, { f with queue }, some task, none⟩
  | success (task : CollectionTask) (queue : PriorityQueue) (s : CollectionSession) (output : Json)
    (hr : f.running) (hd : f.queue.dequeue = some (task, queue))
    (hs : f.sessions.lookup task.id = some s) (hq : s.state = .queued)
    (ho : drivers task.driver task.capability task.params = .ok output) :
    ProcessStep f drivers r ⟨.ok (some task.id), f.afterSuccess task queue s output r, some task,
      some (.ok output)⟩
  | failure (task : CollectionTask) (queue : PriorityQueue) (s : CollectionSession)
    (e : DriverError) (hr : f.running) (hd : f.queue.dequeue = some (task, queue))
    (hs : f.sessions.lookup task.id = some s) (hq : s.state = .queued)
    (ho : drivers task.driver task.capability task.params = .error e) :
    ProcessStep f drivers r ⟨.ok (some task.id), f.afterFailure task queue s e r, some task,
      some (.error e)⟩

theorem processNext_step (f : CollectionFabric) (drivers : DriverRegistry) (r : Readings) :
    ProcessStep f drivers r (f.processNext drivers r) := by
  by_cases hr : f.running
  swap
  · rw [processNext_stopped hr]
    exact .stopped hr
  cases hd : f.queue.dequeue with
  | none =>
    have hq := (PriorityQueue.dequeue_eq_none_iff _).1 hd
    rw [processNext_empty hr hq]
    exact .empty hr hq
  | some taken =>
    obtain ⟨task, queue⟩ := taken
    by_cases hs : f.InState task.id .queued
    swap
    · obtain ⟨e, he⟩ := processNext_refused drivers r hr hd hs
      rw [he]
      exact .refused task queue e hr hd hs
    obtain ⟨s, hl, hq⟩ := hs
    cases ho : drivers task.driver task.capability task.params with
    | ok output =>
      rw [processNext_success hr hd hl hq ho]
      exact .success task queue s output hr hd hl hq ho
    | error e =>
      rw [processNext_failure hr hd hl hq ho]
      exact .failure task queue s e hr hd hl hq ho

/-- A failed task is always accepted back: taking it off the queue freed its id. -/
theorem requeued_perm (hd : f.queue.dequeue = some (task, queue)) (now : OffsetDateTime) :
    ∃ entry, entry.task.id = task.id ∧ (requeued queue task now).heap.Perm (entry :: queue.heap) := by
  obtain ⟨-, hby⟩ := PriorityQueue.dequeue_some hd
  unfold requeued
  cases he : queue.enqueue { task with priority := demoted task.priority } now with
  | error e =>
    have free : queue.byId.lookup task.id = none := by rw [hby]; exact Finmap.lookup_erase _ _
    simp [PriorityQueue.enqueue, free] at he
  | ok q => exact ⟨_, rfl, (PriorityQueue.enqueue_ok he).2⟩

end TORdex.CollectionFabric
