import TORdex.Fabric.Log

/-!
# What the event log records of a run

The success event is versioned against the task's aggregate but belongs to the aggregate `obs_<id>`,
so the store keeps it exactly when the second history is one longer than the first.  Running and
failure events are versioned against their own aggregate and are always kept.
-/

namespace TORdex

open InMemoryEventStore

namespace CollectionFabric

/-- The events that one store has after those of another. -/
def gained (before after : InMemoryEventStore) : List EventEnvelope :=
  after.events.drop before.events.length

/-- Among the events is an observation with the driver's output, or the error status of the
service. -/
def RecordsOutcome (id : String) (new : List EventEnvelope) : Except DriverError Json → Prop
  | .ok output => ∃ e ∈ new, ∃ kind contentType source observedAt, e.data =
      (SystemEvent.observationRecorded ("obs_" ++ id) kind output.toVec contentType source
        observedAt).toValue
  | .error _ => ∃ e ∈ new, ∃ name version, e.data =
      (SystemEvent.serviceUpdated id name (some "error") version).toValue

/-- If the call returns a task whose driver ran, the log gained the event of the outcome. -/
def Recorded (f : CollectionFabric) (drivers : DriverRegistry) (r : Readings) : Prop :=
  ∀ id outcome, (f.processNext drivers r).result = .ok (some id) →
    (f.processNext drivers r).outcome = some outcome →
    RecordsOutcome id (gained f.events (f.processNext drivers r).fabric.events) outcome

/-- If the call is about to run a driver that succeeds, the history of the observation's aggregate is
one longer than the history of the task's. -/
def Aligned (f : CollectionFabric) (drivers : DriverRegistry) : Prop :=
  ∀ task queue output, f.running → f.queue.dequeue = some (task, queue) →
    f.InState task.id .queued → drivers task.driver task.capability task.params = .ok output →
    f.events.latestVersion ("obs_" ++ task.id) = f.events.latestVersion task.id + 1

section Process

variable (f : CollectionFabric) (task : CollectionTask) (queue : PriorityQueue)
  (s : CollectionSession) (r : Readings)

/-- The log of a success: the running event, and the observation when the histories align. -/
theorem gained_success (output : Json) :
    gained f.events (f.afterSuccess task queue s output r).events =
      (runningEvent task.id).intoEnvelope (f.events.latestVersion task.id + 1) (r.ulid 0)
        (r.now 1) ::
      if f.events.latestVersion ("obs_" ++ task.id) = f.events.latestVersion task.id + 1 then
        [(successEvent task output (r.now 3)).intoEnvelope (f.events.latestVersion task.id + 2)
          (r.ulid 1) (r.now 4)]
      else [] := by
  have own := latestVersion_runningEvents f r task.id task.id
  have obs := latestVersion_runningEvents f r task.id ("obs_" ++ task.id)
  rw [if_pos rfl] at own
  rw [if_neg (obs_ne task.id).symm] at obs
  simp only [afterSuccess]
  split_ifs with h
  · rw [emit_aligned _ _ _ _ (by rw [own]; exact h.symm.trans obs.symm), own, runningEvents_eq]
    simp [gained, push]
  · rw [emit_misaligned _ _ _ _ (by rw [own]; exact fun he => h (obs.symm.trans he.symm)),
      runningEvents_eq]
    simp [gained, push]

/-- The log of a failure: the running event and the failure event. -/
theorem gained_failure (e : DriverError) :
    gained f.events (f.afterFailure task queue s e r).events =
      [(runningEvent task.id).intoEnvelope (f.events.latestVersion task.id + 1) (r.ulid 0)
        (r.now 1),
      (failureEvent task.id).intoEnvelope (f.events.latestVersion task.id + 2) (r.ulid 1)
        (r.now 4)] := by
  have own := latestVersion_runningEvents f r task.id task.id
  rw [if_pos rfl] at own
  have failure : (failureEvent task.id).aggregateId = task.id := rfl
  simp only [afterFailure]
  rw [emit_own _ _ _ _ failure, own, runningEvents_eq]
  simp [gained, push]

/-- The observation of a success is recorded exactly when the histories align. -/
theorem recordsOutcome_success (output : Json) :
    RecordsOutcome task.id (gained f.events (f.afterSuccess task queue s output r).events)
        (.ok output) ↔
      f.events.latestVersion ("obs_" ++ task.id) = f.events.latestVersion task.id + 1 := by
  rw [gained_success]
  constructor
  · rintro ⟨e, he, kind, contentType, source, observedAt, hd⟩
    by_contra h
    rw [if_neg h, List.mem_singleton] at he
    subst he
    cases hd
  · intro h
    rw [if_pos h]
    exact ⟨_, List.mem_cons_of_mem _ (List.mem_singleton_self _), _, _, _, _, rfl⟩

theorem recordsOutcome_failure (e : DriverError) :
    RecordsOutcome task.id (gained f.events (f.afterFailure task queue s e r).events)
      (.error e) := by
  rw [gained_failure]
  exact ⟨_, List.mem_cons_of_mem _ (List.mem_singleton_self _), none, none, rfl⟩

end Process

/-- One call: the outcome is recorded exactly when the histories align. -/
theorem recorded_iff (f : CollectionFabric) (drivers : DriverRegistry) (r : Readings) :
    Recorded f drivers r ↔ Aligned f drivers := by
  unfold Recorded Aligned
  have called := processNext_step f drivers r
  generalize f.processNext drivers r = p at called ⊢
  cases called with
  | stopped hr =>
    exact iff_of_true (fun _ _ hid => by cases hid) fun _ _ _ h => absurd h hr
  | empty hr hq =>
    refine iff_of_true (fun _ _ hid => by cases hid) fun _ _ _ _ hd => ?_
    rw [(PriorityQueue.dequeue_eq_none_iff _).2 hq] at hd
    cases hd
  | refused task queue e hr hd hs =>
    refine iff_of_true (fun _ _ hid => by cases hid) fun _ _ _ _ hd' hq => ?_
    rw [hd] at hd'
    cases hd'
    exact absurd hq hs
  | success task queue s output hr hd hl hq ho =>
    have kept := recordsOutcome_success f task queue s r output
    constructor
    · intro h task' queue' output' _ hd' _ _
      rw [hd] at hd'
      cases hd'
      exact kept.1 (h _ _ rfl rfl)
    · rintro h id outcome ⟨⟩ ⟨⟩
      exact kept.2 (h _ _ _ hr hd ⟨s, hl, hq⟩ ho)
  | failure task queue s e hr hd hl hq ho =>
    refine iff_of_true ?_ fun task' queue' output' _ hd' _ ho' => ?_
    · rintro id outcome ⟨⟩ ⟨⟩
      exact recordsOutcome_failure f task queue s r e
    · rw [hd] at hd'
      cases hd'
      rw [ho] at ho'
      cases ho'

/-! ## Whole runs -/

/-- Along a run, every outcome is recorded exactly when the histories align at every call. -/
theorem run_recorded_iff (events : InMemoryEventStore) (calls : List Call) :
    (∀ before drivers r after, calls = before ++ .processNext drivers r :: after →
      Recorded ((new events).run before) drivers r) ↔
    ∀ before drivers r after, calls = before ++ .processNext drivers r :: after →
      Aligned ((new events).run before) drivers := by
  constructor
  · intro h before drivers r after hc
    exact (recorded_iff _ drivers r).1 (h before drivers r after hc)
  · intro h before drivers r after hc
    exact (recorded_iff _ drivers r).2 (h before drivers r after hc)

/-- One task submitted to a new fabric and processed with success: its output is not recorded. -/
theorem run_not_recorded :
    ¬ Recorded ((new .new).run [.submit (sampleTask "t1" 3) sampleReadings])
      (fun _ _ _ => .ok (.str "93.184.216.34")) sampleReadings := by
  intro h
  have aligned := (recorded_iff _ _ _).1 h (sampleTask "t1" 3) _ (.str "93.184.216.34") rfl rfl
    ⟨_, rfl, rfl⟩ rfl
  exact absurd aligned (by decide)

/-! ## Runs without ids of observations

On an empty store no aggregate `obs_<id>` ever gets a history as long as a client does not use such
an id itself, so no success is recorded at all. -/

/-- The tasks that a call submits have plain ids. -/
def Call.plain : Call → Prop
  | .submit task _ => PlainId task.id
  | .processNext _ _ => True

theorem Within.run {f : CollectionFabric} (h : Within PlainId f) {calls : List Call}
    (hc : ∀ call ∈ calls, call.plain) : Within PlainId (f.run calls) := by
  induction calls generalizing f with
  | nil => exact h
  | cons call calls ih =>
    refine ih ?_ fun c hm => hc c (List.mem_cons_of_mem _ hm)
    have first := hc call List.mem_cons_self
    cases call with
    | submit task r => exact h.submit first r
    | processNext drivers r => exact h.processNext (fun _ hid => hid) drivers r

/-- No driver output ever reaches the log of such a run. -/
theorem run_success_unrecorded {calls : List Call} (hc : ∀ call ∈ calls, call.plain)
    {drivers : DriverRegistry} {r : Readings} {id : String} {output : Json}
    (hid : (((new .new).run calls).processNext drivers r).result = .ok (some id))
    (ho : (((new .new).run calls).processNext drivers r).outcome = some (.ok output)) :
    ¬ RecordsOutcome id (gained ((new .new).run calls).events
      (((new .new).run calls).processNext drivers r).fabric.events) (.ok output) := by
  have plain := (within_new PlainId).run hc
  generalize (new .new).run calls = f at plain hid ho ⊢
  have called := processNext_step f drivers r
  generalize f.processNext drivers r = p at called hid ho ⊢
  cases called with
  | success task queue s output' hr hd hl hq hdo =>
    cases hid
    cases ho
    rw [recordsOutcome_success]
    exact plain.not_aligned (fun _ hid => hid) task.id
  | stopped _ | empty _ _ => cases hid
  | refused _ _ _ _ _ _ => cases hid
  | failure _ _ _ _ _ _ _ _ _ => cases ho

end CollectionFabric

end TORdex
