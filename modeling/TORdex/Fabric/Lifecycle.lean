import TORdex.Fabric.Steps

/-!
# Refused submissions and finished sessions

A submission creates its session before it asks the queue whether the id is free, and the queue forgets
an id as soon as the task is taken off.  So a refused submission has replaced a session, and the session
of a finished task is replaced when its id is submitted again.
-/

namespace TORdex

open CollectionFabric

/-- A fabric that is shared; `poisoned` when a panic has poisoned the lock of the queue. -/
structure SharedFabric where
  fabric : CollectionFabric
  poisoned : Bool

/-- A call on a shared fabric. -/
inductive FabricCall where
  | submit (task : CollectionTask) (r : Readings)
  | cancel (taskId : String) (r : Readings)
  | processNext (drivers : DriverRegistry) (r : Readings)
  | stop
  | start

namespace SharedFabric

/-- A fabric that nobody processes. -/
def new (events : InMemoryEventStore) : SharedFabric := ⟨.new events, false⟩

/-- The session that a submission creates. -/
def createSession (f : CollectionFabric) (task : CollectionTask) (r : Readings) : SessionManager :=
  f.sessions.create task.id task.target.locator task.driver task.capability task.maxRetries
    task.metadata (r.now 0)

/-- What a submission returns, `none` when it panics, and what it leaves.  On a poisoned lock it panics
after it created the session. -/
def submit (w : SharedFabric) (task : CollectionTask) (r : Readings) :
    Option (Except FabricError String) × SharedFabric :=
  if w.poisoned then (none, { w with fabric.sessions := createSession w.fabric task r })
  else (some (w.fabric.submit task r).1, { w with fabric := (w.fabric.submit task r).2 })

/-- The shared fabric after a call.  On a poisoned lock `cancel` and `processNext` panic before they
change anything. -/
def step (w : SharedFabric) : FabricCall → SharedFabric
  | .submit task r => (w.submit task r).2
  | .cancel taskId r =>
    if w.poisoned then w
    else
      match w.fabric.cancel taskId r with
      | none => { w with poisoned := true }
      | some (_, fabric) => { w with fabric }
  | .processNext drivers r =>
    if w.poisoned then w else { w with fabric := (w.fabric.processNext drivers r).fabric }
  | .stop => { w with fabric.running := false }
  | .start => { w with fabric.running := true }

/-- The shared fabric after a run of calls. -/
def run (w : SharedFabric) (calls : List FabricCall) : SharedFabric := calls.foldl step w

/-- No transition leads out of the state. -/
def Finished (s : CollectionSession) : Prop := s.state = .succeeded ∨ s.state = .cancelled

/-- A submission that is refused changes nothing. -/
def RefusalHarmless (w : SharedFabric) : FabricCall → Prop
  | .submit task r => ∀ e, (w.submit task r).1 = some (.error e) →
      (w.submit task r).2.fabric.sessions = w.fabric.sessions ∧
      (w.submit task r).2.fabric.queue = w.fabric.queue ∧
      (w.submit task r).2.fabric.events = w.fabric.events
  | _ => True

/-- The call leaves every finished session as it is. -/
def FinishedKept (w : SharedFabric) (call : FabricCall) : Prop :=
  ∀ id s, w.fabric.sessions.lookup id = some s → Finished s →
    (w.step call).fabric.sessions.lookup id = some s

/-- The call submits neither an id whose session is finished, nor one that the queue refuses; a refused
submission may repeat the session that is there. -/
def NewId (w : SharedFabric) : FabricCall → Prop
  | .submit task r =>
    (∀ s, w.fabric.sessions.lookup task.id = some s → ¬Finished s) ∧
    (w.poisoned = false → (w.fabric.queue.byId.lookup task.id).isSome →
      createSession w.fabric task r = w.fabric.sessions)
  | _ => True

/-! ## Submissions -/

section Submit

variable {w : SharedFabric} {task : CollectionTask} {r : Readings}

/-- Whatever comes of it, a submission creates its session. -/
theorem sessions_submit : (w.submit task r).2.fabric.sessions = createSession w.fabric task r := by
  unfold submit
  split_ifs
  · rfl
  · simp only [CollectionFabric.submit, createSession]
    cases w.fabric.queue.enqueue task (r.now 1) <;> rfl

theorem lookup_submit : ((w.submit task r).2.fabric.sessions.lookup task.id).map (·.state) =
    some .queued := by
  rw [sessions_submit]
  unfold createSession SessionManager.create
  rw [Finmap.lookup_insert]
  rfl

theorem lookup_submit_of_ne {id : String} (h : id ≠ task.id) :
    (w.submit task r).2.fabric.sessions.lookup id = w.fabric.sessions.lookup id := by
  rw [sessions_submit]
  exact Finmap.lookup_insert_of_ne _ h

/-- A submission is refused when the index of the queue has its id. -/
theorem submit_refused_iff : (∃ e, (w.submit task r).1 = some (.error e)) ↔
    w.poisoned = false ∧ (w.fabric.queue.byId.lookup task.id).isSome := by
  unfold submit
  by_cases hp : w.poisoned
  · simp [hp]
  · by_cases taken : (w.fabric.queue.byId.lookup task.id).isSome
    · simp [hp, CollectionFabric.submit, PriorityQueue.enqueue, taken]
    · simp [hp, CollectionFabric.submit, PriorityQueue.enqueue, taken]

theorem submit_refused {e : FabricError} (h : (w.submit task r).1 = some (.error e)) :
    (w.submit task r).2.fabric.queue = w.fabric.queue ∧
      (w.submit task r).2.fabric.events = w.fabric.events := by
  obtain ⟨hp, taken⟩ := submit_refused_iff.1 ⟨e, h⟩
  simp [submit, hp, CollectionFabric.submit, PriorityQueue.enqueue, taken]

end Submit

/-! ## Finished sessions -/

section Finished

variable {m m' : SessionManager} {id taskId : String} {s : CollectionSession} {next : SessionState}

theorem not_allowed_of_finished (h : Finished s) : allowedTransition s.state next = false := by
  rcases h with h | h <;> rw [h] <;> cases next <;> rfl

theorem lookup_transition {result : Option Json} {error : Option String} {now : OffsetDateTime}
    (h : m.transition taskId next result error now = .ok m') (hs : m.lookup id = some s)
    (finished : Finished s) : m'.lookup id = some s := by
  obtain ⟨t, ht, allowed, rfl⟩ := SessionManager.transition_ok h
  by_cases hid : id = taskId
  · subst hid
    rw [hs] at ht
    cases ht
    rw [not_allowed_of_finished finished] at allowed
    cases allowed
  · rw [Finmap.lookup_insert_of_ne _ hid]
    exact hs

theorem lookup_cancel_fabric {f f' : CollectionFabric} {r : Readings} {answer : Except FabricError Unit}
    (h : f.cancel taskId r = some (answer, f')) (hs : f.sessions.lookup id = some s)
    (finished : Finished s) : f'.sessions.lookup id = some s := by
  unfold CollectionFabric.cancel at h
  split at h
  · cases h
  · dsimp only at h
    split at h
    · cases h
      exact hs
    · rename_i transitioned
      cases h
      exact lookup_transition transitioned hs finished
  · split at h
    · cases h
      exact hs
    · split at h
      · cases h
        exact hs
      · rename_i transitioned
        cases h
        exact lookup_transition transitioned hs finished

theorem lookup_processNext {f : CollectionFabric} {drivers : DriverRegistry} {r : Readings}
    (hs : f.sessions.lookup id = some s) (finished : Finished s) :
    (f.processNext drivers r).fabric.sessions.lookup id = some s := by
  -- The session of a task that is run is queued.
  have other : ∀ {task : CollectionTask} {t : CollectionSession}, f.sessions.lookup task.id = some t →
      t.state = .queued → id ≠ task.id := by
    rintro task t ht hq rfl
    rw [hs] at ht
    cases ht
    rcases finished with h | h <;> rw [h] at hq <;> cases hq
  have process := processNext_step f drivers r
  generalize f.processNext drivers r = p at process ⊢
  cases process with
  | stopped => exact hs
  | empty => exact hs
  | refused => exact hs
  | success task queue t output _ _ ht hq =>
    exact (Finmap.lookup_insert_of_ne _ (other ht hq)).trans hs
  | failure task queue t e _ _ ht hq =>
    exact (Finmap.lookup_insert_of_ne _ (other ht hq)).trans hs

end Finished

/-! ## Calls and runs -/

/-- A call keeps the promises exactly when it submits a new id. -/
theorem promises_iff (w : SharedFabric) (call : FabricCall) :
    w.RefusalHarmless call ∧ w.FinishedKept call ↔ w.NewId call := by
  cases call with
  | submit task r =>
    constructor
    · rintro ⟨harmless, kept⟩
      constructor
      · intro s hs finished
        have same : ((w.submit task r).2.fabric.sessions.lookup task.id).map (·.state) = some .queued :=
          lookup_submit
        rw [show (w.submit task r).2.fabric.sessions.lookup task.id = some s from
          kept task.id s hs finished] at same
        rcases finished with h | h <;> simp [h] at same
      · intro hp taken
        obtain ⟨e, he⟩ := submit_refused_iff (r := r) |>.2 ⟨hp, taken⟩
        rw [← sessions_submit]
        exact (harmless e he).1
    · rintro ⟨unfinished, repeated⟩
      constructor
      · intro e he
        obtain ⟨hp, taken⟩ := submit_refused_iff.1 ⟨e, he⟩
        rw [sessions_submit]
        exact ⟨repeated hp taken, submit_refused he⟩
      · intro id s hs finished
        have other : id ≠ task.id := by
          rintro rfl
          exact unfinished s hs finished
        exact (lookup_submit_of_ne other).trans hs
  | cancel taskId r =>
    refine iff_of_true ⟨trivial, fun id s hs finished => ?_⟩ trivial
    simp only [step]
    split_ifs
    · exact hs
    · split
      · exact hs
      · rename_i cancelled
        exact lookup_cancel_fabric cancelled hs finished
  | processNext drivers r =>
    refine iff_of_true ⟨trivial, fun id s hs finished => ?_⟩ trivial
    simp only [step]
    split_ifs
    · exact hs
    · exact lookup_processNext hs finished
  | stop => exact iff_of_true ⟨trivial, fun _ _ hs _ => hs⟩ trivial
  | start => exact iff_of_true ⟨trivial, fun _ _ hs _ => hs⟩ trivial

/-- Refused submissions of the run change nothing, and what is finished in it stays as it is. -/
structure Keeps (w : SharedFabric) (calls : List FabricCall) : Prop where
  refusal : ∀ before call after, calls = before ++ call :: after →
    (w.run before).RefusalHarmless call
  finished : ∀ before middle after, calls = before ++ middle ++ after → ∀ id s,
    (w.run before).fabric.sessions.lookup id = some s → Finished s →
    (w.run (before ++ middle)).fabric.sessions.lookup id = some s

theorem run_concat (w : SharedFabric) (calls : List FabricCall) (call : FabricCall) :
    w.run (calls ++ [call]) = (w.run calls).step call := List.foldl_concat _ _ _ _

/-- In every run refused submissions change nothing and finished sessions stay exactly when it submits
new ids only. -/
theorem keeps_iff (events : InMemoryEventStore) (calls : List FabricCall) :
    (new events).Keeps calls ↔ ∀ before call after, calls = before ++ call :: after →
      ((new events).run before).NewId call := by
  constructor
  · intro keeps before call after split
    refine (promises_iff _ call).1 ⟨keeps.refusal before call after split, fun id s hs finished => ?_⟩
    rw [← run_concat]
    exact keeps.finished before [call] after (by simp [split]) id s hs finished
  · intro newIds
    refine ⟨fun before call after split => ((promises_iff _ call).2 (newIds before call after split)).1,
      fun before middle after split id s hs finished => ?_⟩
    induction middle using List.reverseRecOn generalizing after with
    | nil => simpa using hs
    | append_singleton middle call ih =>
      have split' : calls = (before ++ middle) ++ call :: after := by simp [split]
      have kept := ih (call :: after) split'
      rw [← List.append_assoc, run_concat]
      exact ((promises_iff _ call).2 (newIds _ call after split')).2 id s kept finished

/-- A task that is queued is submitted again, later: the submission is refused, and the session is another. -/
theorem not_keeps : ¬(new .new).Keeps [.submit (sampleTask "t1" 0) sampleReadings,
    .submit (sampleTask "t1" 0) ⟨fun i => i + 1, Ulid.ofNat⟩] := by
  intro keeps
  have changed := (keeps.refusal [.submit (sampleTask "t1" 0) sampleReadings]
    (.submit (sampleTask "t1" 0) ⟨fun i => i + 1, Ulid.ofNat⟩) [] rfl
    (.duplicateTask "t1") rfl).1
  have readings := congrArg (fun m => (m.lookup "t1").map (·.queuedAt)) changed
  exact absurd readings (by decide)

end SharedFabric

end TORdex
