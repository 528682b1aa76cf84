import Mathlib.Data.List.Basic
import Mathlib.Logic.Function.Basic
import TORdex.Core.Json
import TORdex.Core.Ulid

/-!
# The scheduler

Every task has a thread, and the threads and the callers share the statuses under one lock.  What a
critical section does to one task is a transition of that task, and runs are runs of these.
-/

namespace TORdex.Scheduler

/-- The status of a task. -/
inductive TaskStatus where
  | pending
  | running
  | completed
  | failed (error : String)
  | cancelled
  deriving DecidableEq

/-- The statuses of the tasks. -/
structure SimpleScheduler where
  inner : HashMap Ulid TaskStatus

namespace SimpleScheduler

/-- Without tasks. -/
def new : SimpleScheduler := ⟨∅⟩

/-- Set the status of a task. -/
def setStatus (s : SimpleScheduler) (id : Ulid) (status : TaskStatus) : SimpleScheduler :=
  ⟨s.inner.insert id status⟩

/-- The status of a task. -/
def status (s : SimpleScheduler) (id : Ulid) : Option TaskStatus := s.inner.lookup id

/-- The section after the sleep; the thread goes on unless the task is cancelled. -/
def wake (s : SimpleScheduler) (id : Ulid) : Bool × SimpleScheduler :=
  if s.status id = some .cancelled then (false, s) else (true, s.setStatus id .running)

/-- The section after the closure. -/
def complete (s : SimpleScheduler) (id : Ulid) : SimpleScheduler :=
  if s.status id ≠ some .cancelled then s.setStatus id .completed else s

/-- Cancel a task that has not ended, and tell whether it was one. -/
def cancel (s : SimpleScheduler) (id : Ulid) : Bool × SimpleScheduler :=
  match s.status id with
  | some .pending | some .running => (true, s.setStatus id .cancelled)
  | _ => (false, s)

@[simp] theorem status_setStatus_self (s : SimpleScheduler) (id : Ulid) (status : TaskStatus) :
    (s.setStatus id status).status id = some status := Finmap.lookup_insert _

@[simp] theorem status_setStatus_of_ne (s : SimpleScheduler) {id other : Ulid} (h : other ≠ id)
    (status : TaskStatus) : (s.setStatus id status).status other = s.status other :=
  Finmap.lookup_insert_of_ne _ h

end SimpleScheduler

/-- Where the thread of a task is. -/
inductive Worker where
  /-- There is no such task yet. -/
  | absent
  /-- Before the section after the sleep. -/
  | sleeping
  /-- Before the closure. -/
  | ready
  | running
  /-- The closure has returned, and the last section is still to come. -/
  | returned
  | ended
  deriving DecidableEq

/-- The statuses and the threads; the tasks whose closure was started, and has returned; and the results of
`cancel`. -/
structure System where
  scheduler : SimpleScheduler
  workers : Ulid → Worker
  started : List Ulid
  returned : List Ulid
  cancels : List (Ulid × Bool)

/-- A critical section, or a step of a thread outside the lock.  No closure runs under the lock, so that it
is never poisoned. -/
inductive Action where
  | spawn (id : Ulid)
  | scheduleAfter (id : Ulid)
  | wake (id : Ulid)
  | start (id : Ulid)
  | finish (id : Ulid)
  /-- The closure panics, and its thread ends. -/
  | unwind (id : Ulid)
  | complete (id : Ulid)
  | cancel (id : Ulid)
  | status (id : Ulid)

/-- The task that an action is about. -/
@[simp] def Action.id : Action → Ulid
  | .spawn id | .scheduleAfter id | .wake id | .start id | .finish id | .unwind id | .complete id
  | .cancel id | .status id => id

namespace System

/-- Before the first action. -/
def start : System := ⟨.new, fun _ => .absent, [], [], []⟩

/-- Set the worker of a task. -/
def setWorker (s : System) (id : Ulid) (worker : Worker) : System :=
  { s with workers := Function.update s.workers id worker }

/-- Ids are unique: no new task has one that is in use. -/
def step (s : System) : Action → System
  | .spawn id =>
    if s.workers id = .absent then
      { s with scheduler := s.scheduler.setStatus id .running }.setWorker id .ready
    else s
  | .scheduleAfter id =>
    if s.workers id = .absent then
      { s with scheduler := s.scheduler.setStatus id .pending }.setWorker id .sleeping
    else s
  | .wake id =>
    if s.workers id = .sleeping then
      let (goesOn, scheduler) := s.scheduler.wake id
      { s with scheduler }.setWorker id (if goesOn then .ready else .ended)
    else s
  | .start id =>
    if s.workers id = .ready then { s with started := s.started ++ [id] }.setWorker id .running else s
  | .finish id =>
    if s.workers id = .running then { s with returned := s.returned ++ [id] }.setWorker id .returned else s
  | .unwind id => if s.workers id = .running then s.setWorker id .ended else s
  | .complete id =>
    if s.workers id = .returned then
      { s with scheduler := s.scheduler.complete id }.setWorker id .ended
    else s
  | .cancel id =>
    let (result, scheduler) := s.scheduler.cancel id
    { s with scheduler, cancels := s.cancels ++ [(id, result)] }
  | .status _ => s

end System

/-! ## One task -/

/-- What there is of one task. -/
structure Task where
  status : Option TaskStatus
  worker : Worker
  started : Prop
  returned : Prop
  cancelled : Prop

/-- What concerns one task. -/
def System.task (s : System) (id : Ulid) : Task where
  status := s.scheduler.status id
  worker := s.workers id
  started := id ∈ s.started
  returned := id ∈ s.returned
  cancelled := (id, true) ∈ s.cancels

/-- What can happen to a task. -/
inductive Transition (t : Task) : Task → Prop
  | stays : Transition t t
  | spawn (worker : t.worker = .absent) :
    Transition t { t with status := some .running, worker := .ready }
  | scheduleAfter (worker : t.worker = .absent) :
    Transition t { t with status := some .pending, worker := .sleeping }
  | wake (worker : t.worker = .sleeping) (goesOn : t.status ≠ some .cancelled) :
    Transition t { t with status := some .running, worker := .ready }
  | giveUp (worker : t.worker = .sleeping) (cancelled : t.status = some .cancelled) :
    Transition t { t with worker := .ended }
  | start (worker : t.worker = .ready) : Transition t { t with worker := .running, started := True }
  | finish (worker : t.worker = .running) : Transition t { t with worker := .returned, returned := True }
  | unwind (worker : t.worker = .running) : Transition t { t with worker := .ended }
  | complete (worker : t.worker = .returned) (goesOn : t.status ≠ some .cancelled) :
    Transition t { t with status := some .completed, worker := .ended }
  | leave (worker : t.worker = .returned) (cancelled : t.status = some .cancelled) :
    Transition t { t with worker := .ended }
  | cancel (status : t.status = some .pending ∨ t.status = some .running) :
    Transition t { t with status := some .cancelled, cancelled := True }

section Step

variable {s : System} {id : Ulid}

theorem System.task_step_of_ne {action : Action} (h : id ≠ action.id) :
    (s.step action).task id = s.task id := by
  cases action with
  | status _ => rfl
  | cancel other =>
    simp only [Action.id] at h
    simp only [System.step, SimpleScheduler.cancel]
    split <;> simp [System.task, h]
  | _ other =>
    simp only [Action.id] at h
    simp only [System.step, SimpleScheduler.wake, SimpleScheduler.complete]
    split_ifs <;> simp [System.task, System.setWorker, h]

/-- What a critical section or a step of a thread does to its task. -/
theorem transition_step_self (s : System) (action : Action) :
    Transition (s.task action.id) ((s.step action).task action.id) := by
  cases action with
  | status _ => exact .stays
  | spawn id =>
    simp only [System.step]
    split_ifs with worker
    · simpa [System.task, System.setWorker] using Transition.spawn (t := s.task id) worker
    · exact .stays
  | scheduleAfter id =>
    simp only [System.step]
    split_ifs with worker
    · simpa [System.task, System.setWorker] using Transition.scheduleAfter (t := s.task id) worker
    · exact .stays
  | wake id =>
    by_cases worker : s.workers id = .sleeping
    · by_cases cancelled : s.scheduler.status id = some .cancelled
      · simpa [System.step, SimpleScheduler.wake, System.task, System.setWorker, worker, cancelled] using
          Transition.giveUp (t := s.task id) worker cancelled
      · simpa [System.step, SimpleScheduler.wake, System.task, System.setWorker, worker, cancelled] using
          Transition.wake (t := s.task id) worker cancelled
    · simp only [System.step, if_neg worker]
      exact .stays
  | start id =>
    simp only [System.step]
    split_ifs with worker
    · simpa [System.task, System.setWorker] using Transition.start (t := s.task id) worker
    · exact .stays
  | finish id =>
    simp only [System.step]
    split_ifs with worker
    · simpa [System.task, System.setWorker] using Transition.finish (t := s.task id) worker
    · exact .stays
  | unwind id =>
    simp only [System.step]
    split_ifs with worker
    · simpa [System.task, System.setWorker] using Transition.unwind (t := s.task id) worker
    · exact .stays
  | complete id =>
    simp only [System.step, SimpleScheduler.complete]
    split_ifs with worker goesOn
    · simpa [System.task, System.setWorker] using
        Transition.complete (t := s.task id) worker goesOn
    · simpa [System.task, System.setWorker] using
        Transition.leave (t := s.task id) worker (not_ne_iff.1 goesOn)
    · exact .stays
  | cancel id =>
    simp only [System.step, SimpleScheduler.cancel]
    split
    · next pending =>
      simpa [System.task] using Transition.cancel (t := s.task id) (.inl pending)
    · next running =>
      simpa [System.task] using Transition.cancel (t := s.task id) (.inr running)
    · simpa [System.task] using Transition.stays (t := s.task id)

/-- What it does to any task. -/
theorem transition_step (s : System) (action : Action) (id : Ulid) :
    Transition (s.task id) ((s.step action).task id) := by
  by_cases same : id = action.id
  · exact same ▸ transition_step_self s action
  · exact System.task_step_of_ne same ▸ .stays

end Step

/-! ## What every task keeps -/

/-- What the status can be, by where the thread is. -/
def Task.Sound (t : Task) : Prop :=
  match t.worker with
  | .absent => t.status = none ∧ ¬t.started ∧ ¬t.returned
  | .sleeping => (t.status = some .pending ∨ t.status = some .cancelled) ∧ ¬t.started ∧ ¬t.returned
  | .ready => (t.status = some .running ∨ t.status = some .cancelled) ∧ ¬t.returned
  | .running => (t.status = some .running ∨ t.status = some .cancelled) ∧ ¬t.returned
  | .returned => t.status = some .running ∨ t.status = some .cancelled
  | .ended => t.status ≠ some .pending ∧
    (t.returned → t.status = some .completed ∨ t.status = some .cancelled)

/-- A task that is cancelled has been cancelled by a call. -/
def Task.Accounted (t : Task) : Prop := t.status = some .cancelled → t.cancelled

section Kept

variable {t t' : Task} (h : Transition t t')
include h

theorem Transition.accounted (before : t.Accounted) : t'.Accounted := by
  cases h with
  | stays | giveUp | start | finish | unwind | leave => exact before
  | spawn | scheduleAfter | wake | complete => exact nofun
  | cancel => exact fun _ => trivial

theorem Transition.sound (before : t.Sound) : t'.Sound := by
  unfold Task.Sound at before ⊢
  cases h with
  | stays => exact before
  | spawn worker | wake worker =>
    simp only [worker] at before
    exact ⟨.inl rfl, before.2.2⟩
  | scheduleAfter worker =>
    simp only [worker] at before
    exact ⟨.inl rfl, before.2⟩
  | giveUp worker cancelled =>
    simp only [worker] at before
    exact ⟨by simp [cancelled], fun returned => absurd returned before.2.2⟩
  | start worker =>
    simp only [worker] at before
    exact before
  | finish worker =>
    simp only [worker] at before
    exact before.1
  | unwind worker =>
    simp only [worker] at before
    exact ⟨by rcases before.1 with status | status <;> simp [status], fun returned => absurd returned before.2⟩
  | complete => exact ⟨nofun, fun _ => .inl rfl⟩
  | leave worker cancelled => exact ⟨by simp [cancelled], fun _ => .inr cancelled⟩
  | cancel status =>
    cases worker : t.worker with
    | absent =>
      simp only [worker] at before
      simp [before.1] at status
    | sleeping | ready | running =>
      simp only [worker] at before
      exact ⟨.inr rfl, before.2⟩
    | returned => exact .inr rfl
    | ended => exact ⟨nofun, fun _ => .inr rfl⟩

/-- A cancelled task stays cancelled. -/
theorem Transition.cancelled (before : t.status = some .cancelled ∧ t.worker ≠ .absent) :
    t'.status = some .cancelled ∧ t'.worker ≠ .absent := by
  obtain ⟨status, present⟩ := before
  cases h with
  | stays => exact ⟨status, present⟩
  | spawn worker | scheduleAfter worker => exact absurd worker present
  | wake _ goesOn | complete _ goesOn => exact absurd status goesOn
  | giveUp | start | finish | unwind | leave => exact ⟨status, nofun⟩
  | cancel => exact ⟨rfl, present⟩

/-- The closure of a task that is cancelled in its sleep does not start. -/
theorem Transition.asleep
    (before : t.status = some .cancelled ∧ (t.worker = .sleeping ∨ t.worker = .ended) ∧ ¬t.started) :
    t'.status = some .cancelled ∧ (t'.worker = .sleeping ∨ t'.worker = .ended) ∧ ¬t'.started := by
  obtain ⟨status, place, never⟩ := before
  cases h with
  | stays => exact ⟨status, place, never⟩
  | giveUp => exact ⟨status, .inr rfl, never⟩
  | cancel => exact ⟨rfl, place, never⟩
  | wake _ goesOn | complete _ goesOn => exact absurd status goesOn
  | spawn worker | scheduleAfter worker | start worker | finish worker | unwind worker | leave worker =>
    simp [worker] at place

/-- A completed task stays completed. -/
theorem Transition.completed (before : t.status = some .completed ∧ t.worker = .ended) :
    t'.status = some .completed ∧ t'.worker = .ended := by
  obtain ⟨status, ended⟩ := before
  cases h with
  | stays => exact ⟨status, ended⟩
  | complete => exact ⟨rfl, rfl⟩
  | cancel active => simp [status] at active
  | spawn worker | scheduleAfter worker | wake worker | giveUp worker | start worker | finish worker
  | unwind worker | leave worker =>
    simp [worker] at ended

end Kept

section Sound

variable {t : Task} (h : t.Sound)
include h

theorem Task.Sound.of_pending (status : t.status = some .pending) : t.worker = .sleeping ∧ ¬t.started := by
  unfold Task.Sound at h
  cases worker : t.worker <;> simp [worker, status] at h ⊢
  exact h.1

/-- The last section of its thread is still to come, or it has completed the task. -/
theorem Task.Sound.of_returned (returned : t.returned) (status : t.status ≠ some .cancelled) :
    t.worker = .returned ∨ t.worker = .ended ∧ t.status = some .completed := by
  unfold Task.Sound at h
  cases worker : t.worker <;> simp [worker, returned, status] at h ⊢
  exact h.2

end Sound

/-! ## Runs -/

namespace System

/-- The effect of a list of actions. -/
def run (s : System) (actions : List Action) : System := actions.foldl step s

/-- What every transition of a task keeps holds in every later state. -/
theorem task_run {P : Task → Prop} (keeps : ∀ t t', Transition t t' → P t → P t') {s : System} {id : Ulid}
    (holds : P (s.task id)) (actions : List Action) : P ((s.run actions).task id) := by
  induction actions generalizing s with
  | nil => exact holds
  | cons action actions ih => exact ih (keeps _ _ (transition_step s action id) holds)

section Reachable

variable (actions : List Action) (id : Ulid)

theorem sound_run : ((start.run actions).task id).Sound :=
  task_run (fun _ _ h => h.sound) (show (start.task id).Sound from ⟨rfl, nofun, nofun⟩) actions

theorem accounted_run : ((start.run actions).task id).Accounted :=
  task_run (fun _ _ h => h.accounted) (show (start.task id).Accounted from nofun) actions

end Reachable

/-- What a `cancel` that returns true does to its task. -/
theorem task_cancel {s : System} {id : Ulid} (result : (s.scheduler.cancel id).1 = true) :
    s.scheduler.status id ≠ none ∧ (s.step (.cancel id)).task id =
      { s.task id with status := some .cancelled, cancelled := True } := by
  unfold SimpleScheduler.cancel at result
  split at result
  · next status => simp [step, SimpleScheduler.cancel, task, status]
  · next status => simp [step, SimpleScheduler.cancel, task, status]
  · cases result

/-- The last section completes a task that is not cancelled, unless it is completed already. -/
theorem task_complete {s : System} {id : Ulid} (status : s.scheduler.status id ≠ some .cancelled)
    (place : s.workers id = .returned ∨ s.workers id = .ended ∧ s.scheduler.status id = some .completed) :
    ((s.step (.complete id)).task id).status = some .completed ∧
      ((s.step (.complete id)).task id).worker = .ended := by
  rcases place with worker | ⟨worker, completed⟩
  · simp [step, SimpleScheduler.complete, task, setWorker, worker, status]
  · simp [step, task, worker, completed]

/-- Cancellation is final, a task cancelled while it is pending never starts, and a task whose closure has
returned and that has not been cancelled is completed by its thread and stays so. -/
theorem cancellation_final (before after : List Action) (id : Ulid) :
    let s := start.run before
    ((s.scheduler.cancel id).1 = true →
      let later := (s.step (.cancel id)).run after
      later.scheduler.status id = some .cancelled ∧ (later.scheduler.cancel id).1 = false ∧
        (s.scheduler.status id = some .pending → id ∉ later.started)) ∧
    (id ∈ s.returned → (id, true) ∉ s.cancels →
      ((s.step (.complete id)).run after).scheduler.status id = some .completed) := by
  intro s
  have sound : (s.task id).Sound := sound_run before id
  constructor
  · intro result later
    obtain ⟨known, cancelled⟩ := task_cancel result
    have present : (s.task id).worker ≠ .absent := by
      intro absent
      simp only [Task.Sound, absent] at sound
      exact known sound.1
    have now : ((s.step (.cancel id)).task id).status = some .cancelled ∧
        ((s.step (.cancel id)).task id).worker ≠ .absent := by
      rw [cancelled]
      exact ⟨rfl, present⟩
    have final := task_run (fun _ _ h => h.cancelled) now after
    refine ⟨final.1, ?_, fun pending => ?_⟩
    · have status : later.scheduler.status id = some .cancelled := final.1
      simp [SimpleScheduler.cancel, status]
    · obtain ⟨asleep, never⟩ := sound.of_pending pending
      have sleeps : ((s.step (.cancel id)).task id).status = some .cancelled ∧
          (((s.step (.cancel id)).task id).worker = .sleeping ∨
            ((s.step (.cancel id)).task id).worker = .ended) ∧
          ¬((s.step (.cancel id)).task id).started := by
        rw [cancelled]
        exact ⟨rfl, .inl asleep, never⟩
      exact (task_run (fun _ _ h => h.asleep) sleeps after).2.2
  · intro returned never
    have status : (s.task id).status ≠ some .cancelled := fun cancelled =>
      never (accounted_run before id cancelled)
    exact (task_run (fun _ _ h => h.completed) (task_complete status (sound.of_returned returned status)) after).1

end System

end TORdex.Scheduler
