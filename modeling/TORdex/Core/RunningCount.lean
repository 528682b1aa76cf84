import TORdex.Core.Scheduler
import TORdex.Lib.FiniteMap

/-!
# Statuses and the running count

The last section of a thread, which ends the status `Running`, comes after the closure.  A panic of the
closure leaves the thread in front of it, and the task is counted as running for ever.
-/

namespace TORdex.Scheduler

/-- The number of tasks with the status `Running`. -/
def SimpleScheduler.runningCount (s : SimpleScheduler) : ℕ :=
  ((FiniteMap.values s.inner).filter (· = .running)).card

/-- The task has ended. -/
def TaskStatus.Terminal : TaskStatus → Prop
  | .completed | .failed _ | .cancelled => True
  | .pending | .running => False

namespace System

variable (s : System)

/-- The thread has the closure in hand: it has been told to run it, and has not come to its last section. -/
def InHand (id : Ulid) : Prop :=
  s.workers id = .ready ∨ s.workers id = .running ∨ s.workers id = .returned

/-- The thread has ended after its closure started and without its return. -/
def Panicked (id : Ulid) : Prop := s.workers id = .ended ∧ id ∈ s.started ∧ id ∉ s.returned

/-- No cancellation of the task was answered with success. -/
def Uncancelled (id : Ulid) : Prop := (id, true) ∉ s.cancels

/-- The statuses of finished tasks are terminal, and the running count is the number of closures that run and
have not been cancelled.  A closure is counted as long as its thread has it in hand; where no thread stands
between a section and its closure, these are the closures that are being executed. -/
structure Truthful : Prop where
  finished : ∀ id ∈ s.started, s.workers id = .ended →
    ∃ status, s.scheduler.status id = some status ∧ status.Terminal
  count : s.scheduler.runningCount = {id | s.InHand id ∧ s.Uncancelled id}.ncard
  settled : (∀ id, s.workers id ≠ .ready ∧ s.workers id ≠ .returned) →
    s.scheduler.runningCount = {id | s.workers id = .running ∧ s.Uncancelled id}.ncard

end System

/-! ## What every task keeps -/

/-- What has happened to the closure, by where the thread is. -/
def Task.Placed (t : Task) : Prop :=
  match t.worker with
  | .running => t.started
  | .returned => t.started ∧ t.returned
  | .ended => t.started ∧ ¬t.returned ∧ (t.status = some .running ∨ t.status = some .cancelled) ∨
    t.started ∧ t.returned ∧ (t.status = some .completed ∨ t.status = some .cancelled) ∨
    ¬t.started ∧ t.status = some .cancelled
  | _ => True

/-- A task that a call has cancelled has that status. -/
def Task.StaysCancelled (t : Task) : Prop := t.cancelled → t.status = some .cancelled

section Kept

variable {t t' : Task} (h : Transition t t') (sound : t.Sound)
include h sound

theorem Transition.placed (before : t.Placed) : t'.Placed := by
  unfold Task.Sound at sound
  unfold Task.Placed at before ⊢
  cases h with
  | stays => exact before
  | spawn | scheduleAfter | wake => trivial
  | start => trivial
  | giveUp worker cancelled =>
    simp only [worker] at sound
    exact .inr (.inr ⟨sound.2.1, cancelled⟩)
  | finish worker =>
    simp only [worker] at before
    exact ⟨before, trivial⟩
  | unwind worker =>
    simp only [worker] at before sound
    exact .inl ⟨before, sound.2, sound.1⟩
  | complete worker =>
    simp only [worker] at before
    exact .inr (.inl ⟨before.1, before.2, .inl rfl⟩)
  | leave worker cancelled =>
    simp only [worker] at before
    exact .inr (.inl ⟨before.1, before.2, .inr cancelled⟩)
  | cancel status =>
    cases worker : t.worker with
    | absent | sleeping | ready => trivial
    | running | returned =>
      simp only [worker] at before
      exact before
    | ended =>
      simp only [worker] at before
      rcases before with ⟨started, returned, -⟩ | ⟨started, returned, -⟩ | ⟨started, -⟩
      · exact .inl ⟨started, returned, .inr rfl⟩
      · exact .inr (.inl ⟨started, returned, .inr rfl⟩)
      · exact .inr (.inr ⟨started, rfl⟩)

theorem Transition.staysCancelled (before : t.StaysCancelled) : t'.StaysCancelled := by
  unfold Task.Sound at sound
  unfold Task.StaysCancelled at before ⊢
  cases h with
  | stays | giveUp | start | finish | unwind | leave => exact before
  | cancel => exact fun _ => rfl
  | spawn worker | scheduleAfter worker =>
    simp only [worker] at sound
    intro cancelled
    rw [sound.1] at before
    cases before cancelled
  | wake _ goesOn | complete _ goesOn => exact fun cancelled => absurd (before cancelled) goesOn

end Kept

namespace System

section Reachable

variable (actions : List Action) (id : Ulid)

theorem placed_run : ((start.run actions).task id).Placed :=
  (task_run (P := fun t => t.Sound ∧ t.Placed) (fun _ _ h both => ⟨h.sound both.1, h.placed both.1 both.2⟩)
    (show (start.task id).Sound ∧ (start.task id).Placed from ⟨⟨rfl, nofun, nofun⟩, trivial⟩) actions).2

theorem staysCancelled_run : ((start.run actions).task id).StaysCancelled :=
  (task_run (P := fun t => t.Sound ∧ t.StaysCancelled)
    (fun _ _ h both => ⟨h.sound both.1, h.staysCancelled both.1 both.2⟩)
    (show (start.task id).Sound ∧ (start.task id).StaysCancelled from ⟨⟨rfl, nofun, nofun⟩, nofun⟩) actions).2

/-- A task is not cancelled exactly when no call has cancelled it. -/
theorem uncancelled_iff :
    (start.run actions).Uncancelled id ↔ (start.run actions).scheduler.status id ≠ some .cancelled :=
  not_congr ⟨staysCancelled_run actions id, accounted_run actions id⟩

/-- The status `Running` is that of the closures in hand, and of those that have panicked. -/
theorem status_running_iff : (start.run actions).scheduler.status id = some .running ↔
    ((start.run actions).InHand id ∨ (start.run actions).Panicked id) ∧
      (start.run actions).Uncancelled id := by
  rw [uncancelled_iff]
  have sound := sound_run actions id
  have placed := placed_run actions id
  unfold Task.Sound task at sound
  unfold Task.Placed task at placed
  unfold InHand Panicked
  cases worker : (start.run actions).workers id with
  | absent =>
    simp only [worker] at sound
    simp [sound.1]
  | sleeping =>
    simp only [worker] at sound
    rcases sound.1 with status | status <;> simp [status]
  | ready | running =>
    simp only [worker] at sound
    rcases sound.1 with status | status <;> simp [status]
  | returned =>
    simp only [worker] at sound
    rcases sound with status | status <;> simp [status]
  | ended =>
    simp only [worker] at placed
    rcases placed with ⟨started, returned, status⟩ | ⟨started, returned, status⟩ | ⟨started, status⟩
    · rcases status with status | status <;> simp [status, started, returned]
    · rcases status with status | status <;> simp [status, returned]
    · simp [status]

/-- A closure that has started on a thread that has ended has panicked, or has been accounted for. -/
theorem terminal_of_ended (started : id ∈ (start.run actions).started)
    (ended : (start.run actions).workers id = .ended)
    (panicked : (start.run actions).Panicked id → ¬(start.run actions).Uncancelled id) :
    ∃ status, (start.run actions).scheduler.status id = some status ∧ status.Terminal := by
  have placed := placed_run actions id
  unfold Task.Placed task at placed
  simp only [ended] at placed
  rcases placed with ⟨-, returned, -⟩ | ⟨-, -, completed | cancelled⟩ | ⟨never, -⟩
  · have uncancelled := panicked ⟨ended, started, returned⟩
    rw [uncancelled_iff, not_ne_iff] at uncancelled
    exact ⟨_, uncancelled, trivial⟩
  · exact ⟨_, completed, trivial⟩
  · exact ⟨_, cancelled, trivial⟩
  · exact absurd started never

theorem runningCount_run : (start.run actions).scheduler.runningCount =
    {id | ((start.run actions).InHand id ∨ (start.run actions).Panicked id) ∧
      (start.run actions).Uncancelled id}.ncard := by
  rw [SimpleScheduler.runningCount, FiniteMap.card_filter_values]
  refine congrArg Set.ncard (Set.ext fun id => ?_)
  exact (exists_eq_right (p := fun status => (start.run actions).scheduler.status id = some status)).trans
    (status_running_iff actions id)

end Reachable

/-- **The statuses and the running count tell the truth in a reachable state exactly when every task that has
panicked has been cancelled.** -/
theorem truthful_iff (actions : List Action) : (start.run actions).Truthful ↔
    ∀ id, (start.run actions).Panicked id → ¬(start.run actions).Uncancelled id := by
  constructor
  · intro truthful id panicked uncancelled
    obtain ⟨status, is, terminal⟩ := truthful.finished id panicked.2.1 panicked.1
    rw [(status_running_iff actions id).2 ⟨.inr panicked, uncancelled⟩] at is
    cases is
    exact terminal
  · intro panics
    have counted : (start.run actions).scheduler.runningCount =
        {id | (start.run actions).InHand id ∧ (start.run actions).Uncancelled id}.ncard := by
      rw [runningCount_run]
      refine congrArg Set.ncard (Set.ext fun id => and_congr_left fun uncancelled => ?_)
      exact or_iff_left fun panicked => panics id panicked uncancelled
    refine ⟨fun id started ended => terminal_of_ended actions id started ended (panics id), counted, ?_⟩
    intro settled
    rw [counted]
    refine congrArg Set.ncard (Set.ext fun id => and_congr_left fun _ => ?_)
    simp [InHand, settled id]

/-- A task that has panicked has the status `Running` and is counted. -/
theorem panic_stays_running :
    ¬(start.run [.spawn (.ofNat 0), .start (.ofNat 0), .unwind (.ofNat 0)]).Truthful := by
  intro truthful
  obtain ⟨status, is, terminal⟩ := truthful.finished (.ofNat 0) (by decide) (by decide)
  have running : (start.run [.spawn (.ofNat 0), .start (.ofNat 0), .unwind (.ofNat 0)]).scheduler.status
      (.ofNat 0) = some .running := by decide
  rw [running] at is
  cases is
  exact terminal

end System

end TORdex.Scheduler
