import TORdex.Fabric.Steps
import Mathlib.Algebra.Order.BigOperators.Group.List
import Mathlib.Algebra.Order.Ring.Nat

/-!
# Retrying a task

A task is submitted and `processNext` is called for ever, with any outcomes of the driver.  A
failed session cannot run again: the transition table has no step from `Failed` to `Running`, so the
retry that was put back in the queue is refused when its turn comes.  The queue drains in any case:
every call takes more off `load` than a retry puts back.
-/

namespace TORdex.CollectionFabric

/-! ## Draining the queue -/

/-- A measure that falls until the condition holds makes it hold for ever. -/
theorem eventually_of_measure {σ : Type*} (s : ℕ → σ) (size : σ → ℕ) (done : σ → Prop)
    (stays : ∀ k, done (s k) → done (s (k + 1)))
    (falls : ∀ k, ¬ done (s k) → size (s (k + 1)) < size (s k)) : ∃ N, ∀ k ≥ N, done (s k) := by
  have reached : ∃ N, done (s N) := by
    by_contra h
    push Not at h
    have bound : ∀ k, size (s k) + k ≤ size (s 0) := by
      intro k
      induction k with
      | zero => exact le_rfl
      | succ k ih =>
        have := falls k (h k)
        omega
    have := bound (size (s 0) + 1)
    omega
  obtain ⟨N, hN⟩ := reached
  refine ⟨N, fun k hk => ?_⟩
  induction k, hk using Nat.le_induction with
  | base => exact hN
  | succ k _ ih => exact stays k ih

/-- A queued entry that will still run counts twice, for the retry it may leave. -/
def weight (sessions : SessionManager) (entry : QueueEntry) : ℕ :=
  match sessions.lookup entry.task.id with
  | some s => if s.state = .queued then 2 else 1
  | none => 1

theorem one_le_weight (sessions : SessionManager) (entry : QueueEntry) :
    1 ≤ weight sessions entry := by
  unfold weight
  split
  · split_ifs <;> omega
  · exact le_rfl

theorem weight_queued {sessions : SessionManager} {entry : QueueEntry} {s : CollectionSession}
    (hs : sessions.lookup entry.task.id = some s) (hq : s.state = .queued) :
    weight sessions entry = 2 := by
  simp only [weight, hs, hq, if_true]

theorem weight_settled {sessions : SessionManager} {entry : QueueEntry} {s : CollectionSession}
    (hs : sessions.lookup entry.task.id = some s) (hq : s.state ≠ .queued) :
    weight sessions entry = 1 := by
  simp only [weight, hs, hq, if_false]

theorem weight_insert_self (sessions : SessionManager) {entry : QueueEntry} {id : String}
    {s : CollectionSession} (h : entry.task.id = id) (hs : s.state ≠ .queued) :
    weight (sessions.insert id s) entry = 1 := by
  subst h
  exact weight_settled (Finmap.lookup_insert sessions) hs

/-- Settling a session makes no entry heavier. -/
theorem weight_insert_le (sessions : SessionManager) (id : String) {s : CollectionSession}
    (hs : s.state ≠ .queued) (entry : QueueEntry) :
    weight (sessions.insert id s) entry ≤ weight sessions entry := by
  by_cases h : entry.task.id = id
  · rw [weight_insert_self sessions h hs]
    exact one_le_weight sessions entry
  · unfold weight
    rw [Finmap.lookup_insert_of_ne _ h]

/-- The weight of all queued tasks. -/
def load (f : CollectionFabric) : ℕ := (f.queue.heap.map (weight f.sessions)).sum

theorem sum_weight_insert_le (sessions : SessionManager) (id : String) {s : CollectionSession}
    (hs : s.state ≠ .queued) (heap : List QueueEntry) :
    (heap.map (weight (sessions.insert id s))).sum ≤ (heap.map (weight sessions)).sum :=
  List.sum_le_sum fun entry _ => weight_insert_le sessions id hs entry

variable {f : CollectionFabric}

/-- Taking a task off the queue takes its weight off the load. -/
theorem load_dequeue {task : CollectionTask} {queue : PriorityQueue}
    (hd : f.queue.dequeue = some (task, queue)) :
    ∃ entry : QueueEntry, entry.task = task ∧
      f.load = weight f.sessions entry + (queue.heap.map (weight f.sessions)).sum := by
  obtain ⟨⟨entry, ht, -, heap⟩, -⟩ := PriorityQueue.dequeue_some hd
  refine ⟨entry, ht, ?_⟩
  unfold load
  rw [← (heap.map _).sum_eq, List.map_cons, List.sum_cons]

/-- A call on a nonempty queue lowers the load. -/
theorem load_processNext (hr : f.running) (hq : f.queue.heap ≠ []) (drivers : DriverRegistry)
    (r : Readings) : (f.processNext drivers r).fabric.load < f.load := by
  have called := processNext_step f drivers r
  generalize f.processNext drivers r = p at called ⊢
  cases called with
  | stopped hr' => exact absurd hr hr'
  | empty _ hq' => exact absurd hq' hq
  | refused task queue e _ hd hs =>
    obtain ⟨entry, -, hl⟩ := load_dequeue hd
    rw [hl]
    exact Nat.lt_add_of_pos_left (one_le_weight _ _)
  | success task queue s output _ hd hl hs ho =>
    obtain ⟨entry, rfl, he⟩ := load_dequeue hd
    have settled : (succeededSession s output r).state ≠ .queued := by
      simp [succeededSession, CollectionSession.enter]
    have rest := sum_weight_insert_le f.sessions entry.task.id settled queue.heap
    rw [he, weight_queued hl hs]
    exact Nat.lt_of_le_of_lt rest (Nat.lt_add_of_pos_left (by decide))
  | failure task queue s e _ hd hl hs ho =>
    obtain ⟨entry, rfl, he⟩ := load_dequeue hd
    have settled : (failedSession s e r).state ≠ .queued := by
      simp [failedSession, CollectionSession.enter]
    have rest := sum_weight_insert_le f.sessions entry.task.id settled queue.heap
    rw [he, weight_queued hl hs]
    simp only [load, afterFailure]
    split_ifs
    · obtain ⟨retry, hretry, heap⟩ := requeued_perm hd (r.now 3)
      have one := weight_insert_self f.sessions hretry settled
      rw [(heap.map _).sum_eq, List.map_cons, List.sum_cons, one]
      omega
    · omega

/-! ## Watching one task -/

/-- What the calls of a run meet: the outcome of each driver run for the watched task, and the driver
registry for other tasks and the readings of each call. -/
structure Environment where
  outcome : ℕ → Except DriverError Json
  other : ℕ → DriverRegistry
  readings : ℕ → Readings

/-- The fabric, with the number of driver runs made for the watched task and the number of calls that
returned an error for it. -/
structure Watch where
  fabric : CollectionFabric
  runs : ℕ
  errors : ℕ

/-- The registry of call `k`: the next outcome if the watched task is at the head of the queue. -/
def Environment.drivers (env : Environment) (id : String) (k : ℕ) (w : Watch) : DriverRegistry :=
  match w.fabric.queue.dequeue with
  | some (task, _) => if task.id = id then fun _ _ _ => env.outcome w.runs else env.other k
  | none => env.other k

/-- Call `k`. -/
def Watch.next (env : Environment) (id : String) (k : ℕ) (w : Watch) : Watch :=
  let p := w.fabric.processNext (env.drivers id k w) (env.readings k)
  if p.task.map (·.id) = some id then
    { fabric := p.fabric
      runs := w.runs + if p.outcome.isSome then 1 else 0
      errors := w.errors + match p.result with | .ok _ => 0 | .error _ => 1 }
  else { w with fabric := p.fabric }

/-- The state after `k` calls. -/
def watch (env : Environment) (id : String) (f : CollectionFabric) : ℕ → Watch
  | 0 => ⟨f, 0, 0⟩
  | k + 1 => (watch env id f k).next env id k

/-- The number of failures before the first success, among the first `m` outcomes. -/
def leadingFailures (outcome : ℕ → Except DriverError Json) (m : ℕ) : ℕ :=
  ((List.range m).takeWhile fun j => !(outcome j).toBool).length

/-- The task is done as declared: it was run until its first success or its `max 1 n` failures, no
call failed, and the session tells the outcome. -/
structure Settled (env : Environment) (id : String) (n : ℕ) (w : Watch) : Prop where
  runs : w.runs = min (max 1 n) (leadingFailures env.outcome (max 1 n) + 1)
  errors : w.errors = 0
  session : ∃ s, w.fabric.sessions.lookup id = some s ∧
    if leadingFailures env.outcome (max 1 n) < max 1 n then s.state = .succeeded
    else s.state = .failed ∧ s.attempt = max 1 n

/-- Repeated calls bring the task to its declared end, and leave it there. -/
def Retried (env : Environment) (id : String) (n : ℕ) (f : CollectionFabric) : Prop :=
  ∃ N, ∀ k ≥ N, Settled env id n (watch env id f k)

/-- The number of queued entries of the task. -/
def entries (id : String) (queue : PriorityQueue) : ℕ :=
  queue.heap.countP fun entry => entry.task.id == id

theorem entries_dequeue {task : CollectionTask} {queue : PriorityQueue}
    (hd : f.queue.dequeue = some (task, queue)) (id : String) :
    entries id f.queue = entries id queue + if task.id = id then 1 else 0 := by
  obtain ⟨⟨entry, rfl, -, heap⟩, -⟩ := PriorityQueue.dequeue_some hd
  unfold entries
  rw [← heap.countP_eq, List.countP_cons]
  simp only [beq_iff_eq]

theorem entries_requeued {task : CollectionTask} {queue : PriorityQueue}
    (hd : f.queue.dequeue = some (task, queue)) (now : OffsetDateTime) (id : String) :
    entries id (requeued queue task now) = entries id queue + if task.id = id then 1 else 0 := by
  obtain ⟨entry, he, heap⟩ := requeued_perm hd now
  unfold entries
  rw [heap.countP_eq, List.countP_cons, he]
  simp only [beq_iff_eq]

/-- What a call does to the watched task. -/
inductive WatchStep (env : Environment) (id : String) (k : ℕ) (w : Watch) : Watch → Prop
  | other (f : CollectionFabric) (he : entries id f.queue = entries id w.fabric.queue)
    (hs : f.sessions.lookup id = w.fabric.sessions.lookup id) :
    WatchStep env id k w { w with fabric := f }
  | refused (f : CollectionFabric) (hq : ¬ w.fabric.InState id .queued)
    (he : entries id f.queue + 1 = entries id w.fabric.queue)
    (hs : f.sessions.lookup id = w.fabric.sessions.lookup id) :
    WatchStep env id k w { w with fabric := f, errors := w.errors + 1 }
  | success (f : CollectionFabric) (s : CollectionSession) (output : Json)
    (hl : w.fabric.sessions.lookup id = some s) (hq : s.state = .queued)
    (ho : env.outcome w.runs = .ok output)
    (he : entries id f.queue + 1 = entries id w.fabric.queue)
    (hs : f.sessions.lookup id = some (succeededSession s output (env.readings k))) :
    WatchStep env id k w { w with fabric := f, runs := w.runs + 1 }
  | failure (f : CollectionFabric) (s : CollectionSession) (e : DriverError)
    (hl : w.fabric.sessions.lookup id = some s) (hq : s.state = .queued)
    (ho : env.outcome w.runs = .error e)
    (he : entries id f.queue + 1 =
      entries id w.fabric.queue + if s.attempt + 1 < s.maxRetries then 1 else 0)
    (hs : f.sessions.lookup id = some (failedSession s e (env.readings k))) :
    WatchStep env id k w { w with fabric := f, runs := w.runs + 1 }

theorem drivers_own {env : Environment} {id : String} {k : ℕ} {w : Watch} {task : CollectionTask}
    {queue : PriorityQueue} (hd : w.fabric.queue.dequeue = some (task, queue)) (h : task.id = id) :
    env.drivers id k w = fun _ _ _ => env.outcome w.runs := by
  simp only [Environment.drivers, hd, h, if_true]

theorem next_step (env : Environment) (id : String) (k : ℕ) (w : Watch) (hr : w.fabric.running) :
    WatchStep env id k w (w.next env id k) := by
  unfold Watch.next
  have called := processNext_step w.fabric (env.drivers id k w) (env.readings k)
  generalize w.fabric.processNext (env.drivers id k w) (env.readings k) = p at called ⊢
  cases called with
  | stopped hr' => exact absurd hr hr'
  | empty _ _ => exact .other _ rfl rfl
  | refused task queue e _ hd hs =>
    have count := entries_dequeue hd id
    by_cases h : task.id = id
    · subst h
      rw [if_pos rfl] at count
      simp only [Option.map_some, if_true]
      exact .refused _ hs count.symm rfl
    · rw [if_neg h] at count
      simp only [Option.map_some, Option.some.injEq, h, if_false]
      exact .other _ count.symm rfl
  | success task queue s output _ hd hl hs ho =>
    have count := entries_dequeue hd id
    by_cases h : task.id = id
    · subst h
      rw [if_pos rfl] at count
      rw [drivers_own hd rfl] at ho
      simp only [Option.map_some, if_true]
      exact .success _ s output hl hs ho count.symm (Finmap.lookup_insert _)
    · rw [if_neg h] at count
      simp only [Option.map_some, Option.some.injEq, h, if_false]
      exact .other _ count.symm (Finmap.lookup_insert_of_ne _ (Ne.symm h))
  | failure task queue s e _ hd hl hs ho =>
    have count := entries_dequeue hd id
    have again := entries_requeued hd ((env.readings k).now 3) id
    by_cases h : task.id = id
    · subst h
      rw [if_pos rfl] at count again
      rw [drivers_own hd rfl] at ho
      simp only [Option.map_some, if_true]
      refine .failure _ s e hl hs ho ?_ (Finmap.lookup_insert _)
      simp only [afterFailure]
      split_ifs
      · rw [again, count]
      · exact count.symm
    · rw [if_neg h] at count again
      simp only [Option.map_some, Option.some.injEq, h, if_false]
      refine .other _ ?_ (Finmap.lookup_insert_of_ne _ (Ne.symm h))
      simp only [afterFailure]
      split_ifs
      · rw [again, count]
      · exact count.symm

/-! ## Runs of calls -/

theorem running_processNext (hr : f.running) (drivers : DriverRegistry) (r : Readings) :
    (f.processNext drivers r).fabric.running := by
  have called := processNext_step f drivers r
  generalize f.processNext drivers r = p at called ⊢
  cases called with
  | stopped _ | empty _ _ | refused _ _ _ _ _ _ => exact hr
  | success _ _ _ _ _ _ _ _ _ | failure _ _ _ _ _ _ _ _ _ => rfl

theorem next_fabric (env : Environment) (id : String) (k : ℕ) (w : Watch) :
    (w.next env id k).fabric =
      (w.fabric.processNext (env.drivers id k w) (env.readings k)).fabric := by
  unfold Watch.next
  dsimp only
  split_ifs <;> rfl

section Run

variable (env : Environment) (id : String) (hr : f.running)
include hr

theorem watch_running (k : ℕ) : (watch env id f k).fabric.running := by
  induction k with
  | zero => exact hr
  | succ k ih =>
    rw [watch, next_fabric]
    exact running_processNext ih _ _

/-- The queue is empty after finitely many calls, and stays empty. -/
theorem watch_drained : ∃ N, ∀ k ≥ N, (watch env id f k).fabric.queue.heap = [] := by
  refine eventually_of_measure (fun k => (watch env id f k).fabric) load (·.queue.heap = [])
    (fun k hk => ?_) fun k hk => ?_
  · rw [watch, next_fabric, processNext_empty (watch_running env id hr k) hk]
    exact hk
  · rw [watch, next_fabric]
    exact load_processNext (watch_running env id hr k) hk _ _

/-- A property of the watched task that every call keeps. -/
theorem watch_invariant {I : Watch → Prop} (start : I ⟨f, 0, 0⟩)
    (keep : ∀ k w w', I w → WatchStep env id k w w' → I w') (k : ℕ) : I (watch env id f k) := by
  induction k with
  | zero => exact start
  | succ k ih => exact keep k _ _ ih (next_step env id k _ (watch_running env id hr k))

end Run

theorem entries_eq_zero (id : String) {queue : PriorityQueue} (h : queue.heap = []) :
    entries id queue = 0 := by
  unfold entries
  rw [h]
  rfl

/-! ## The two ends of a task -/

/-- The task was accepted and no driver has run for it. -/
structure Waiting (id : String) (n : ℕ) (w : Watch) : Prop where
  runs : w.runs = 0
  errors : w.errors = 0
  session : ∃ s, w.fabric.sessions.lookup id = some s ∧ s.state = .queued ∧ s.attempt = 0 ∧
    s.maxRetries = n

theorem leadingFailures_ok {outcome : ℕ → Except DriverError Json} {output : Json}
    (h : outcome 0 = .ok output) (m : ℕ) : leadingFailures outcome m = 0 := by
  unfold leadingFailures
  cases m with
  | zero => rfl
  | succ m => simp [List.range_succ_eq_map, h, Except.toBool]

theorem leadingFailures_one {outcome : ℕ → Except DriverError Json} {e : DriverError}
    (h : outcome 0 = .error e) : leadingFailures outcome 1 = 1 := by
  simp [leadingFailures, h, Except.toBool]

section Ends

variable {env : Environment} {id : String} {n : ℕ}

/-- Alone in the queue, or done as declared. -/
def OnCourse (env : Environment) (id : String) (n : ℕ) (w : Watch) : Prop :=
  (entries id w.fabric.queue = 1 ∧ Waiting id n w) ∨
    (entries id w.fabric.queue = 0 ∧ Settled env id n w)

theorem OnCourse.step (hn : n ≤ 1 ∨ (env.outcome 0).toBool) {k : ℕ} {w w' : Watch}
    (h : OnCourse env id n w) (hw : WatchStep env id k w w') : OnCourse env id n w' := by
  rcases h with ⟨one, ⟨runs, errors, s, hl, hq, attempt, hmax⟩⟩ | ⟨none, settled⟩
  · cases hw with
    | other f he hs => exact .inl ⟨he.trans one, runs, errors, s, hs.trans hl, hq, attempt, hmax⟩
    | refused f hq' he hs => exact absurd ⟨s, hl, hq⟩ hq'
    | success f s' output hl' hq' ho he hs =>
      have first := leadingFailures_ok (runs ▸ ho)
      have none : entries id f.queue = 0 := by omega
      refine .inr ⟨none, ?_, errors, _, hs, ?_⟩
      · dsimp only
        rw [first, runs]
        omega
      · rw [first, if_pos (by omega)]
        rfl
    | failure f s' e hl' hq' ho he hs =>
      rw [hl] at hl'
      cases hl'
      rw [runs] at ho
      have small : n ≤ 1 := hn.resolve_right (by rw [ho]; exact Bool.false_ne_true)
      have single : max 1 n = 1 := by omega
      rw [attempt, hmax, if_neg (by omega)] at he
      have none : entries id f.queue = 0 := by omega
      refine .inr ⟨none, ?_, errors, _, hs, ?_⟩
      · dsimp only
        rw [single, leadingFailures_one ho, runs]
        rfl
      · rw [single, leadingFailures_one ho, if_neg (lt_irrefl 1)]
        exact ⟨rfl, by simp [failedSession, CollectionSession.enter, attempt]⟩
  · cases hw with
    | other f he hs =>
      obtain ⟨runs, errors, session⟩ := settled
      exact .inr ⟨he.trans none, runs, errors, by simpa only [hs] using session⟩
    | refused _ _ he _ | success _ _ _ _ _ _ he _ => omega
    | failure _ s _ hl hq _ he _ =>
      obtain ⟨s', hl', hs'⟩ := settled.session
      rw [hl] at hl'
      cases hl'
      split_ifs at hs' with hf
      · rw [hq] at hs'
        cases hs'
      · rw [hq] at hs'
        cases hs'.1

/-- An entry of the task is left for a session that cannot run, or will be. -/
def Doomed (env : Environment) (id : String) (n : ℕ) (w : Watch) : Prop :=
  0 < w.errors ∨
  (Waiting id n w ∧ (2 ≤ entries id w.fabric.queue ∨
    1 ≤ entries id w.fabric.queue ∧ 2 ≤ n ∧ ¬ (env.outcome 0).toBool)) ∨
  (¬ w.fabric.InState id .queued ∧ 1 ≤ entries id w.fabric.queue)

theorem not_inState_of_lookup {f : CollectionFabric} {s : CollectionSession}
    (hl : f.sessions.lookup id = some s) (hs : s.state ≠ .queued) : ¬ f.InState id .queued := by
  rintro ⟨s', hl', hq⟩
  rw [hl] at hl'
  cases hl'
  exact hs hq

theorem Doomed.step {k : ℕ} {w w' : Watch} (h : Doomed env id n w)
    (hw : WatchStep env id k w w') : Doomed env id n w' := by
  rcases h with failed | ⟨⟨runs, errors, s, hl, hq, attempt, hmax⟩, left⟩ | ⟨stuck, left⟩
  · cases hw with
    | other _ _ _ | success _ _ _ _ _ _ _ _ | failure _ _ _ _ _ _ _ _ => exact .inl failed
    | refused _ _ _ _ => exact .inl (Nat.succ_pos _)
  · cases hw with
    | other f he hs =>
      exact .inr (.inl ⟨⟨runs, errors, s, hs.trans hl, hq, attempt, hmax⟩, by rwa [he]⟩)
    | refused _ _ _ _ => exact .inl (Nat.succ_pos _)
    | success f s' output hl' hq' ho he hs =>
      refine .inr (.inr ⟨not_inState_of_lookup hs (by simp [succeededSession,
        CollectionSession.enter]), ?_⟩)
      rw [runs] at ho
      rw [ho] at left
      rcases left with left | ⟨-, -, left⟩
      · dsimp only
        omega
      · exact absurd rfl left
    | failure f s' e hl' hq' ho he hs =>
      refine .inr (.inr ⟨not_inState_of_lookup hs (by simp [failedSession,
        CollectionSession.enter]), ?_⟩)
      rw [hl] at hl'
      cases hl'
      rw [attempt, hmax] at he
      dsimp only
      split_ifs at he <;> omega
  · cases hw with
    | other f he hs =>
      refine .inr (.inr ⟨?_, by rwa [he]⟩)
      unfold InState
      rwa [hs]
    | refused _ _ _ _ => exact .inl (Nat.succ_pos _)
    | success _ s _ hl hq _ _ _ | failure _ s _ hl hq _ _ _ => exact absurd ⟨s, hl, hq⟩ stuck

end Ends

/-! ## Accepted tasks -/

section Accepted

variable {task : CollectionTask} {r : Readings} {f' : CollectionFabric}

theorem enqueue_of_submit (h : f.submit task r = (.ok task.id, f')) :
    ∃ queue, f.queue.enqueue task (r.now 1) = .ok queue := by
  unfold submit at h
  cases he : f.queue.enqueue task (r.now 1) with
  | error e =>
    simp only [he] at h
    cases congrArg Prod.fst h
  | ok queue => exact ⟨queue, rfl⟩

/-- An accepted submission queues the task under a new session. -/
theorem submit_ok (h : f.submit task r = (.ok task.id, f')) :
    f'.running = f.running ∧ entries task.id f'.queue = entries task.id f.queue + 1 ∧
      Waiting task.id task.maxRetries ⟨f', 0, 0⟩ := by
  obtain ⟨queue, he⟩ := enqueue_of_submit h
  unfold submit at h
  simp only [he] at h
  obtain rfl := (congrArg Prod.snd h).symm
  refine ⟨rfl, ?_, rfl, rfl, _, Finmap.lookup_insert _, rfl, rfl, rfl⟩
  unfold entries
  rw [(PriorityQueue.enqueue_ok he).2.countP_eq, List.countP_cons]
  simp

theorem retried_of_alone (hr : f.running) (h : f.submit task r = (.ok task.id, f'))
    {env : Environment} (alone : entries task.id f.queue = 0)
    (hn : task.maxRetries ≤ 1 ∨ (env.outcome 0).toBool) :
    Retried env task.id task.maxRetries f' := by
  obtain ⟨hr', he, waiting⟩ := submit_ok h
  rw [alone] at he
  have hr' := hr'.trans hr
  obtain ⟨N, drained⟩ := watch_drained env task.id hr'
  refine ⟨N, fun k hk => ?_⟩
  have course := watch_invariant env task.id hr' (.inl ⟨he, waiting⟩)
    (fun _ _ _ hi hw => OnCourse.step hn hi hw) k
  have none := entries_eq_zero task.id (drained k hk)
  rcases course with ⟨one, -⟩ | ⟨-, settled⟩
  · omega
  · exact settled

theorem not_retried_of_doomed (hr : f.running) {env : Environment} {id : String} {n : ℕ}
    (h : Doomed env id n ⟨f, 0, 0⟩) : ¬ Retried env id n f := by
  rintro ⟨N, settled⟩
  obtain ⟨M, drained⟩ := watch_drained env id hr
  have doomed := watch_invariant env id hr h (fun _ _ _ hi hw => Doomed.step hi hw) (max N M)
  have none := entries_eq_zero id (drained _ (le_max_right N M))
  have errors := (settled _ (le_max_left N M)).errors
  rcases doomed with failed | ⟨-, left⟩ | ⟨-, left⟩ <;> omega

/-- An accepted task is retried as declared exactly when no other entry of the queue has its id, and
either its first run succeeds or one run is all that is declared. -/
theorem accepted_retried_iff (hr : f.running) (h : f.submit task r = (.ok task.id, f'))
    (env : Environment) :
    Retried env task.id task.maxRetries f' ↔
      entries task.id f.queue = 0 ∧ (task.maxRetries ≤ 1 ∨ (env.outcome 0).toBool) := by
  refine ⟨fun retried => ?_, fun ⟨alone, hn⟩ => retried_of_alone hr h alone hn⟩
  obtain ⟨hr', he, waiting⟩ := submit_ok h
  by_contra doomed
  refine not_retried_of_doomed (hr'.trans hr) (.inr (.inl ⟨waiting, ?_⟩)) retried
  dsimp only
  rw [he]
  by_cases alone : entries task.id f.queue = 0
  · have again : ¬ (task.maxRetries ≤ 1 ∨ (env.outcome 0).toBool) := fun hn => doomed ⟨alone, hn⟩
    push Not at again
    exact .inr ⟨by omega, again⟩
  · exact .inl (by omega)

end Accepted

/-- A driver that always times out. -/
def timeouts : Environment where
  outcome _ := .error (.execution "timeout")
  other _ := fun _ _ _ => .error (.execution "timeout")
  readings _ := sampleReadings

theorem accepted_retried_sample :
    Retried timeouts "t1" 1 ((new .new).submit (sampleTask "t1" 1) sampleReadings).2 := by
  have submitted : (new .new).submit (sampleTask "t1" 1) sampleReadings =
      (.ok "t1", ((new .new).submit (sampleTask "t1" 1) sampleReadings).2) := rfl
  exact (accepted_retried_iff rfl submitted timeouts).2 ⟨rfl, .inl le_rfl⟩

/-- With three attempts declared, the retry of a failed task is refused. -/
theorem accepted_not_retried :
    ¬ Retried timeouts "t1" 3 ((new .new).submit (sampleTask "t1" 3) sampleReadings).2 := by
  have submitted : (new .new).submit (sampleTask "t1" 3) sampleReadings =
      (.ok "t1", ((new .new).submit (sampleTask "t1" 3) sampleReadings).2) := rfl
  obtain ⟨hr, he, waiting⟩ := submit_ok submitted
  exact not_retried_of_doomed hr (.inr (.inl ⟨waiting, .inr ⟨he.ge, by decide, by decide⟩⟩))

/-! ## Reachable queues

Without cancellations the id index covers the queue, so a task that is accepted is the only one with
its id. -/

/-- The queued ids are distinct and all have an entry in the index. -/
structure Distinct (queue : PriorityQueue) : Prop where
  nodup : (queue.heap.map (·.task.id)).Nodup
  indexed : ∀ entry ∈ queue.heap, (queue.byId.lookup entry.task.id).isSome

theorem Distinct.enqueue {queue queue' : PriorityQueue} {task : CollectionTask}
    {now : OffsetDateTime} (h : Distinct queue) (he : queue.enqueue task now = .ok queue') :
    Distinct queue' := by
  obtain ⟨free, heap⟩ := PriorityQueue.enqueue_ok he
  have fresh : ∀ entry ∈ queue.heap, entry.task.id ≠ task.id := by
    intro entry hm hid
    have := h.indexed entry hm
    rw [hid, free] at this
    cases this
  have byId : queue'.byId = queue.byId.insert task.id queue.heap.length := by
    simp only [PriorityQueue.enqueue, free, Option.isSome_none, Bool.false_eq_true, if_false] at he
    cases he
    rfl
  constructor
  · rw [(heap.map _).nodup_iff, List.map_cons, List.nodup_cons]
    refine ⟨fun hm => ?_, h.nodup⟩
    obtain ⟨entry, hm, hid⟩ := List.mem_map.1 hm
    exact fresh entry hm hid
  · intro entry hm
    rw [byId]
    rcases List.mem_cons.1 (heap.mem_iff.1 hm) with rfl | hm
    · rw [Finmap.lookup_insert]
      rfl
    · rw [Finmap.lookup_insert_of_ne _ (fresh entry hm)]
      exact h.indexed entry hm

theorem Distinct.dequeue {queue queue' : PriorityQueue} {task : CollectionTask}
    (h : Distinct queue) (hd : queue.dequeue = some (task, queue')) : Distinct queue' := by
  obtain ⟨⟨taken, rfl, -, heap⟩, byId⟩ := PriorityQueue.dequeue_some hd
  have nodup := (heap.map fun entry => entry.task.id).nodup_iff.2 h.nodup
  rw [List.map_cons, List.nodup_cons] at nodup
  refine ⟨nodup.2, fun entry hm => ?_⟩
  have ne : entry.task.id ≠ taken.task.id := fun hid =>
    nodup.1 (List.mem_map.2 ⟨entry, hm, hid⟩)
  rw [byId, Finmap.lookup_erase_ne ne]
  exact h.indexed entry (heap.mem_iff.1 (List.mem_cons_of_mem _ hm))

theorem Distinct.step (h : Distinct f.queue) (call : Call) : Distinct (f.step call).queue := by
  cases call with
  | submit task r =>
    simp only [CollectionFabric.step, CollectionFabric.submit]
    cases he : f.queue.enqueue task (r.now 1) with
    | error e => exact h
    | ok queue => exact h.enqueue he
  | processNext drivers r =>
    simp only [CollectionFabric.step]
    have called := processNext_step f drivers r
    generalize f.processNext drivers r = p at called ⊢
    cases called with
    | stopped _ | empty _ _ => exact h
    | refused _ _ _ _ hd _ | success _ _ _ _ _ hd _ _ _ => exact h.dequeue hd
    | failure task queue s e _ hd _ _ _ =>
      simp only [afterFailure]
      split_ifs
      · unfold requeued
        cases he : queue.enqueue { task with priority := demoted task.priority } (r.now 3) with
        | error _ => exact h.dequeue hd
        | ok _ => exact (h.dequeue hd).enqueue he
      · exact h.dequeue hd

theorem run_distinct (events : InMemoryEventStore) (calls : List Call) :
    Distinct ((new events).run calls).queue := by
  have start : Distinct (new events).queue :=
    ⟨List.nodup_nil, fun _ h => absurd h List.not_mem_nil⟩
  unfold run
  generalize new events = f at start ⊢
  induction calls generalizing f with
  | nil => exact start
  | cons call calls ih => exact ih (f.step call) (start.step call)

end TORdex.CollectionFabric
