import Mathlib.Algebra.Order.Ring.Nat
import Mathlib.Data.List.Induction
import Mathlib.Data.List.Perm.Basic

/-!
# Work stealing

Every task that was taken in is executed once or still waits.  A worker executes its own tasks in the order of their
submission, and when it has none the newest task of another worker.
-/

namespace TORdex

/-- A task that a worker executed, and the worker it was submitted to. -/
structure Execution (T : Type*) where
  worker : ℕ
  source : ℕ
  task : T

/-- The queues of the workers, and how often one stole. -/
structure WorkStealingScheduler (T : Type*) where
  queues : List (List T)
  stealAttempts : ℕ
  successes : ℕ

namespace WorkStealingScheduler

variable {T : Type*}

/-- Empty queues. -/
def new (numWorkers : ℕ) : WorkStealingScheduler T := ⟨List.replicate numWorkers [], 0, 0⟩

/-- A task for a worker that does not exist is dropped. -/
def submit (s : WorkStealingScheduler T) (worker : ℕ) (task : T) : WorkStealingScheduler T :=
  { s with queues := s.queues.modify worker (· ++ [task]) }

/-- The queue of a worker. -/
def queue (s : WorkStealingScheduler T) (worker : ℕ) : List T := s.queues[worker]?.getD []

/-- The other workers, in the order in which they are tried. -/
def targets (n worker : ℕ) : List ℕ :=
  ((List.range' 1 (n - 1)).map fun i => (worker + i) % n).filter (· ≠ worker)

/-- The newest task of the first of them that has one. -/
def stolen (s : WorkStealingScheduler T) (worker : ℕ) : Option (ℕ × T) :=
  (targets s.queues.length worker).findSome? fun target =>
    (s.queue target).getLast?.map fun task => (target, task)

/-- The answer is `true` with the task that was executed. -/
def tryExecuteNext (s : WorkStealingScheduler T) (worker : ℕ) : Option (Execution T) × WorkStealingScheduler T :=
  match s.queues[worker]? with
  | none => (none, s)
  | some (task :: tasks) => (some ⟨worker, worker, task⟩, { s with queues := s.queues.set worker tasks })
  | some [] =>
    match s.stolen worker with
    | some (target, task) =>
      (some ⟨worker, target, task⟩,
        ⟨s.queues.modify target List.dropLast, s.stealAttempts + 1, s.successes + 1⟩)
    | none => (none, { s with stealAttempts := s.stealAttempts + 1 })

/-- The calls that change a scheduler. -/
inductive Call (T : Type*) where
  | submit (worker : ℕ) (task : T)
  | tryExecuteNext (worker : ℕ)

/-- A call, with the tasks executed so far. -/
def perform : WorkStealingScheduler T × List (Execution T) → Call T → WorkStealingScheduler T × List (Execution T)
  | (s, executed), .submit worker task => (s.submit worker task, executed)
  | (s, executed), .tryExecuteNext worker =>
    let (execution, s) := s.tryExecuteNext worker
    (s, executed ++ execution.toList)

/-! ## Steps -/

section Steps

variable {s : WorkStealingScheduler T} {worker q : ℕ}

theorem queue_modify (queues : List (List T)) (i : ℕ) (f : List T → List T) (q : ℕ) :
    (queues.modify i f)[q]?.getD [] =
      if i = q ∧ q < queues.length then f (queues[q]?.getD []) else queues[q]?.getD [] := by
  rw [List.getElem?_modify]
  by_cases inside : q < queues.length
  · by_cases same : i = q <;> simp [same, inside]
  · simp [inside]

theorem mem_targets (inside : worker < s.queues.length) :
    q ∈ targets s.queues.length worker ↔ q < s.queues.length ∧ q ≠ worker := by
  generalize s.queues.length = n at *
  rw [targets, List.mem_filter, List.mem_map, decide_eq_true_eq]
  refine and_congr_left fun other => ⟨?_, fun below => ?_⟩
  · rintro ⟨i, -, rfl⟩
    exact Nat.mod_lt _ (by omega)
  · by_cases ahead : worker < q
    · refine ⟨q - worker, List.mem_range'_1.2 (by omega), ?_⟩
      rw [Nat.add_sub_of_le (Nat.le_of_lt ahead), Nat.mod_eq_of_lt below]
    · refine ⟨n - worker + q, List.mem_range'_1.2 (by omega), ?_⟩
      rw [show worker + (n - worker + q) = q + n by omega, Nat.add_mod_right, Nat.mod_eq_of_lt below]

theorem lt_of_queue (some : s.queue q ≠ []) : q < s.queues.length := by
  by_contra outside
  exact some (by rw [queue, List.getElem?_eq_none (Nat.le_of_not_lt outside)]; rfl)

/-- What a call of `try_execute_next` can do. -/
inductive Move (s : WorkStealingScheduler T) (worker : ℕ) : Option (Execution T) × WorkStealingScheduler T → Prop
  | idle (attempts : ℕ) : s.stealAttempts ≤ attempts → (worker < s.queues.length → ∀ q, s.queue q = []) →
      Move s worker (none, { s with stealAttempts := attempts })
  | own (task : T) (tasks : List T) : worker < s.queues.length → s.queue worker = task :: tasks →
      Move s worker (some ⟨worker, worker, task⟩, { s with queues := s.queues.set worker tasks })
  | steal (target : ℕ) (task : T) : worker < s.queues.length → target ≠ worker →
      (s.queue target).getLast? = some task →
      Move s worker (some ⟨worker, target, task⟩,
        ⟨s.queues.modify target List.dropLast, s.stealAttempts + 1, s.successes + 1⟩)

theorem move (s : WorkStealingScheduler T) (worker : ℕ) : Move s worker (s.tryExecuteNext worker) := by
  rw [tryExecuteNext]
  cases found : s.queues[worker]? with
  | none => exact .idle _ le_rfl fun inside => absurd found (by simp [inside])
  | some tasks =>
    have inside := (List.getElem?_eq_some_iff.1 found).1
    have here : s.queue worker = tasks := by rw [queue, found]; rfl
    cases tasks with
    | cons task tasks => exact .own task tasks inside here
    | nil =>
      dsimp only
      cases stolen : s.stolen worker with
      | none =>
        refine .idle _ (Nat.le_succ _) fun _ q => ?_
        by_contra some
        have other : q ≠ worker := fun same => some (same ▸ here)
        have missed := List.findSome?_eq_none_iff.1 stolen q
          ((mem_targets inside).2 ⟨lt_of_queue some, other⟩)
        rw [Option.map_eq_none_iff, List.getLast?_eq_none_iff] at missed
        exact some missed
      | some pair =>
        obtain ⟨target', mem, last⟩ := List.exists_of_findSome?_eq_some stolen
        obtain ⟨task, newest, rfl⟩ := Option.map_eq_some_iff.1 last
        exact .steal target' task inside ((mem_targets inside).1 mem).2 newest

/-- A call of an existing worker executes a task whenever there is one. -/
theorem isSome_tryExecuteNext_iff :
    (s.tryExecuteNext worker).1.isSome ↔ worker < s.queues.length ∧ ∃ q, s.queue q ≠ [] := by
  generalize same : s.tryExecuteNext worker = result
  have moved := same ▸ move s worker
  cases moved with
  | idle _ _ empty =>
    refine iff_of_false Bool.false_ne_true ?_
    rintro ⟨inside, q, some⟩
    exact some (empty inside q)
  | own task tasks inside here => exact iff_of_true rfl ⟨inside, worker, by rw [here]; exact List.cons_ne_nil _ _⟩
  | steal target task inside _ newest =>
    refine iff_of_true rfl ⟨inside, target, fun none => ?_⟩
    rw [none] at newest
    cases newest

end Steps

/-! ## Runs -/

section Runs

variable {n : ℕ} {calls : List (Call T)} {s : WorkStealingScheduler T} {executed : List (Execution T)}

/-- The tasks that were submitted to an existing worker. -/
def submitted (n : ℕ) (calls : List (Call T)) (q : ℕ) : List T :=
  calls.filterMap fun
    | .submit worker task => if worker = q ∧ q < n then some task else none
    | .tryExecuteNext _ => none

/-- The executed tasks of a worker. -/
def taken (executed : List (Execution T)) (q : ℕ) : List T :=
  (executed.filter fun e => e.source = q).map (·.task)

/-- Those that it executed itself. -/
def own (executed : List (Execution T)) (q : ℕ) : List T :=
  (executed.filter fun e => e.source = q ∧ e.worker = q).map (·.task)

/-- What holds after some calls. -/
structure Kept (n : ℕ) (calls : List (Call T)) (s : WorkStealingScheduler T) (executed : List (Execution T)) :
    Prop where
  workers : s.queues.length = n
  once : ∀ q, (taken executed q ++ s.queue q).Perm (submitted n calls q)
  inOrder : ∀ q, (own executed q ++ s.queue q).Sublist (submitted n calls q)
  stolen : s.successes = executed.countP fun e => e.source ≠ e.worker
  attempts : s.successes ≤ s.stealAttempts

theorem submitted_tryExecuteNext (calls : List (Call T)) (worker q : ℕ) :
    submitted n (calls ++ [.tryExecuteNext worker]) q = submitted n calls q := by
  rw [submitted, List.filterMap_append]
  exact List.append_nil _

theorem Kept.submit (kept : Kept n calls s executed) (worker : ℕ) (task : T) :
    Kept n (calls ++ [.submit worker task]) (s.submit worker task) executed := by
  obtain ⟨rfl, once, inOrder, stolen, attempts⟩ := kept
  have submitted' : ∀ q, submitted s.queues.length (calls ++ [.submit worker task]) q =
      submitted s.queues.length calls q ++ if worker = q ∧ q < s.queues.length then [task] else [] := by
    intro q
    rw [submitted, List.filterMap_append]
    split_ifs with here <;> simp [here, submitted]
  have queue' : ∀ q, (s.submit worker task).queue q =
      s.queue q ++ if worker = q ∧ q < s.queues.length then [task] else [] := by
    intro q
    refine (queue_modify _ _ _ _).trans ?_
    split_ifs
    · rfl
    · exact (List.append_nil _).symm
  refine ⟨List.length_modify _ _ _, fun q => ?_, fun q => ?_, stolen, attempts⟩
  · rw [submitted', queue', ← List.append_assoc]
    exact (once q).append_right _
  · rw [submitted', queue', ← List.append_assoc]
    exact (inOrder q).append (List.Sublist.refl _)

theorem taken_append (executed : List (Execution T)) (e : Execution T) (q : ℕ) :
    taken (executed ++ [e]) q = taken executed q ++ if e.source = q then [e.task] else [] := by
  rw [taken, List.filter_append, List.map_append]
  split_ifs with here <;> simp [here, taken]

theorem own_append (executed : List (Execution T)) (e : Execution T) (q : ℕ) :
    own (executed ++ [e]) q = own executed q ++ if e.source = q ∧ e.worker = q then [e.task] else [] := by
  rw [own, List.filter_append, List.map_append]
  split_ifs with here <;> simp [here, own]

theorem Kept.tryExecuteNext (kept : Kept n calls s executed) (worker : ℕ) :
    Kept n (calls ++ [.tryExecuteNext worker]) (s.tryExecuteNext worker).2
      (executed ++ (s.tryExecuteNext worker).1.toList) := by
  obtain ⟨rfl, once, inOrder, stolen, attempts⟩ := kept
  simp only [← submitted_tryExecuteNext (n := s.queues.length) calls worker] at once inOrder
  generalize same : s.tryExecuteNext worker = result
  have moved := same ▸ move s worker
  cases moved with
  | idle attempts' more _ =>
    rw [Option.toList_none, List.append_nil]
    exact ⟨rfl, once, inOrder, stolen, attempts.trans more⟩
  | own task tasks inside here =>
    have moved : ∀ q (l : List T), (l ++ if worker = q then [task] else []) ++
        (s.queues.set worker tasks)[q]?.getD [] = l ++ s.queue q := by
      intro q l
      rw [List.getElem?_set]
      by_cases mine : worker = q
      · subst mine
        rw [if_pos rfl, if_pos rfl, if_pos inside, here, List.append_assoc]
        rfl
      · rw [if_neg mine, if_neg mine, List.append_nil]
        rfl
    refine ⟨List.length_set, fun q => ?_, fun q => ?_, ?_, attempts⟩
    · rw [Option.toList_some, taken_append, queue, moved]
      exact once q
    · simp only [Option.toList_some, own_append, and_self]
      rw [queue, moved]
      exact inOrder q
    · simp [stolen]
  | steal target task inside other newest =>
    have inside' : target < s.queues.length := lt_of_queue fun none => by
      rw [none] at newest
      cases newest
    have parts : (s.queue target).dropLast ++ [task] = s.queue target := List.dropLast_append_getLast? task newest
    refine ⟨List.length_modify _ _ _, fun q => ?_, fun q => ?_, ?_, Nat.succ_le_succ attempts⟩
    · refine List.Perm.trans ?_ (once q)
      rw [Option.toList_some, taken_append, queue, queue_modify]
      by_cases mine : target = q
      · subst mine
        rw [if_pos rfl, if_pos ⟨rfl, inside'⟩, ← parts, List.append_assoc]
        exact List.perm_append_comm.append_left _
      · rw [if_neg mine, if_neg fun h => mine h.1, List.append_nil]
        rfl
    · refine List.Sublist.trans ?_ (inOrder q)
      rw [Option.toList_some, own_append, queue, queue_modify, if_neg fun h => other (h.1.trans h.2.symm),
        List.append_nil]
      split_ifs
      · exact (List.dropLast_sublist _).append_left _
      · exact List.Sublist.refl _
    · simp [stolen, other]

/-- **In every run each task that was taken in is executed once or waits, and a worker executes its own tasks in the
order of their submission**; a call of an existing worker executes a task unless none waits anywhere, and what is
executed for another worker is what is counted as stolen. -/
theorem executed_once (n : ℕ) (calls : List (Call T)) :
    let (s, executed) := calls.foldl perform (new n, [])
    (∀ q, (taken executed q ++ s.queue q).Perm (submitted n calls q)) ∧
      (∀ q, (own executed q ++ s.queue q).Sublist (submitted n calls q)) ∧
      (∀ worker, (s.tryExecuteNext worker).1.isSome ↔ worker < n ∧ ∃ q, s.queue q ≠ []) ∧
      s.successes = executed.countP (fun e => e.source ≠ e.worker) ∧ s.successes ≤ s.stealAttempts := by
  have kept : Kept n calls (calls.foldl perform (new n, [])).1 (calls.foldl perform (new n, [])).2 := by
    induction calls using List.reverseRecOn with
    | nil =>
      have empty : ∀ q, (new n : WorkStealingScheduler T).queue q = [] := by
        intro q
        rw [queue, new, List.getElem?_replicate]
        split_ifs <;> rfl
      refine ⟨List.length_replicate, fun q => ?_, fun q => ?_, rfl, le_rfl⟩
      · exact (empty q).symm ▸ .refl _
      · exact (empty q).symm ▸ .refl _
    | append_singleton calls call ih =>
      rw [List.foldl_append]
      cases call with
      | submit worker task => exact ih.submit worker task
      | tryExecuteNext worker => exact ih.tryExecuteNext worker
  obtain ⟨workers, once, inOrder, stolen, attempts⟩ := kept
  exact ⟨once, inOrder, fun worker => isSome_tryExecuteNext_iff.trans (by rw [workers]), stolen, attempts⟩

/-- The second worker steals the newest task. -/
example : ([Call.submit 0 1, .submit 0 2, .tryExecuteNext 1, .tryExecuteNext 0].foldl perform (new 2, [])).2.map
    (fun e => (e.worker, e.source, e.task)) = [(1, 0, 2), (0, 0, 1)] := by decide

end Runs

end WorkStealingScheduler

end TORdex
