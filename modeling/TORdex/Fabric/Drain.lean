import TORdex.Fabric.Retry

/-!
# Draining the queue

`drain` calls `process_next` until the queue is empty or a call fails.  A task that fails is put back for a retry, and
the call that takes it off again fails; so the first retry to come up ends the loop, and is dropped.
-/

namespace TORdex.CollectionFabric

/-- What the `k`-th call of `process_next` meets. -/
abbrev World := ℕ → DriverRegistry × Readings

/-- Calls of `process_next` while they process a task; `none` when the fuel runs out. -/
def drain (world : World) : ℕ → ℕ → CollectionFabric → Option (ℕ × CollectionFabric)
  | 0, _, _ => none
  | fuel + 1, count, f =>
    let p := f.processNext (world count).1 (world count).2
    match p.result with
    | .ok (some _) => drain world fuel (count + 1) p.fabric
    | _ => some (count, p.fabric)

/-- A session that failed with retries left. -/
def Retryable (f : CollectionFabric) (id : String) : Prop :=
  ∃ s, f.sessions.lookup id = some s ∧ s.state = .failed ∧ s.attempt < s.maxRetries

/-- A session whose driver was run. -/
def Ran (f : CollectionFabric) (id : String) : Prop :=
  ∃ s, f.sessions.lookup id = some s ∧ (s.state = .succeeded ∨ s.state = .failed)

/-- Tasks with ids of their own wait in the queue. -/
structure Waits (f : CollectionFabric) : Prop where
  running : f.running
  distinct : (f.queue.heap.map (·.task.id)).Nodup
  queued : ∀ entry ∈ f.queue.heap, f.InState entry.task.id .queued

/-- While the queue of `start` is drained: the tasks that were run, those that wait, and the retries. -/
structure Draining (start f : CollectionFabric) (done waiting retries : List QueueEntry) : Prop where
  running : f.running
  tasks : start.queue.heap.Perm (done ++ waiting)
  heap : f.queue.heap.Perm (waiting ++ retries)
  waits : ∀ entry ∈ waiting, f.sessions.lookup entry.task.id = start.sessions.lookup entry.task.id
  ran : ∀ entry ∈ done, f.Ran entry.task.id
  again : ∀ retry ∈ retries, ∃ entry ∈ done, entry.task.id = retry.task.id ∧ f.Retryable retry.task.id
  once : (retries.map (·.task.id)).Nodup
  back : ∀ entry ∈ done, f.Retryable entry.task.id → ∃ retry ∈ retries, retry.task.id = entry.task.id

section Steps

variable {start f : CollectionFabric} {done waiting retries : List QueueEntry} {entry : QueueEntry}

theorem Retryable.not_queued {id : String} (retry : f.Retryable id) : ¬f.InState id .queued := by
  obtain ⟨s, found, failed, -⟩ := retry
  rintro ⟨s', found', queued⟩
  obtain rfl := Option.some.inj (found.symm.trans found')
  rw [failed] at queued
  cases queued

/-- The session of another task does not matter. -/
theorem Ran.of_ne {g : CollectionFabric} {id id' : String} {s : CollectionSession} (ran : f.Ran id) (ne : id ≠ id')
    (sessions : g.sessions = f.sessions.insert id' s) : g.Ran id := by
  obtain ⟨s', found, state⟩ := ran
  exact ⟨s', by rw [sessions, Finmap.lookup_insert_of_ne _ ne, found], state⟩

theorem retryable_congr {g : CollectionFabric} {id id' : String} {s : CollectionSession} (ne : id ≠ id')
    (sessions : g.sessions = f.sessions.insert id' s) : g.Retryable id ↔ f.Retryable id := by
  rw [Retryable, Retryable, sessions, Finmap.lookup_insert_of_ne _ ne]

namespace Draining

variable (h : Draining start f done waiting retries) (waits : Waits start)
include h waits

theorem distinct : ((done ++ waiting).map (·.task.id)).Nodup :=
  (h.tasks.map _).nodup_iff.1 waits.distinct

theorem ne_of_mem {e e' : QueueEntry} (inDone : e ∈ done) (inWaiting : e' ∈ waiting) : e.task.id ≠ e'.task.id := by
  have distinct := h.distinct waits
  rw [List.map_append] at distinct
  exact (List.nodup_append.1 distinct).2.2 _ (List.mem_map_of_mem inDone) _ (List.mem_map_of_mem inWaiting)

/-- A task that is not a retry is queued. -/
theorem queued (mem : entry ∈ waiting) : f.InState entry.task.id .queued := by
  obtain ⟨s, found, state⟩ := waits.queued entry (h.tasks.mem_iff.2 (List.mem_append_right _ mem))
  exact ⟨s, (h.waits entry mem).trans found, state⟩

omit h waits in
/-- The next task is run: it is done, and comes back if it failed with retries left. -/
theorem next {before after : List QueueEntry} (h : Draining start f done (before ++ entry :: after) retries)
    (waits : Waits start) {g : CollectionFabric} {s : CollectionSession} (running : g.running)
    (sessions : g.sessions = f.sessions.insert entry.task.id s) (state : s.state = .succeeded ∨ s.state = .failed)
    (again : List QueueEntry) (heap : g.queue.heap.Perm (before ++ after ++ (again ++ retries)))
    (retried : (again = [] ∧ ¬(s.state = .failed ∧ s.attempt < s.maxRetries)) ∨
      ∃ retry, again = [retry] ∧ retry.task.id = entry.task.id ∧ s.state = .failed ∧ s.attempt < s.maxRetries) :
    Draining start g (done ++ [entry]) (before ++ after) (again ++ retries) := by
  have here : entry ∈ before ++ entry :: after := List.mem_append_right _ List.mem_cons_self
  have found : g.sessions.lookup entry.task.id = some s := by rw [sessions, Finmap.lookup_insert]
  have doneNe : ∀ e ∈ done, e.task.id ≠ entry.task.id := fun e mem => h.ne_of_mem waits mem here
  have retryNe : ∀ r ∈ retries, r.task.id ≠ entry.task.id := fun r mem => by
    obtain ⟨e, inDone, same, -⟩ := h.again r mem
    exact same ▸ doneNe e inDone
  have retryable : g.Retryable entry.task.id ↔ s.state = .failed ∧ s.attempt < s.maxRetries := by
    rw [Retryable, found]
    simp
  refine ⟨running, h.tasks.trans ?_, heap, fun e mem => ?_, fun e mem => ?_, fun r mem => ?_, ?_, fun e mem => ?_⟩
  · rw [List.append_assoc, List.singleton_append]
    exact List.perm_middle.append_left done
  · have distinct := h.distinct waits
    have apart : e.task.id ≠ entry.task.id := by
      have rest := distinct.sublist ((List.sublist_append_right done _).map _)
      rw [List.map_append, List.map_cons, List.nodup_middle, List.nodup_cons, ← List.map_append] at rest
      exact fun same => rest.1 (same ▸ List.mem_map_of_mem mem)
    rw [sessions, Finmap.lookup_insert_of_ne _ apart]
    refine h.waits e ?_
    rcases List.mem_append.1 mem with first | last
    · exact List.mem_append_left _ first
    · exact List.mem_append_right _ (List.mem_cons_of_mem _ last)
  · rcases List.mem_append.1 mem with old | new
    · exact (h.ran e old).of_ne (doneNe e old) sessions
    · rw [List.mem_singleton.1 new]
      exact ⟨s, found, state⟩
  · rcases List.mem_append.1 mem with new | old
    · rcases retried with ⟨rfl, -⟩ | ⟨retry, rfl, same, failed⟩
      · cases new
      · rw [List.mem_singleton.1 new]
        exact ⟨entry, List.mem_append_right _ List.mem_cons_self, same.symm, same ▸ retryable.2 failed⟩
    · obtain ⟨e, inDone, same, kept⟩ := h.again r old
      exact ⟨e, List.mem_append_left _ inDone, same, (retryable_congr (retryNe r old) sessions).2 kept⟩
  · rcases retried with ⟨rfl, -⟩ | ⟨retry, rfl, same, -⟩
    · exact h.once
    · rw [List.singleton_append, List.map_cons, List.nodup_cons]
      refine ⟨fun inside => ?_, h.once⟩
      obtain ⟨r, mem, eq⟩ := List.mem_map.1 inside
      exact retryNe r mem (eq.trans same)
  · intro again'
    rcases List.mem_append.1 mem with old | new
    · obtain ⟨r, inside, same⟩ := h.back e old ((retryable_congr (doneNe e old) sessions).1 again')
      exact ⟨r, List.mem_append_right _ inside, same⟩
    · obtain rfl := List.mem_singleton.1 new
      rcases retried with ⟨-, final⟩ | ⟨retry, rfl, same, -⟩
      · exact absurd (retryable.1 again') final
      · exact ⟨retry, List.mem_append_left _ List.mem_cons_self, same⟩

end Draining

theorem Draining.retryable_of_mem (h : Draining start f done waiting retries) (mem : entry ∈ retries) :
    f.Retryable entry.task.id := by
  obtain ⟨_, -, -, retry⟩ := h.again entry mem
  exact retry

/-- What a call takes off the queue: a retry, or a task that waits. -/
theorem Draining.taken (h : Draining start f done waiting retries) {task : CollectionTask} {queue : PriorityQueue}
    (dequeued : f.queue.dequeue = some (task, queue)) : ∃ entry : QueueEntry, entry.task = task ∧
      ((∃ before after, waiting = before ++ entry :: after ∧ queue.heap.Perm (before ++ after ++ retries)) ∨
        ∃ before after, retries = before ++ entry :: after ∧ queue.heap.Perm (waiting ++ (before ++ after))) := by
  obtain ⟨⟨entry, rfl, -, heap⟩, -⟩ := PriorityQueue.dequeue_some dequeued
  refine ⟨entry, rfl, ?_⟩
  have all := heap.trans h.heap
  rcases List.mem_append.1 (all.subset List.mem_cons_self) with mem | mem
  · obtain ⟨before, after, rfl⟩ := List.append_of_mem mem
    refine .inl ⟨before, after, rfl, (List.perm_cons entry).1 (all.trans ?_)⟩
    exact List.perm_middle.append_right retries
  · obtain ⟨before, after, rfl⟩ := List.append_of_mem mem
    refine .inr ⟨before, after, rfl, (List.perm_cons entry).1 (all.trans ?_)⟩
    exact (List.perm_middle.append_left waiting).trans List.perm_middle

end Steps

/-! ## The end of the loop -/

/-- Where `drain` ends: the queue is empty and nothing is to be retried, or a retry was dropped. -/
structure Drained (start f : CollectionFabric) (done waiting : List QueueEntry) : Prop where
  tasks : start.queue.heap.Perm (done ++ waiting)
  ran : ∀ entry ∈ done, f.Ran entry.task.id
  left : ∀ entry ∈ waiting, entry ∈ f.queue.heap ∧
    f.sessions.lookup entry.task.id = start.sessions.lookup entry.task.id
  ended : (f.queue.heap = [] ∧ ∀ entry ∈ done, ¬f.Retryable entry.task.id) ∨
    ∃ entry ∈ done, f.Retryable entry.task.id ∧ ∀ other ∈ f.queue.heap, other.task.id ≠ entry.task.id

section Loop

variable {start f : CollectionFabric} {done waiting retries : List QueueEntry} {world : World}

/-- More fuel changes nothing. -/
theorem drain_succ {fuel count : ℕ} {result : ℕ × CollectionFabric} (h : drain world fuel count f = some result) :
    drain world (fuel + 1) count f = some result := by
  induction fuel generalizing f count with
  | zero => cases h
  | succ fuel ih =>
    rw [drain] at h ⊢
    split at h
    · exact ih h
    · exact h

theorem Draining.drained (h : Draining start f done waiting retries) (waits : Waits start) (world : World)
    {fuel : ℕ} (enough : f.load < fuel) :
    ∃ done' waiting' f', drain world fuel done.length f = some (done'.length, f') ∧
      Drained start f' done' waiting' := by
  induction fuel generalizing f done waiting retries with
  | zero => exact absurd enough (Nat.not_lt_zero _)
  | succ fuel ih =>
    have called := processNext_step f (world done.length).1 (world done.length).2
    have some : ∀ {taken}, f.queue.dequeue = some taken → f.queue.heap ≠ [] := fun dequeued none => by
      rw [(PriorityQueue.dequeue_eq_none_iff _).2 none] at dequeued
      cases dequeued
    have less : f.queue.heap ≠ [] → (f.processNext (world done.length).1 (world done.length).2).fabric.load < fuel :=
      fun some => (load_processNext h.running some _ _).trans_le (Nat.le_of_lt_succ enough)
    rw [drain]
    generalize f.processNext (world done.length).1 (world done.length).2 = p at called less ⊢
    cases called with
    | stopped stopped => exact absurd h.running stopped
    | empty _ none =>
      obtain ⟨rfl, rfl⟩ := List.append_eq_nil_iff.1 (none ▸ h.heap).nil_eq.symm
      refine ⟨done, [], f, rfl, h.tasks, h.ran, nofun, .inl ⟨none, fun entry mem retry => ?_⟩⟩
      obtain ⟨_, inside, -⟩ := h.back entry mem retry
      cases inside
    | refused task queue e _ dequeued notQueued =>
      obtain ⟨entry, rfl, ⟨before, after, rfl, -⟩ | ⟨before, after, rfl, rest⟩⟩ := h.taken dequeued
      · exact absurd (h.queued waits (List.mem_append_right _ List.mem_cons_self)) notQueued
      · obtain ⟨first, inDone, same, retry⟩ := h.again entry (List.mem_append_right _ List.mem_cons_self)
        refine ⟨done, waiting, _, rfl, h.tasks, h.ran, fun e mem => ⟨?_, h.waits e mem⟩,
          .inr ⟨first, inDone, same ▸ retry, fun other mem => ?_⟩⟩
        · exact rest.mem_iff.2 (List.mem_append_left _ mem)
        · rcases List.mem_append.1 (rest.mem_iff.1 mem) with waiting | retries
          · exact (h.ne_of_mem waits inDone waiting).symm
          · have once := h.once
            rw [List.map_append, List.map_cons, List.nodup_middle, List.nodup_cons, ← List.map_append] at once
            exact fun eq => once.1 (eq.trans same ▸ List.mem_map_of_mem retries)
    | success task queue s output _ dequeued found queued _ =>
      obtain ⟨entry, rfl, ⟨before, after, rfl, rest⟩ | ⟨before, after, rfl, -⟩⟩ := h.taken dequeued
      · have next := h.next waits (g := f.afterSuccess entry.task queue s output (world done.length).2) rfl rfl
          (.inl rfl) [] rest (.inl ⟨rfl, fun failed => nomatch failed.1⟩)
        have last := ih next (less (some dequeued))
        rwa [List.length_append, List.length_singleton] at last
      · have retry : f.Retryable entry.task.id :=
          h.retryable_of_mem (List.mem_append_right _ List.mem_cons_self)
        exact absurd ⟨s, found, queued⟩ retry.not_queued
    | failure task queue s e _ dequeued found queued _ =>
      obtain ⟨entry, rfl, ⟨before, after, rfl, rest⟩ | ⟨before, after, rfl, -⟩⟩ := h.taken dequeued
      · have next : ∃ again, Draining start (f.afterFailure entry.task queue s e (world done.length).2)
            (done ++ [entry]) (before ++ after) (again ++ retries) := by
          by_cases more : s.attempt + 1 < s.maxRetries
          · obtain ⟨retry, same, heap⟩ := requeued_perm dequeued ((world done.length).2.now 3)
            refine ⟨[retry], h.next waits rfl rfl (.inr rfl) [retry] ?_ (.inr ⟨retry, rfl, same, rfl, more⟩)⟩
            rw [afterFailure, if_pos more]
            refine heap.trans ((rest.cons retry).trans ?_)
            exact List.perm_middle.symm
          · refine ⟨[], h.next waits rfl rfl (.inr rfl) [] ?_ (.inl ⟨rfl, fun failed => more failed.2⟩)⟩
            rw [afterFailure, if_neg more]
            exact rest
        obtain ⟨again, next⟩ := next
        have last := ih next (less (some dequeued))
        rwa [List.length_append, List.length_singleton] at last
      · have retry : f.Retryable entry.task.id :=
          h.retryable_of_mem (List.mem_append_right _ List.mem_cons_self)
        exact absurd ⟨s, found, queued⟩ retry.not_queued

/-- `drain` on tasks that wait. -/
theorem Waits.drained (waits : Waits f) (world : World) :
    ∃ N done waiting f', (∀ fuel ≥ N, drain world fuel 0 f = some (done.length, f')) ∧
      Drained f f' done waiting := by
  have first : Draining f f [] f.queue.heap [] :=
    ⟨waits.running, .refl _, by rw [List.append_nil], fun _ _ => rfl, nofun, nofun, List.nodup_nil, nofun⟩
  obtain ⟨done, waiting, f', drained, ends⟩ := first.drained waits world (Nat.lt_succ_self f.load)
  refine ⟨f.load + 1, done, waiting, f', fun fuel enough => ?_, ends⟩
  induction fuel, enough using Nat.le_induction with
  | base => exact drained
  | succ fuel _ ih => exact drain_succ ih

/-- A submission starts the session anew, and leaves the queue as it is or with the task in it. -/
theorem Waits.submit (waits : Waits f) (distinct : Distinct f.queue) (task : CollectionTask) (r : Readings) :
    Waits (f.step (.submit task r)) := by
  have next := distinct.step (.submit task r)
  have created : (f.step (.submit task r)).sessions = f.sessions.create task.id task.target.locator task.driver
      task.capability task.maxRetries task.metadata (r.now 0) ∧ (f.step (.submit task r)).running = f.running ∧
      ∀ entry ∈ (f.step (.submit task r)).queue.heap, entry.task.id = task.id ∨ entry ∈ f.queue.heap := by
    simp only [step, CollectionFabric.submit]
    cases accepted : f.queue.enqueue task (r.now 1) with
    | error e => exact ⟨rfl, rfl, fun entry mem => .inr mem⟩
    | ok queue =>
      refine ⟨rfl, rfl, fun entry mem => ?_⟩
      rcases List.mem_cons.1 ((PriorityQueue.enqueue_ok accepted).2.mem_iff.1 mem) with rfl | old
      · exact .inl rfl
      · exact .inr old
  obtain ⟨sessions, running, heap⟩ := created
  refine ⟨running ▸ waits.running, next.nodup, fun entry mem => ?_⟩
  rw [InState, sessions, SessionManager.create]
  by_cases own : entry.task.id = task.id
  · rw [own, Finmap.lookup_insert]
    exact ⟨_, rfl, rfl⟩
  · rw [Finmap.lookup_insert_of_ne _ own]
    exact waits.queued entry ((heap entry mem).resolve_left own)

end Loop

/-- The calls that submit some tasks. -/
def submissions (tasks : List (CollectionTask × Readings)) : List Call := tasks.map fun t => .submit t.1 t.2

theorem waits_run_submissions (events : InMemoryEventStore) (tasks : List (CollectionTask × Readings)) :
    Waits ((new events).run (submissions tasks)) := by
  induction tasks using List.reverseRecOn with
  | nil => exact ⟨rfl, List.nodup_nil, nofun⟩
  | append_singleton tasks t ih =>
    rw [submissions, List.map_append, run, List.foldl_append]
    exact ih.submit (run_distinct events _) t.1 t.2

/-- **After any submissions `drain` ends, having run the tasks it came to once each, and the queue is empty unless one
of them failed with retries left**: then it ended at the first retry to come up, which is lost, and the tasks behind it
still wait. -/
theorem drain_submitted (events : InMemoryEventStore) (tasks : List (CollectionTask × Readings)) (world : World) :
    ∃ N done waiting f', (∀ fuel ≥ N,
        drain world fuel 0 ((new events).run (submissions tasks)) = some (done.length, f')) ∧
      Drained ((new events).run (submissions tasks)) f' done waiting :=
  (waits_run_submissions events tasks).drained world

/-- The retry of the first task ends the loop, and the second one still waits. -/
example : (drain (fun _ => (fun _ _ _ => .error (.execution "timeout"), sampleReadings)) 5 0
    ((new .new).run (submissions [({ sampleTask "t1" 2 with priority := .critical }, sampleReadings),
      ({ sampleTask "t2" 0 with priority := .low }, sampleReadings)]))).map
      (fun p => (p.1, p.2.queue.heap.map (·.task.id))) = some (1, ["t2"]) := by decide

end TORdex.CollectionFabric
