import Mathlib.Data.Multiset.AddSub
import TORdex.Fabric.Queue

/-!
# The queue as a set of tasks

A queue is meant to be a collection of tasks with distinct ids.  `Follows` says what a call may answer
and leave there.  The heap follows it as long as no cancellation finds a stale position in the index:
the loops that restore the heap move entries without telling the index.
-/

namespace TORdex

/-- A call on the queue. -/
inductive QueueCall where
  | enqueue (task : CollectionTask) (now : OffsetDateTime)
  | dequeue
  | cancel (taskId : String)

/-- What a call returns. -/
inductive QueueAnswer where
  | enqueued
  | dequeued (task : CollectionTask)
  | empty
  | cancelled
  | refused (error : FabricError)

/-- What a call may answer on a collection of tasks, and what it leaves. -/
inductive Follows : Multiset CollectionTask → QueueCall → QueueAnswer → Multiset CollectionTask → Prop
  | enqueued {tasks task now} (free : ∀ t ∈ tasks, t.id ≠ task.id) :
    Follows tasks (.enqueue task now) .enqueued (task ::ₘ tasks)
  | duplicate {tasks task now} (taken : ∃ t ∈ tasks, t.id = task.id) :
    Follows tasks (.enqueue task now) (.refused (.duplicateTask task.id)) tasks
  | dequeued {tasks task} : Follows (task ::ₘ tasks) .dequeue (.dequeued task) tasks
  | empty : Follows 0 .dequeue .empty 0
  | cancelled {tasks task} : Follows (task ::ₘ tasks) (.cancel task.id) .cancelled tasks
  | missing {tasks id} (absent : ∀ t ∈ tasks, t.id ≠ id) :
    Follows tasks (.cancel id) (.refused (.taskNotFound id)) tasks

theorem Follows.cancelled_inv {s s' : Multiset CollectionTask} {id : String}
    (h : Follows s (.cancel id) .cancelled s') : ∃ t : CollectionTask, t.id = id ∧ s = t ::ₘ s' := by
  cases h with
  | cancelled => exact ⟨_, rfl, rfl⟩

namespace PriorityQueue

/-- The queued tasks. -/
def tasks (q : PriorityQueue) : Multiset CollectionTask :=
  (q.heap : Multiset QueueEntry).map QueueEntry.task

/-- The answer to a call and the queue after it; `none` when the call panics. -/
def perform (q : PriorityQueue) : QueueCall → Option (QueueAnswer × PriorityQueue)
  | .enqueue task now =>
    match q.enqueue task now with
    | .ok q' => some (.enqueued, q')
    | .error e => some (.refused e, q)
  | .dequeue =>
    match q.dequeue with
    | some (task, q') => some (.dequeued task, q')
    | none => some (.empty, q)
  | .cancel taskId =>
    match q.cancel taskId with
    | none => none
    | some (.ok q') => some (.cancelled, q')
    | some (.error e) => some (.refused e, q)

/-- No call of the run panics, and each does to the queued tasks what it is meant to do. -/
def Implements : PriorityQueue → List QueueCall → Prop
  | _, [] => True
  | q, call :: calls => ∃ answer q', q.perform call = some (answer, q') ∧
      Follows q.tasks call answer q'.tasks ∧ Implements q' calls

/-- The call does not cancel a task whose position the index has wrong. -/
def Finds (q : PriorityQueue) : QueueCall → Prop
  | .cancel taskId => ∀ idx, q.byId.lookup taskId = some idx →
      ∃ entry, q.heap[idx]? = some entry ∧ entry.task.id = taskId
  | _ => True

/-- No call of the run finds a stale position. -/
def FindsAll : PriorityQueue → List QueueCall → Prop
  | _, [] => True
  | q, call :: calls => q.Finds call ∧
      ∀ answer q', q.perform call = some (answer, q') → FindsAll q' calls

/-- The queued tasks have distinct ids, and the index knows exactly these. -/
structure Tracked (q : PriorityQueue) : Prop where
  nodup : (q.tasks.map CollectionTask.id).Nodup
  known : ∀ id, (q.byId.lookup id).isSome ↔ ∃ t ∈ q.tasks, t.id = id

theorem tracked_new : Tracked new := ⟨by simp [tasks, new], by simp [tasks, new]⟩

theorem tasks_eq_of_perm {q q' : PriorityQueue} {entry : QueueEntry}
    (h : q.heap.Perm (entry :: q'.heap)) : q.tasks = entry.task ::ₘ q'.tasks := by
  unfold tasks
  rw [Multiset.coe_eq_coe.2 h, ← Multiset.cons_coe, Multiset.map_cons]

/-! ## The calls -/

section Calls

variable {q q' : PriorityQueue} {task : CollectionTask} {now : OffsetDateTime} {taskId : String}

theorem tasks_enqueue (h : q.enqueue task now = .ok q') : q'.tasks = task ::ₘ q.tasks :=
  tasks_eq_of_perm (enqueue_ok h).2

theorem tasks_dequeue (h : q.dequeue = some (task, q')) : q.tasks = task ::ₘ q'.tasks := by
  obtain ⟨⟨entry, rfl, -, perm⟩, -⟩ := dequeue_some h
  exact tasks_eq_of_perm perm.symm

theorem lt_of_cancel {idx : ℕ} (hidx : q.byId.lookup taskId = some idx)
    (h : (q.cancel taskId).isSome) : idx < q.heap.length := by
  by_contra hlt
  simp [cancel, hidx, hlt] at h

/-- A cancellation removes the entry at the position of the index. -/
theorem cancel_perm {idx : ℕ} (hidx : q.byId.lookup taskId = some idx)
    (h : q.cancel taskId = some (.ok q')) :
    ∃ entry, q.heap[idx]? = some entry ∧ q.heap.Perm (entry :: q'.heap) := by
  obtain ⟨hlt, rfl⟩ := cancel_inv hidx h
  refine ⟨q.heap[idx], List.getElem?_eq_getElem hlt, ?_⟩
  have rest := (BinaryHeap.dropLast_perm
    (BinaryHeap.getLast?_swap (List.getElem?_eq_getElem hlt))).trans (BinaryHeap.swap_perm _ _ _)
  exact (((restored_perm _ _).cons _).trans rest).symm

theorem cancel_missing (h : q.byId.lookup taskId = none) :
    q.cancel taskId = some (.error (.taskNotFound taskId)) := by
  simp only [cancel, h]

/-- A cancellation takes the id out of the index and, but for the ids of queued tasks, adds none. -/
theorem lookup_cancel (tracked : q.Tracked) {idx : ℕ} (hidx : q.byId.lookup taskId = some idx)
    (h : q.cancel taskId = some (.ok q')) (id : String) :
    (q'.byId.lookup id).isSome ↔ id ≠ taskId ∧ (q.byId.lookup id).isSome := by
  obtain ⟨hlt, rfl⟩ := cancel_inv hidx h
  have member : ∀ {e}, (BinaryHeap.swap q.heap idx (q.heap.length - 1))[idx]? = some e →
      (q.byId.lookup e.task.id).isSome := by
    intro e he
    have hm := (BinaryHeap.swap_perm _ _ _).mem_iff.1 (List.mem_of_getElem? he)
    exact (tracked.known _).2 ⟨e.task, Multiset.mem_map_of_mem _ (Multiset.mem_coe.2 hm), rfl⟩
  dsimp only
  by_cases hid : id = taskId
  · subst hid
    rw [Finmap.lookup_erase]
    simp
  rw [Finmap.lookup_erase_ne hid]
  simp only [hid, ne_eq, not_false_eq_true, true_and]
  split
  · rename_i e he
    split_ifs
    · rw [Finmap.lookup_erase_ne hid]
    · by_cases hk : id = e.task.id
      · rw [hk, Finmap.lookup_insert]
        simpa using member he
      · rw [Finmap.lookup_insert_of_ne _ hk, Finmap.lookup_erase_ne hid]
  · rw [Finmap.lookup_erase_ne hid]

theorem cancel_found {idx : ℕ} (hidx : q.byId.lookup taskId = some idx)
    (hlt : idx < q.heap.length) : ∃ q', q.cancel taskId = some (.ok q') := by
  simp only [cancel, hidx, if_pos hlt]
  exact ⟨_, rfl⟩

end Calls

/-! ## Tracked queues -/

section Step

variable {q q' : PriorityQueue} {task : CollectionTask} {taskId : String}

theorem enqueue_taken {now : OffsetDateTime} (h : (q.byId.lookup task.id).isSome) :
    q.enqueue task now = .error (.duplicateTask task.id) := by
  simp only [enqueue, if_pos h]

theorem enqueue_free {now : OffsetDateTime} (h : ¬(q.byId.lookup task.id).isSome) :
    ∃ q', q.enqueue task now = .ok q' := by
  simp only [enqueue, if_neg h]
  exact ⟨_, rfl⟩

/-- A task with a new id joins the queue. -/
theorem Tracked.enqueue (tracked : q.Tracked) {now : OffsetDateTime}
    (h : q.enqueue task now = .ok q') (free : ∀ t ∈ q.tasks, t.id ≠ task.id) : q'.Tracked := by
  have joined := tasks_enqueue h
  constructor
  · rw [joined, Multiset.map_cons, Multiset.nodup_cons, Multiset.mem_map]
    exact ⟨fun ⟨t, ht, hid⟩ => free t ht hid, tracked.nodup⟩
  · intro id
    rw [byId_enqueue h, joined]
    by_cases hid : id = task.id
    · subst hid
      simp
    · rw [Finmap.lookup_insert_of_ne _ hid, tracked.known]
      simp [Ne.symm hid]

/-- A task leaves the queue, and its id the index. -/
theorem Tracked.leave (tracked : q.Tracked) (left : q.tasks = task ::ₘ q'.tasks)
    (known : ∀ id, (q'.byId.lookup id).isSome ↔ id ≠ task.id ∧ (q.byId.lookup id).isSome) :
    q'.Tracked := by
  have nodup := tracked.nodup
  rw [left, Multiset.map_cons, Multiset.nodup_cons, Multiset.mem_map] at nodup
  refine ⟨nodup.2, fun id => ?_⟩
  rw [known, tracked.known, left]
  constructor
  · rintro ⟨hne, t, ht, rfl⟩
    rcases Multiset.mem_cons.1 ht with rfl | ht
    · exact absurd rfl hne
    · exact ⟨t, ht, rfl⟩
  · rintro ⟨t, ht, rfl⟩
    exact ⟨fun same => nodup.1 ⟨t, ht, same⟩, t, Multiset.mem_cons_of_mem ht, rfl⟩

/-- A call that finds no stale position does what it is meant to do. -/
theorem step_follows (tracked : q.Tracked) {call : QueueCall} (finds : q.Finds call) :
    ∃ answer q', q.perform call = some (answer, q') ∧ Follows q.tasks call answer q'.tasks ∧
      q'.Tracked := by
  cases call with
  | enqueue task now =>
    by_cases taken : (q.byId.lookup task.id).isSome
    · refine ⟨.refused (.duplicateTask task.id), q, by simp only [perform, enqueue_taken taken], ?_,
        tracked⟩
      exact .duplicate ((tracked.known _).1 taken)
    · obtain ⟨q', h⟩ : ∃ q', q.enqueue task now = .ok q' := enqueue_free taken
      have free : ∀ t ∈ q.tasks, t.id ≠ task.id := fun t ht same =>
        taken ((tracked.known _).2 ⟨t, ht, same⟩)
      refine ⟨.enqueued, q', by simp only [perform, h], ?_, tracked.enqueue h free⟩
      rw [tasks_enqueue h]
      exact .enqueued free
  | dequeue =>
    cases h : q.dequeue with
    | none =>
      have empty : q.tasks = 0 := by simp [tasks, (dequeue_eq_none_iff q).1 h]
      refine ⟨.empty, q, by simp only [perform, h], ?_, tracked⟩
      rw [empty]
      exact .empty
    | some taken =>
      obtain ⟨task, q'⟩ := taken
      have left := tasks_dequeue h
      refine ⟨.dequeued task, q', by simp only [perform, h], ?_, tracked.leave left fun id => ?_⟩
      · rw [left]
        exact .dequeued
      · rw [(dequeue_some h).2]
        by_cases hid : id = task.id
        · subst hid
          rw [Finmap.lookup_erase]
          simp
        · rw [Finmap.lookup_erase_ne hid]
          simp [hid]
  | cancel taskId =>
    cases hidx : q.byId.lookup taskId with
    | none =>
      refine ⟨.refused (.taskNotFound taskId), q, by simp only [perform, cancel_missing hidx],
        .missing fun t ht same => ?_, tracked⟩
      have := (tracked.known taskId).2 ⟨t, ht, same⟩
      simp [hidx] at this
    | some idx =>
      obtain ⟨entry, hentry, rfl⟩ := finds idx hidx
      obtain ⟨hlt, -⟩ := List.getElem?_eq_some_iff.1 hentry
      obtain ⟨q', h⟩ := cancel_found hidx hlt
      obtain ⟨removed, hremoved, perm⟩ := cancel_perm hidx h
      rw [hentry] at hremoved
      cases hremoved
      have left := tasks_eq_of_perm perm
      refine ⟨.cancelled, q', by simp only [perform, h], ?_,
        tracked.leave left (lookup_cancel tracked hidx h)⟩
      rw [left]
      exact .cancelled

/-- A call that does what it is meant to do has found the right position. -/
theorem finds_of_follows {call : QueueCall} {answer : QueueAnswer}
    (performed : q.perform call = some (answer, q'))
    (follows : Follows q.tasks call answer q'.tasks) : q.Finds call := by
  cases call with
  | cancel taskId =>
    intro idx hidx
    have hlt : idx < q.heap.length := by
      apply lt_of_cancel hidx
      by_contra panics
      rw [Option.not_isSome_iff_eq_none] at panics
      simp [perform, panics] at performed
    obtain ⟨left, h⟩ := cancel_found hidx hlt
    simp only [perform, h, Option.some.injEq, Prod.mk.injEq] at performed
    obtain ⟨rfl, rfl⟩ := performed
    obtain ⟨t, rfl, ht⟩ := follows.cancelled_inv
    obtain ⟨entry, hentry, perm⟩ := cancel_perm hidx h
    rw [tasks_eq_of_perm perm, Multiset.cons_inj_left] at ht
    exact ⟨entry, hentry, by rw [ht]⟩
  | _ => trivial

end Step

/-! ## Runs -/

theorem implements_iff_of_tracked {q : PriorityQueue} (tracked : q.Tracked)
    (calls : List QueueCall) : q.Implements calls ↔ q.FindsAll calls := by
  induction calls generalizing q with
  | nil => exact Iff.rfl
  | cons call calls ih =>
    constructor
    · rintro ⟨answer, q', performed, follows, rest⟩
      have finds := finds_of_follows performed follows
      obtain ⟨answer₁, q₁, performed₁, -, tracked₁⟩ := step_follows tracked finds
      rw [performed] at performed₁
      cases performed₁
      refine ⟨finds, fun answer₂ q₂ performed₂ => ?_⟩
      rw [performed] at performed₂
      cases performed₂
      exact (ih tracked₁).1 rest
    · rintro ⟨finds, rest⟩
      obtain ⟨answer, q', performed, follows, tracked'⟩ := step_follows tracked finds
      exact ⟨answer, q', performed, follows, (ih tracked').2 (rest answer q' performed)⟩

/-- A run of calls on a new queue implements the collection of tasks exactly when none of its
cancellations finds a stale position in the index. -/
theorem implements_iff (calls : List QueueCall) : new.Implements calls ↔ new.FindsAll calls :=
  implements_iff_of_tracked tracked_new calls

/-- A task with an id and a priority. -/
def sampleTask (id : String) (priority : Priority) : CollectionTask where
  id := id
  target := .domain "example.com"
  priority := priority
  driver := "dns"
  capability := "dns.resolve_a"
  params := .null
  maxRetries := 0
  createdAt := 0
  metadata := ∅

/-- A critical task moves to the front; cancelling the other task then removes the critical one. -/
theorem not_implements : ¬new.Implements [.enqueue (sampleTask "a" .low) 0,
    .enqueue (sampleTask "b" .critical) 0, .cancel "a"] := by
  rintro ⟨_, _, first, -, _, _, second, -, _, _, third, follows, -⟩
  cases first
  cases second
  cases third
  obtain ⟨t, ht, tasks⟩ := follows.cancelled_inv
  have ids := congrArg (Multiset.map CollectionTask.id) tasks
  rw [Multiset.map_cons, ht] at ids
  exact absurd ids (by decide)

end PriorityQueue

end TORdex
