import TORdex.Fabric.QueueOrder
import TORdex.Lib.StableSort

/-!
# The listing of the queue

`list` sorts the tasks of the heap by a comparator of its own: by priority, and within a priority the latest
creation time first.  The tasks leave the queue by priority and submission number.
-/

namespace TORdex

/-- The comparator of `list` does not answer `Greater`. -/
def CollectionTask.listBefore (a b : CollectionTask) : Bool :=
  a.priority.rank < b.priority.rank ||
    (a.priority.rank == b.priority.rank && b.createdAt ≤ a.createdAt)

theorem CollectionTask.listBefore_iff (a b : CollectionTask) : a.listBefore b = true ↔
    a.priority.rank < b.priority.rank ∨
      a.priority.rank = b.priority.rank ∧ b.createdAt ≤ a.createdAt := by
  simp [listBefore]

namespace PriorityQueue

/-- List all tasks currently in the queue. -/
def list (q : PriorityQueue) : List CollectionTask :=
  (q.heap.map QueueEntry.task).mergeSort CollectionTask.listBefore

theorem length_dequeue {q q' : PriorityQueue} {task : CollectionTask}
    (h : q.dequeue = some (task, q')) : q'.heap.length < q.heap.length := by
  obtain ⟨⟨entry, -, -, perm⟩, -⟩ := dequeue_some h
  have := perm.length_eq
  rw [List.length_cons] at this
  omega

/-- What repeated dequeues return, until the queue is empty. -/
def serviceOrder (q : PriorityQueue) : List CollectionTask :=
  match _h : q.dequeue with
  | none => []
  | some (task, q') => task :: serviceOrder q'
termination_by q.heap.length
decreasing_by exact length_dequeue _h

/-- Tasks leave a heap in order by priority and submission number. -/
theorem InOrder.serviceOrder {q : PriorityQueue} (inOrder : q.InOrder) :
    ∃ entries : List QueueEntry, entries.Perm q.heap ∧
      entries.Pairwise (fun a b => a.key < b.key) ∧
      q.serviceOrder = entries.map QueueEntry.task := by
  fun_induction PriorityQueue.serviceOrder q with
  | case1 q h =>
    refine ⟨[], ?_, List.Pairwise.nil, rfl⟩
    rw [(dequeue_eq_none_iff q).1 h]
  | case2 q task q' h ih =>
    obtain ⟨entries, perm, sorted, served⟩ := ih (inOrder.dequeue h)
    obtain ⟨entry, rfl, whole, first⟩ := inOrder.dequeue_first h
    refine ⟨entry :: entries, (perm.cons entry).trans whole.symm, ?_, ?_⟩
    · exact List.pairwise_cons.2 ⟨fun other ho => first other (perm.mem_iff.1 ho), sorted⟩
    · rw [served, List.map_cons]

/-! ## When the two orders agree -/

/-- Within a priority, the heap has the entries in the order of their submission, and all of them were
created at the same time. -/
def ListsInOrder (q : PriorityQueue) : Prop :=
  q.heap.Pairwise fun a b => a.task.priority = b.task.priority →
    a.seq < b.seq ∧ a.task.createdAt = b.task.createdAt

instance (q : PriorityQueue) : Decidable q.ListsInOrder :=
  inferInstanceAs (Decidable (List.Pairwise _ _))

/-- Entries that were submitted later were not created earlier. -/
def Timely (q : PriorityQueue) : Prop :=
  ∀ a ∈ q.heap, ∀ b ∈ q.heap, a.seq < b.seq → a.task.createdAt ≤ b.task.createdAt

theorem rank_inj {p p' : Priority} (h : p.rank = p'.rank) : p = p' := by
  cases p <;> cases p' <;> first | rfl | cases h

theorem listBefore_trans (a b c : QueueEntry) (hab : a.task.listBefore b.task = true)
    (hbc : b.task.listBefore c.task = true) : a.task.listBefore c.task = true := by
  rw [CollectionTask.listBefore_iff] at *
  rcases hab with lt | ⟨eq, created⟩
  · exact .inl (by omega)
  · rcases hbc with lt' | ⟨eq', created'⟩
    · exact .inl (by omega)
    · exact .inr ⟨eq.trans eq', created'.trans created⟩

theorem listBefore_total (a b : QueueEntry) :
    (a.task.listBefore b.task || b.task.listBefore a.task) = true := by
  rw [Bool.or_eq_true, CollectionTask.listBefore_iff, CollectionTask.listBefore_iff]
  rcases lt_trichotomy a.task.priority.rank b.task.priority.rank with lt | eq | gt
  · exact .inl (.inl lt)
  · exact (le_total b.task.createdAt a.task.createdAt).imp (fun h => .inr ⟨eq, h⟩)
      fun h => .inr ⟨eq.symm, h⟩
  · exact .inr (.inl gt)

theorem key_lt_iff (a b : QueueEntry) : a.key < b.key ↔
    a.task.priority.rank < b.task.priority.rank ∨
      a.task.priority.rank = b.task.priority.rank ∧ a.seq < b.seq := by
  simp [QueueEntry.key, Prod.Lex.toLex_lt_toLex]

section Agreement

variable {q : PriorityQueue} {entries : List QueueEntry}

/-- The listing in terms of entries. -/
theorem list_eq (q : PriorityQueue) : q.list =
    (q.heap.mergeSort fun a b => a.task.listBefore b.task).map QueueEntry.task := by
  symm
  apply List.map_mergeSort
  exact fun _ _ _ _ => rfl

/-- A sorted arrangement by submission is the stable one by creation exactly when, within a priority, the
heap is in the order of submission and nothing distinguishes the times. -/
theorem isStable_iff (nodup : q.heap.Nodup) (timely : q.Timely) (perm : entries.Perm q.heap)
    (sorted : entries.Pairwise fun a b => a.key < b.key) :
    StableSort.IsStable (fun a b : QueueEntry => a.task.listBefore b.task) q.heap entries ↔
      q.ListsInOrder := by
  have before : ∀ {a b}, [a, b].Sublist entries → a.key < b.key := fun h => sorted.forall_sublist h
  have pair : ∀ {a b}, a ∈ q.heap → b ∈ q.heap → a ≠ b →
      [a, b].Sublist entries ∨ [b, a].Sublist entries := fun ha hb ne =>
    StableSort.pair_or (perm.mem_iff.2 ha) (perm.mem_iff.2 hb) ne
  constructor
  · intro stable
    refine List.pairwise_iff_forall_sublist.2 fun {a b} sub prio => ?_
    have ha : a ∈ q.heap := sub.subset (by simp)
    have hb : b ∈ q.heap := sub.subset (by simp)
    have ne : a ≠ b := by
      rintro rfl
      exact StableSort.not_pair_swap nodup sub sub
    -- whichever of the two leaves first is listed first, so it was not created before the other
    have same : a.task.createdAt = b.task.createdAt := by
      have later : ∀ {x y}, x ∈ q.heap → y ∈ q.heap → x.task.priority = y.task.priority →
          [x, y].Sublist entries → x.task.createdAt = y.task.createdAt := by
        intro x y hx hy prio h
        have listed := (CollectionTask.listBefore_iff _ _).1 (stable.sorted.forall_sublist h)
        have served := (key_lt_iff x y).1 (before h)
        rw [prio] at listed served
        have order := (served.resolve_left (lt_irrefl _)).2
        exact (timely x hx y hy order).antisymm (listed.resolve_left (lt_irrefl _)).2
      rcases pair ha hb ne with h | h
      · exact later ha hb prio h
      · exact (later hb ha prio.symm h).symm
    have equal : ∀ {x y : QueueEntry}, x.task.priority = y.task.priority →
        x.task.createdAt = y.task.createdAt → x.task.listBefore y.task = true := by
      intro x y hp hc
      rw [CollectionTask.listBefore_iff, hp, hc]
      exact .inr ⟨rfl, le_rfl⟩
    have kept := stable.keeps a b sub (equal prio same) (equal prio.symm same.symm)
    have served := (key_lt_iff a b).1 (before kept)
    rw [prio] at served
    exact ⟨by omega, same⟩
  · intro agree
    constructor
    · refine List.pairwise_iff_forall_sublist.2 fun {a b} sub => ?_
      have served := (key_lt_iff a b).1 (before sub)
      rw [CollectionTask.listBefore_iff]
      refine served.imp_right fun ⟨rank, order⟩ => ⟨rank, ?_⟩
      have ne : a ≠ b := by
        rintro rfl
        exact lt_irrefl _ order
      have ha : a ∈ q.heap := perm.mem_iff.1 (sub.subset (by simp))
      have hb : b ∈ q.heap := perm.mem_iff.1 (sub.subset (by simp))
      rcases StableSort.pair_or ha hb ne with h | h
      · exact (agree.forall_sublist h (rank_inj rank)).2.symm.le
      · exact (agree.forall_sublist h (rank_inj rank.symm)).2.le
    · intro a b sub hab hba
      rw [CollectionTask.listBefore_iff] at hab hba
      have rank : a.task.priority.rank = b.task.priority.rank := by omega
      have order := (agree.forall_sublist sub (rank_inj rank)).1
      have ne : a ≠ b := by
        rintro rfl
        exact lt_irrefl _ order
      refine (pair (sub.subset (by simp)) (sub.subset (by simp)) ne).resolve_right fun swapped => ?_
      have served := (key_lt_iff b a).1 (before swapped)
      omega

/-- Queued tasks are told apart by their ids. -/
theorem Tracked.task_injOn (tracked : q.Tracked) {a b : QueueEntry} (ha : a ∈ q.heap) (hb : b ∈ q.heap)
    (h : a.task = b.task) : a = b := by
  have nodup := tracked.nodup
  rw [tasks, Multiset.map_map, Multiset.map_coe, Multiset.coe_nodup] at nodup
  exact List.inj_on_of_nodup_map nodup ha hb (congrArg CollectionTask.id h)

/-- The listing of a queue in order. -/
theorem list_eq_serviceOrder_iff_of (inOrder : q.InOrder) (tracked : q.Tracked) (timely : q.Timely) :
    q.list = q.serviceOrder ↔ q.ListsInOrder := by
  obtain ⟨entries, perm, sorted, served⟩ := inOrder.serviceOrder
  have nodup : q.heap.Nodup := inOrder.nodup.of_map
  rw [served, list_eq, ← isStable_iff nodup timely perm sorted,
    ← StableSort.mergeSort_eq_iff listBefore_trans listBefore_total nodup perm]
  constructor
  · intro same
    have length := congrArg List.length same
    rw [List.length_map, List.length_map] at length
    refine List.ext_getElem length fun i h h' => tracked.task_injOn ?_ ?_ ?_
    · exact List.mem_mergeSort.1 (List.getElem_mem h)
    · exact perm.mem_iff.1 (List.getElem_mem h')
    · have here := List.getElem_of_eq same (i := i) (by rwa [List.length_map])
      rwa [List.getElem_map, List.getElem_map] at here
  · intro same
    rw [same]

end Agreement

/-! ## Runs -/

/-- The tasks that a run submits, in order. -/
def submitted (calls : List QueueCall) : List CollectionTask :=
  calls.filterMap fun
    | .enqueue task _ => some task
    | _ => none

/-- A run of `enqueue` and `dequeue` calls. -/
def NoCancel (calls : List QueueCall) : Prop := ∀ call ∈ calls, ∀ taskId, call ≠ .cancel taskId

/-- The queue can be listed, and what is submitted later was not created before what is in it. -/
structure Listable (q : PriorityQueue) (later : List CollectionTask) : Prop where
  inOrder : q.InOrder
  tracked : q.Tracked
  timely : q.Timely
  before : ∀ entry ∈ q.heap, ∀ task ∈ later, entry.task.createdAt ≤ task.createdAt

section Runs

variable {q q' : PriorityQueue} {task : CollectionTask} {now : OffsetDateTime}
  {later : List CollectionTask} {answer : QueueAnswer}

theorem Listable.enqueue (listable : q.Listable (task :: later))
    (times : ∀ t ∈ later, task.createdAt ≤ t.createdAt) (tracked : q'.Tracked)
    (h : q.enqueue task now = .ok q') : q'.Listable later := by
  have perm := (enqueue_ok h).2
  have entry_cases : ∀ {entry}, entry ∈ q'.heap → entry = ⟨task, now, q.seq⟩ ∨ entry ∈ q.heap :=
    fun hm => List.mem_cons.1 (perm.mem_iff.1 hm)
  refine ⟨listable.inOrder.enqueue h, tracked, ?_, ?_⟩
  · intro a ha b hb order
    rcases entry_cases ha with rfl | ha
    · rcases entry_cases hb with rfl | hb
      · exact le_rfl
      · exact absurd order (listable.inOrder.given b hb).not_gt
    · rcases entry_cases hb with rfl | hb
      · exact listable.before a ha task List.mem_cons_self
      · exact listable.timely a ha b hb order
  · intro entry hm t ht
    rcases entry_cases hm with rfl | hm
    · exact times t ht
    · exact listable.before entry hm t (List.mem_cons_of_mem _ ht)

theorem Listable.dequeue (listable : q.Listable later) (tracked : q'.Tracked)
    (h : q.dequeue = some (task, q')) : q'.Listable later := by
  obtain ⟨⟨entry, -, -, perm⟩, -⟩ := dequeue_some h
  have rest : ∀ {entry}, entry ∈ q'.heap → entry ∈ q.heap := fun hm =>
    perm.mem_iff.1 (List.mem_cons_of_mem _ hm)
  exact ⟨listable.inOrder.dequeue h, tracked,
    fun a ha b hb => listable.timely a (rest ha) b (rest hb),
    fun entry hm => listable.before entry (rest hm)⟩

/-- A call keeps the queue listable. -/
theorem Listable.perform (calls : List QueueCall) {call : QueueCall}
    (noCancel : ∀ taskId, call ≠ .cancel taskId)
    (listable : q.Listable (submitted (call :: calls)))
    (times : (submitted (call :: calls)).Pairwise fun a b => a.createdAt ≤ b.createdAt)
    (h : q.perform call = some (answer, q')) : q'.Listable (submitted calls) := by
  have tracked : q'.Tracked := by
    have finds : q.Finds call := by
      cases call with
      | cancel taskId => exact absurd rfl (noCancel taskId)
      | _ => trivial
    obtain ⟨answer', q₁, performed, -, tracked⟩ := step_follows listable.tracked finds
    rw [h] at performed
    cases performed
    exact tracked
  cases call with
  | cancel taskId => exact absurd rfl (noCancel taskId)
  | enqueue task now =>
    have times := (List.pairwise_cons.1 times).1
    cases he : q.enqueue task now with
    | ok q₁ =>
      simp only [PriorityQueue.perform, he, Option.some.injEq, Prod.mk.injEq] at h
      obtain ⟨-, rfl⟩ := h
      exact listable.enqueue times tracked he
    | error e =>
      simp only [PriorityQueue.perform, he, Option.some.injEq, Prod.mk.injEq] at h
      obtain ⟨-, rfl⟩ := h
      exact ⟨listable.inOrder, tracked, listable.timely, fun entry hm t ht =>
        listable.before entry hm t (List.mem_cons_of_mem _ ht)⟩
  | dequeue =>
    cases hd : q.dequeue with
    | none =>
      simp only [PriorityQueue.perform, hd, Option.some.injEq, Prod.mk.injEq] at h
      obtain ⟨-, rfl⟩ := h
      exact listable
    | some taken =>
      simp only [PriorityQueue.perform, hd, Option.some.injEq, Prod.mk.injEq] at h
      obtain ⟨-, rfl⟩ := h
      exact listable.dequeue tracked hd

theorem Listable.run {calls : List QueueCall} (noCancel : NoCancel calls)
    (listable : q.Listable (submitted calls))
    (times : (submitted calls).Pairwise fun a b => a.createdAt ≤ b.createdAt)
    (h : q.run calls = some q') : q'.Listable [] := by
  induction calls generalizing q with
  | nil =>
    cases h
    exact listable
  | cons call calls ih =>
    unfold PriorityQueue.run at h
    split at h
    · rename_i answer q₁ performed
      have step := listable.perform calls (noCancel call List.mem_cons_self) times performed
      refine ih (fun c hc => noCancel c (List.mem_cons_of_mem _ hc)) step ?_ h
      exact times.sublist ((List.sublist_cons_self call calls).filterMap _)
    · cases h

end Runs

theorem listable_new (later : List CollectionTask) : new.Listable later :=
  ⟨inOrder_new, tracked_new, by simp [Timely, new], by simp [new]⟩

/-- After any run of `enqueue` and `dequeue` calls whose tasks were created in the order of their
submission, the listing is the order of service exactly when, within a priority, all queued tasks were
created at one time and stand in the heap in the order of their submission. -/
theorem list_eq_serviceOrder_iff {calls : List QueueCall} {q : PriorityQueue} (noCancel : NoCancel calls)
    (times : (submitted calls).Pairwise fun a b => a.createdAt ≤ b.createdAt)
    (h : new.run calls = some q) : q.list = q.serviceOrder ↔ q.ListsInOrder := by
  have listable := (listable_new _).run noCancel times h
  exact list_eq_serviceOrder_iff_of listable.inOrder listable.tracked listable.timely

/-- A low task and a critical one. -/
def lowThenCritical : List QueueCall :=
  [.enqueue (sampleTask "a" .low) 0, .enqueue (sampleTask "b" .critical) 0]

theorem list_eq_serviceOrder_sample :
    ∃ q, new.run lowThenCritical = some q ∧ q.list = q.serviceOrder := by
  have noCancel : NoCancel lowThenCritical := by simp [NoCancel, lowThenCritical]
  have times : (submitted lowThenCritical).Pairwise fun a b => a.createdAt ≤ b.createdAt := by
    simp [submitted, lowThenCritical, sampleTask]
  exact ⟨_, rfl, (list_eq_serviceOrder_iff noCancel times rfl).2 (by decide)⟩

/-- Two tasks of one priority, the second created after the first. -/
def createdLater : List QueueCall :=
  [.enqueue (sampleTask "a" .medium) 0, .enqueue { sampleTask "b" .medium with createdAt := 1 } 1]

/-- The one created later is listed first. -/
theorem not_list_eq_serviceOrder : NoCancel createdLater ∧
    ((submitted createdLater).Pairwise fun a b => a.createdAt ≤ b.createdAt) ∧
    ∃ q, new.run createdLater = some q ∧ q.list ≠ q.serviceOrder := by
  have noCancel : NoCancel createdLater := by simp [NoCancel, createdLater]
  have times : (submitted createdLater).Pairwise fun a b => a.createdAt ≤ b.createdAt := by
    simp [submitted, createdLater, sampleTask]
  refine ⟨noCancel, times, _, rfl, fun same => ?_⟩
  have listable := (listable_new _).run noCancel times rfl
  have inOrder := (list_eq_serviceOrder_iff_of listable.inOrder listable.tracked listable.timely).1 same
  exact absurd inOrder (by decide)

/-- Four tasks of one priority and one time: after a dequeue the third stands behind the fourth. -/
example : ∃ q, new.run (["a", "b", "c", "d"].map (fun id => .enqueue (sampleTask id .medium) 0) ++
    [.dequeue]) = some q ∧ q.heap.map (fun entry => entry.task.id) = ["b", "d", "c"] ∧
      ¬q.ListsInOrder := ⟨_, rfl, by decide, by decide⟩

end PriorityQueue

end TORdex
