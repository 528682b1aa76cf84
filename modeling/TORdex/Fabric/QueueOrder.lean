import Mathlib.Data.Prod.Lex
import TORdex.Fabric.QueueRuns
import TORdex.Lib.BinaryHeap

/-!
# The order in which tasks leave the queue

Entries are compared by priority and submission number.  Every call keeps the heap in this order, a
cancellation also when it removes the wrong entry, so a dequeue always takes the first entry of all.
-/

namespace TORdex

open BinaryHeap

/-- What the queue compares: the priority, then the submission number. -/
def QueueEntry.key (entry : QueueEntry) : ℕ ×ₗ ℕ := toLex (entry.task.priority.rank, entry.seq)

theorem QueueEntry.less_iff (a b : QueueEntry) : a.less b = true ↔ a.key < b.key := by
  simp [QueueEntry.less, QueueEntry.key, Prod.Lex.toLex_lt_toLex]

namespace PriorityQueue

/-- The heap is in order, and its entries carry distinct numbers that were already given out. -/
structure InOrder (q : PriorityQueue) : Prop where
  heap : Ordered QueueEntry.key q.heap
  nodup : (q.heap.map QueueEntry.seq).Nodup
  given : ∀ entry ∈ q.heap, entry.seq < q.seq

theorem inOrder_new : new.InOrder where
  heap := fun _ => before_of_length_le (Nat.zero_le _)
  nodup := List.nodup_nil
  given := by simp [new]

section Calls

variable {q q' : PriorityQueue} {task : CollectionTask} {now : OffsetDateTime} {taskId : String}

/-- Entries that leave the heap do not disturb the numbers of the others. -/
theorem InOrder.leave (inOrder : q.InOrder) {entry : QueueEntry}
    (perm : q.heap.Perm (entry :: q'.heap)) (seq : q'.seq = q.seq)
    (heap : Ordered QueueEntry.key q'.heap) : q'.InOrder where
  heap := heap
  nodup := by
    have nodup := ((perm.map QueueEntry.seq).nodup_iff).1 inOrder.nodup
    rw [List.map_cons, List.nodup_cons] at nodup
    exact nodup.2
  given := by
    intro other hother
    rw [seq]
    exact inOrder.given other (perm.mem_iff.2 (List.mem_cons_of_mem _ hother))

theorem InOrder.enqueue (inOrder : q.InOrder) (h : q.enqueue task now = .ok q') : q'.InOrder := by
  have perm := (enqueue_ok h).2
  unfold PriorityQueue.enqueue at h
  split_ifs at h
  cases h
  constructor
  · exact ordered_siftUp QueueEntry.less_iff (inOrder.heap.append _)
  · refine ((perm.map QueueEntry.seq).nodup_iff).2 ?_
    rw [List.map_cons, List.nodup_cons, List.mem_map]
    refine ⟨?_, inOrder.nodup⟩
    rintro ⟨entry, hentry, same⟩
    have := inOrder.given entry hentry
    dsimp only at same
    omega
  · intro entry hentry
    rcases List.mem_cons.1 (perm.mem_iff.1 hentry) with rfl | old
    · exact Nat.lt_succ_self _
    · exact Nat.lt_succ_of_lt (inOrder.given entry old)

/-- The last entry put at the front and moved down. -/
theorem ordered_dequeue (heap : Ordered QueueEntry.key q.heap) (h : q.dequeue = some (task, q')) :
    Ordered QueueEntry.key q'.heap := by
  obtain ⟨entry, he, rfl, rfl⟩ := dequeue_inv h
  dsimp only
  split_ifs with empty
  · rw [List.isEmpty_iff.1 empty]
    exact fun _ => before_of_length_le (Nat.zero_le _)
  · have pos : 0 < q.heap.length := by
      rw [← length_swap q.heap 0 (q.heap.length - 1)]
      exact List.length_pos_of_mem (List.mem_of_getLast? he)
    exact ordered_siftDown QueueEntry.less_iff (heap.swap_dropLast pos).downOrdered

/-- The last entry put at any position, moved up and then down. -/
theorem ordered_cancel (heap : Ordered QueueEntry.key q.heap)
    (h : q.cancel taskId = some (.ok q')) : Ordered QueueEntry.key q'.heap := by
  obtain ⟨idx, hidx⟩ := known_of_cancel h
  obtain ⟨hlt, rfl⟩ := cancel_inv hidx h
  have hole := heap.swap_dropLast hlt
  dsimp only
  split_ifs with inside
  · exact hole.ordered QueueEntry.less_iff
  · -- the entry removed is the last one, and nothing is put in its place
    intro i
    by_cases hi : i = idx ∨ (i - 1) / 2 = idx
    · exact before_of_length_le (by omega)
    · exact hole.but i (fun e => hi (.inl e)) (fun e => hi (.inr e))

theorem InOrder.dequeue (inOrder : q.InOrder) (h : q.dequeue = some (task, q')) : q'.InOrder := by
  have heap := ordered_dequeue inOrder.heap h
  obtain ⟨⟨entry, -, -, perm⟩, -⟩ := dequeue_some h
  obtain ⟨-, -, -, rfl⟩ := dequeue_inv h
  exact inOrder.leave perm.symm rfl heap

theorem InOrder.cancel (inOrder : q.InOrder) (h : q.cancel taskId = some (.ok q')) :
    q'.InOrder := by
  have heap := ordered_cancel inOrder.heap h
  obtain ⟨idx, hidx⟩ := known_of_cancel h
  obtain ⟨entry, -, perm⟩ := cancel_perm hidx h
  obtain ⟨-, rfl⟩ := cancel_inv hidx h
  exact inOrder.leave perm rfl heap

/-- In a heap in order, a dequeue takes the first entry of all. -/
theorem InOrder.dequeue_first (inOrder : q.InOrder) (h : q.dequeue = some (task, q')) :
    ∃ entry, entry.task = task ∧ q.heap.Perm (entry :: q'.heap) ∧
      ∀ other ∈ q'.heap, entry.key < other.key := by
  obtain ⟨⟨entry, htask, front, perm⟩, -⟩ := dequeue_some h
  refine ⟨entry, htask, perm.symm, fun other hother => lt_of_le_of_ne ?_ fun same => ?_⟩
  · obtain ⟨i, hi⟩ := List.mem_iff_getElem?.1 (perm.mem_iff.1 (List.mem_cons_of_mem _ hother))
    exact inOrder.heap.first i entry front other hi
  · have nodup := ((perm.map QueueEntry.seq).nodup_iff).2 inOrder.nodup
    rw [List.map_cons, List.nodup_cons, List.mem_map] at nodup
    exact nodup.1 ⟨other, hother, congrArg Prod.snd (toLex_inj.1 same).symm⟩

end Calls

/-! ## Runs -/

/-- The queue after a run of calls; `none` when one of them panics. -/
def run (q : PriorityQueue) : List QueueCall → Option PriorityQueue
  | [] => some q
  | call :: calls =>
    match q.perform call with
    | some (_, q') => q'.run calls
    | none => none

theorem InOrder.perform {q q' : PriorityQueue} (inOrder : q.InOrder) {call : QueueCall}
    {answer : QueueAnswer} (h : q.perform call = some (answer, q')) : q'.InOrder := by
  cases call with
  | enqueue task now =>
    cases he : q.enqueue task now with
    | ok q₁ =>
      simp only [PriorityQueue.perform, he, Option.some.injEq, Prod.mk.injEq] at h
      exact h.2 ▸ inOrder.enqueue he
    | error e =>
      simp only [PriorityQueue.perform, he, Option.some.injEq, Prod.mk.injEq] at h
      exact h.2 ▸ inOrder
  | dequeue =>
    cases hd : q.dequeue with
    | none =>
      simp only [PriorityQueue.perform, hd, Option.some.injEq, Prod.mk.injEq] at h
      exact h.2 ▸ inOrder
    | some taken =>
      simp only [PriorityQueue.perform, hd, Option.some.injEq, Prod.mk.injEq] at h
      exact h.2 ▸ inOrder.dequeue hd
  | cancel taskId =>
    cases hc : q.cancel taskId with
    | none => simp [PriorityQueue.perform, hc] at h
    | some outcome =>
      cases outcome with
      | ok q₁ =>
        simp only [PriorityQueue.perform, hc, Option.some.injEq, Prod.mk.injEq] at h
        exact h.2 ▸ inOrder.cancel hc
      | error e =>
        simp only [PriorityQueue.perform, hc, Option.some.injEq, Prod.mk.injEq] at h
        exact h.2 ▸ inOrder

theorem InOrder.run {q q' : PriorityQueue} (inOrder : q.InOrder) {calls : List QueueCall}
    (h : q.run calls = some q') : q'.InOrder := by
  induction calls generalizing q with
  | nil =>
    cases h
    exact inOrder
  | cons call calls ih =>
    unfold PriorityQueue.run at h
    split at h
    · rename_i answer q₁ performed
      exact ih (inOrder.perform performed) h
    · cases h

/-- After any run without a panic, a dequeue takes the entry with the least priority value and, within
it, the least submission number, and leaves the others; it answers that the queue is empty only then. -/
theorem dequeue_least {calls : List QueueCall} {q : PriorityQueue} (h : new.run calls = some q) :
    match q.perform .dequeue with
    | some (.dequeued task, q') => ∃ entry, entry.task = task ∧ q.heap.Perm (entry :: q'.heap) ∧
        ∀ other ∈ q'.heap, entry.task.priority.rank < other.task.priority.rank ∨
          entry.task.priority.rank = other.task.priority.rank ∧ entry.seq < other.seq
    | some (.empty, q') => q.heap = [] ∧ q' = q
    | _ => False := by
  cases hd : q.dequeue with
  | none =>
    simp only [PriorityQueue.perform, hd]
    exact ⟨(dequeue_eq_none_iff q).1 hd, trivial⟩
  | some taken =>
    simp only [PriorityQueue.perform, hd]
    obtain ⟨entry, htask, perm, first⟩ := (inOrder_new.run h).dequeue_first hd
    exact ⟨entry, htask, perm, fun other hother => Prod.Lex.toLex_lt_toLex.1 (first other hother)⟩

/-- Cancelling a low task removes the critical one that has moved to its position; the two tasks left
come out in order. -/
theorem dequeue_least_stale : ∃ q, new.run [.enqueue (sampleTask "a" .low) 0,
      .enqueue (sampleTask "b" .critical) 0, .enqueue (sampleTask "c" .high) 0, .cancel "a"] = some q ∧
    q.heap.map (fun entry => entry.task.id) = ["c", "a"] ∧
    ∃ q' entry, q.perform .dequeue = some (.dequeued (sampleTask "c" .high), q') ∧
      entry.task = sampleTask "c" .high ∧ q.heap.Perm (entry :: q'.heap) ∧
        ∀ other ∈ q'.heap, entry.task.priority.rank < other.task.priority.rank ∨
          entry.task.priority.rank = other.task.priority.rank ∧ entry.seq < other.seq := by
  obtain ⟨q, hq⟩ : ∃ q, new.run [.enqueue (sampleTask "a" .low) 0,
      .enqueue (sampleTask "b" .critical) 0, .enqueue (sampleTask "c" .high) 0, .cancel "a"] =
      some q := ⟨_, rfl⟩
  have least := dequeue_least hq
  cases hq
  obtain ⟨entry, htask, perm, first⟩ := least
  exact ⟨_, rfl, rfl, _, entry, rfl, htask, perm, first⟩

end PriorityQueue

end TORdex
