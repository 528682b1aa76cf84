import TORdex.Core.Json
import TORdex.Lib.BinaryHeap

/-! The priority queue of collection tasks: a binary heap with an index from task ids to heap
positions. -/

namespace TORdex

/-- The priority of a task. -/
inductive Priority where
  | critical
  | high
  | medium
  | low
  | background
  deriving DecidableEq, Repr

/-- The discriminant, by which priorities are ordered. -/
def Priority.rank : Priority → ℕ
  | .critical => 0
  | .high => 1
  | .medium => 2
  | .low => 3
  | .background => 4

/-- What is collected. -/
inductive CollectionTarget where
  | url (u : String)
  | domain (d : String)
  | service (id locator : String)
  | custom (kind locator : String)
  deriving DecidableEq, Repr

/-- Where the target is found. -/
def CollectionTarget.locator : CollectionTarget → String
  | .url u => u
  | .domain d => d
  | .service _ locator => locator
  | .custom _ locator => locator

/-- A collection job to be executed by a driver. -/
structure CollectionTask where
  id : String
  target : CollectionTarget
  priority : Priority
  driver : String
  capability : String
  params : Json
  maxRetries : ℕ
  createdAt : OffsetDateTime
  metadata : HashMap String String

/-- The errors of the fabric. -/
inductive FabricError where
  | taskNotFound (id : String)
  | duplicateTask (id : String)
  | session (message : String)
  | driver (message : String)
  | queueFull
  | stopped
  deriving DecidableEq, Repr

/-- A task with the time and the number of its submission. -/
structure QueueEntry where
  task : CollectionTask
  submittedAt : OffsetDateTime
  seq : ℕ

/-- `cmp(other) == Less`: by priority, then by submission. -/
def QueueEntry.less (a b : QueueEntry) : Bool :=
  a.task.priority.rank < b.task.priority.rank ||
    (a.task.priority.rank == b.task.priority.rank && a.seq < b.seq)

/-- Exchange an entry with its parents while it is before them. -/
def bubbleUp (heap : List QueueEntry) (idx : ℕ) : List QueueEntry :=
  BinaryHeap.siftUp QueueEntry.less heap idx

/-- Exchange an entry with its children while one is before it. -/
def bubbleDown (heap : List QueueEntry) (idx : ℕ) : List QueueEntry :=
  BinaryHeap.siftDown QueueEntry.less heap idx

/-- `QueueInner`. -/
structure PriorityQueue where
  heap : List QueueEntry
  byId : HashMap String ℕ
  seen : List String
  seq : ℕ

namespace PriorityQueue

/-- Without tasks. -/
def new : PriorityQueue := ⟨[], ∅, [], 0⟩

/-- Enqueue a task; an id with an index entry is refused. -/
def enqueue (q : PriorityQueue) (task : CollectionTask) (now : OffsetDateTime) :
    Except FabricError PriorityQueue :=
  if (q.byId.lookup task.id).isSome then .error (.duplicateTask task.id)
  else
    let idx := q.heap.length
    .ok {
      heap := bubbleUp (q.heap ++ [⟨task, now, q.seq⟩]) idx
      byId := q.byId.insert task.id idx
      seen := task.id :: q.seen
      seq := q.seq + 1 }

/-- Pop the highest-priority task. -/
def dequeue (q : PriorityQueue) : Option (CollectionTask × PriorityQueue) :=
  let swapped := BinaryHeap.swap q.heap 0 (q.heap.length - 1)
  match swapped.getLast? with
  | none => none
  | some entry =>
    let rest := swapped.dropLast
    some (entry.task, { q with
      heap := if rest.isEmpty then rest else bubbleDown rest 0
      byId := q.byId.erase entry.task.id })

/-- Remove a task by the position the index has for it; `none` when that position lies outside
the heap, where the exchange panics. -/
def cancel (q : PriorityQueue) (taskId : String) :
    Option (Except FabricError PriorityQueue) :=
  match q.byId.lookup taskId with
  | none => some (.error (.taskNotFound taskId))
  | some idx =>
    if idx < q.heap.length then
      let last := q.heap.length - 1
      let swapped := BinaryHeap.swap q.heap idx last
      let byId := q.byId.erase taskId
      let byId :=
        match swapped[idx]? with
        | some e => if idx ≠ last then byId.insert e.task.id idx else byId
        | none => byId
      let rest := swapped.dropLast
      some (.ok { q with
        heap := if idx < rest.length then bubbleDown (bubbleUp rest idx) idx else rest
        byId := byId.erase taskId })
    else none

theorem enqueue_ok {q q' : PriorityQueue} {task : CollectionTask} {now : OffsetDateTime}
    (h : q.enqueue task now = .ok q') :
    q.byId.lookup task.id = none ∧ q'.heap.Perm (⟨task, now, q.seq⟩ :: q.heap) := by
  unfold enqueue at h
  split_ifs at h with hid
  cases h
  refine ⟨by simpa using hid, ?_⟩
  exact (BinaryHeap.siftUp_perm _ _ _).trans (List.perm_append_singleton _ _)

/-- A dequeue exchanges the first entry and the last one, which it takes. -/
theorem dequeue_inv {q q' : PriorityQueue} {task : CollectionTask} (h : q.dequeue = some (task, q')) :
    ∃ entry, (BinaryHeap.swap q.heap 0 (q.heap.length - 1)).getLast? = some entry ∧ entry.task = task ∧
      q' = { q with
        heap :=
          if (BinaryHeap.swap q.heap 0 (q.heap.length - 1)).dropLast.isEmpty
          then (BinaryHeap.swap q.heap 0 (q.heap.length - 1)).dropLast
          else bubbleDown (BinaryHeap.swap q.heap 0 (q.heap.length - 1)).dropLast 0
        byId := q.byId.erase task.id } := by
  unfold dequeue at h
  dsimp only at h
  split at h
  · cases h
  · rename_i entry he
    cases h
    exact ⟨entry, he, rfl, rfl⟩

/-- A dequeue takes the entry at the front off the heap and its id out of the index. -/
theorem dequeue_some {q q' : PriorityQueue} {task : CollectionTask}
    (h : q.dequeue = some (task, q')) :
    (∃ entry, entry.task = task ∧ q.heap[0]? = some entry ∧ (entry :: q'.heap).Perm q.heap) ∧
      q'.byId = q.byId.erase task.id := by
  obtain ⟨entry, he, rfl, rfl⟩ := dequeue_inv h
  have rest := (BinaryHeap.dropLast_perm he).trans (BinaryHeap.swap_perm _ _ _)
  refine ⟨⟨entry, rfl, ?_, ?_⟩, rfl⟩
  · cases front : q.heap[0]? with
    | none =>
      have empty : q.heap = [] := List.eq_nil_of_length_eq_zero (by simpa using front)
      rw [empty] at rest
      cases rest.eq_nil
    | some first => rw [← he, BinaryHeap.getLast?_swap front]
  · dsimp only
    split_ifs
    · exact rest
    · exact ((BinaryHeap.siftDown_perm _ _ _).cons entry).trans rest

/-- What an accepted task adds to the index. -/
theorem byId_enqueue {q q' : PriorityQueue} {task : CollectionTask} {now : OffsetDateTime}
    (h : q.enqueue task now = .ok q') : q'.byId = q.byId.insert task.id q.heap.length := by
  unfold enqueue at h
  split_ifs at h
  cases h
  rfl

theorem known_of_cancel {q q' : PriorityQueue} {taskId : String} (h : q.cancel taskId = some (.ok q')) :
    ∃ idx, q.byId.lookup taskId = some idx := by
  cases hidx : q.byId.lookup taskId with
  | none => simp [cancel, hidx] at h
  | some idx => exact ⟨idx, rfl⟩

/-- A cancellation exchanges the entry at the position of the index and the last one, which it removes. -/
theorem cancel_inv {q q' : PriorityQueue} {taskId : String} {idx : ℕ} (hidx : q.byId.lookup taskId = some idx)
    (h : q.cancel taskId = some (.ok q')) :
    idx < q.heap.length ∧ q' = { q with
      heap :=
        if idx < (BinaryHeap.swap q.heap idx (q.heap.length - 1)).dropLast.length
        then bubbleDown (bubbleUp (BinaryHeap.swap q.heap idx (q.heap.length - 1)).dropLast idx) idx
        else (BinaryHeap.swap q.heap idx (q.heap.length - 1)).dropLast
      byId :=
        (match (BinaryHeap.swap q.heap idx (q.heap.length - 1))[idx]? with
        | some e => if idx ≠ q.heap.length - 1 then (q.byId.erase taskId).insert e.task.id idx else q.byId.erase taskId
        | none => q.byId.erase taskId).erase taskId } := by
  by_cases hlt : idx < q.heap.length
  · simp only [cancel, hidx, if_pos hlt] at h
    cases h
    exact ⟨hlt, rfl⟩
  · simp [cancel, hidx, hlt] at h

/-- The entries that are left are moved, not changed. -/
theorem restored_perm (rest : List QueueEntry) (idx : ℕ) :
    (if idx < rest.length then bubbleDown (bubbleUp rest idx) idx else rest).Perm rest := by
  split_ifs
  · exact (BinaryHeap.siftDown_perm _ _ _).trans (BinaryHeap.siftUp_perm _ _ _)
  · exact List.Perm.refl _

/-- A cancellation puts nothing new into the heap, and into the index only ids from the heap. -/
theorem cancel_ok {q q' : PriorityQueue} {taskId : String}
    (h : q.cancel taskId = some (.ok q')) :
    (∀ entry ∈ q'.heap, entry ∈ q.heap) ∧
      ∀ id, (q'.byId.lookup id).isSome →
        (q.byId.lookup id).isSome ∨ ∃ entry ∈ q.heap, entry.task.id = id := by
  obtain ⟨idx, hidx⟩ := known_of_cancel h
  obtain ⟨hlt, rfl⟩ := cancel_inv hidx h
  have swapped : ∀ entry ∈ BinaryHeap.swap q.heap idx (q.heap.length - 1), entry ∈ q.heap :=
    fun entry hm => (BinaryHeap.swap_perm _ _ _).mem_iff.1 hm
  constructor
  · intro entry hm
    apply swapped
    apply List.dropLast_subset
    exact (restored_perm _ _).mem_iff.1 hm
  · intro id hid
    have erased : ∀ {m : HashMap String ℕ} {k : String},
        ((m.erase k).lookup id).isSome → (m.lookup id).isSome := by
      intro m k hm
      rw [Finmap.lookup_isSome] at hm ⊢
      exact (Finmap.mem_erase.1 hm).2
    replace hid := erased hid
    split at hid
    · rename_i e he
      split_ifs at hid
      · by_cases hk : id = e.task.id
        · exact .inr ⟨e, swapped e (List.mem_of_getElem? he), hk.symm⟩
        · rw [Finmap.lookup_insert_of_ne _ hk] at hid
          exact .inl (erased hid)
      · exact .inl (erased hid)
    · exact .inl (erased hid)

theorem dequeue_eq_none_iff (q : PriorityQueue) : q.dequeue = none ↔ q.heap = [] := by
  unfold dequeue
  dsimp only
  split
  · rename_i hl
    rw [List.getLast?_eq_none_iff, ← List.length_eq_zero_iff, BinaryHeap.length_swap,
      List.length_eq_zero_iff] at hl
    simp [hl]
  · rename_i entry hl
    refine iff_of_false (by simp) fun hq => ?_
    simp [hq, BinaryHeap.swap] at hl

end PriorityQueue

end TORdex
