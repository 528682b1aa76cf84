import Mathlib.Data.List.Induction
import Mathlib.Data.Multiset.AddSub
import Mathlib.Order.OrderDual
import TORdex.Lib.BinaryHeap
import TORdex.Lib.Loops

/-!
# The binary heap

A max-heap in a vector.  The loops of `push` and `pop` are those of the library for the reversed order; they
break after at most as many rounds as there are items.
-/

namespace TORdex.Algorithms

open BinaryHeap

/-- A Binary Heap (max-heap) implementation. -/
structure BinaryHeapCustom (T : Type) where
  data : List T

namespace BinaryHeapCustom

variable {T : Type} [LinearOrder T]

/-- Without items. -/
def new : BinaryHeapCustom T := ⟨[]⟩

/-- The first argument belongs further up. -/
def greater (x y : T) : Bool := decide (y < x)

/-- One round of the loop of `push`, over the data and the index of the new item. -/
def pushRound : List T × ℕ → Option (List T ⊕ (List T × ℕ))
  | (data, i) =>
    if 0 < i then
      let parent := (i - 1) / 2
      match data[i]?, data[parent]? with
      | some item, some above =>
        if item ≤ above then some (.inl data) else some (.inr (swap data i parent, parent))
      | _, _ => none
    else some (.inl data)

/-- One round of the loop of `pop`: the item changes places with the larger one of its children, if that is
larger. -/
def popRound : List T × ℕ → Option (List T ⊕ (List T × ℕ))
  | (data, i) =>
    let left := 2 * i + 1
    let right := 2 * i + 2
    let largest := if left < data.length ∧ lessAt greater data left i then left else i
    let largest := if right < data.length ∧ lessAt greater data right largest then right else largest
    if largest = i then some (.inl data) else some (.inr (swap data i largest, largest))

/-- There is no result when the loop has not broken after as many rounds as there are items. -/
def push (heap : BinaryHeapCustom T) (item : T) : Option (BinaryHeapCustom T) :=
  (Loops.run pushRound (heap.data.length + 1) (heap.data ++ [item], heap.data.length)).map mk

/-- Take the root out. -/
def pop (heap : BinaryHeapCustom T) : Option (Option T × BinaryHeapCustom T) :=
  if heap.data.isEmpty then some (none, heap)
  else
    let swapped := swap heap.data 0 (heap.data.length - 1)
    (Loops.run popRound heap.data.length (swapped.dropLast, 0)).map fun data => (swapped.getLast?, ⟨data⟩)

/-- The item at the root. -/
def peek (heap : BinaryHeapCustom T) : Option T := heap.data.head?

/-! ## The loops -/

section Loops

variable {l : List T} {i fuel : ℕ}

theorem greater_iff (x y : T) : greater x y = true ↔ OrderDual.toDual x < OrderDual.toDual y := by
  rw [greater, decide_eq_true_eq, OrderDual.toDual_lt_toDual]

theorem run_pushRound (inside : i < l.length) (enough : i ≤ fuel) :
    Loops.run pushRound (fuel + 1) (l, i) = some (siftUpLoop greater fuel l i) := by
  induction fuel generalizing l i with
  | zero =>
    rw [Loops.run, pushRound, if_neg (by omega)]
    rfl
  | succ fuel ih =>
    rw [Loops.run, pushRound, siftUpLoop]
    by_cases pos : 0 < i
    · have parent : (i - 1) / 2 < l.length := by omega
      have at_i : l[i]? = some l[i] := List.getElem?_eq_getElem inside
      have at_parent : l[(i - 1) / 2]? = some l[(i - 1) / 2] := List.getElem?_eq_getElem parent
      simp only [pos, if_true, at_i, at_parent, true_and, lessAt, greater, decide_eq_true_eq]
      by_cases le : l[i] ≤ l[(i - 1) / 2]
      · rw [if_pos le, if_neg le.not_gt]
      · rw [if_neg le, if_pos (not_le.1 le)]
        exact ih (by rwa [length_swap]) (by omega)
    · rw [if_neg pos, if_neg fun both => pos both.1]

theorem run_popRound (enough : l.length ≤ i + fuel) :
    Loops.run popRound (fuel + 1) (l, i) = some (siftDownLoop greater fuel l i) := by
  have round : popRound (l, i) = if smallest greater l i = i then some (.inl l)
      else some (.inr (swap l i (smallest greater l i), smallest greater l i)) := rfl
  induction fuel generalizing l i with
  | zero =>
    have stays := (smallest_cases greater l i).resolve_right (by omega)
    rw [Loops.run, round, if_pos stays]
    rfl
  | succ fuel ih =>
    rw [Loops.run, round, siftDownLoop]
    by_cases stays : smallest greater l i = i
    · rw [if_pos stays, if_pos stays]
    · have place := (smallest_cases greater l i).resolve_left stays
      rw [if_neg stays, if_neg stays]
      exact ih (by rw [length_swap]; omega) rfl

end Loops

/-! ## Calls -/

variable {heap : BinaryHeapCustom T} {item : T}

/-- No item is larger than its parent. -/
def InOrder (heap : BinaryHeapCustom T) : Prop := Ordered OrderDual.toDual heap.data

theorem inOrder_new : (new : BinaryHeapCustom T).InOrder := fun _ => before_of_length_le (Nat.zero_le _)

theorem InOrder.le_first (inOrder : heap.InOrder) (first : heap.data.head? = some item) :
    ∀ other ∈ heap.data, other ≤ item := by
  intro other mem
  obtain ⟨i, found⟩ := List.mem_iff_getElem?.1 mem
  exact inOrder.first i item (List.head?_eq_getElem? ▸ first) other found

/-- A pushed item goes up to its place. -/
theorem push_eq (heap : BinaryHeapCustom T) (item : T) :
    heap.push item = some ⟨siftUp greater (heap.data ++ [item]) heap.data.length⟩ := by
  rw [push, run_pushRound (by simp) le_rfl, Option.map_some]
  rfl

theorem InOrder.push (inOrder : heap.InOrder) (item : T) :
    ∃ heap', heap.push item = some heap' ∧ heap'.InOrder ∧ heap'.data.Perm (item :: heap.data) := by
  refine ⟨_, push_eq heap item, ordered_siftUp greater_iff (inOrder.append item), ?_⟩
  exact (siftUp_perm greater _ _).trans (List.perm_append_singleton item heap.data)

/-- The first item goes out; the last one takes its place and goes down. -/
theorem InOrder.pop (inOrder : heap.InOrder) (first : heap.data.head? = some item) :
    ∃ heap', heap.pop = some (some item, heap') ∧ heap'.InOrder ∧ heap.data.Perm (item :: heap'.data) := by
  have at_zero : heap.data[0]? = some item := List.head?_eq_getElem? ▸ first
  have pos : 0 < heap.data.length := (List.getElem?_eq_some_iff.1 at_zero).1
  have nonempty : ¬heap.data.isEmpty = true := fun empty => by
    rw [List.isEmpty_iff.1 empty] at pos
    cases pos
  have last := getLast?_swap at_zero
  set swapped := swap heap.data 0 (heap.data.length - 1)
  have length : swapped.dropLast.length = heap.data.length - 1 := by simp [swapped]
  have looped : Loops.run popRound heap.data.length (swapped.dropLast, 0) =
      some (siftDownLoop greater (heap.data.length - 1) swapped.dropLast 0) := by
    have enough : swapped.dropLast.length ≤ 0 + (heap.data.length - 1) := by omega
    have ran := run_popRound enough
    rwa [Nat.sub_add_cancel pos] at ran
  refine ⟨⟨siftDownLoop greater (heap.data.length - 1) swapped.dropLast 0⟩, ?_, ?_, ?_⟩
  · simp only [BinaryHeapCustom.pop, if_neg nonempty]
    rw [looped, last, Option.map_some]
  · exact ordered_siftDownLoop greater_iff _ (inOrder.swap_dropLast pos).downOrdered (by omega)
  · have rest := (siftDownLoop_perm greater (heap.data.length - 1) swapped.dropLast 0).cons item
    exact (rest.trans ((dropLast_perm last).trans (swap_perm _ _ _))).symm

theorem pop_nil (empty : heap.data = []) : heap.pop = some (none, heap) := by
  rw [BinaryHeapCustom.pop, empty]
  rfl

/-! ## Runs -/

/-- The calls that change a heap. -/
inductive HeapOp (T : Type) where
  | push (item : T)
  | pop

/-- A call on a heap, with the items that were pushed and have not been popped. -/
def step (s : BinaryHeapCustom T × Multiset T) : HeapOp T → Option (BinaryHeapCustom T × Multiset T)
  | .push item => (s.1.push item).map fun heap => (heap, item ::ₘ s.2)
  | .pop => s.1.pop.map fun (item, heap) => (heap, item.elim s.2 s.2.erase)

/-- The calls, one after the other, on a new heap. -/
def run (ops : List (HeapOp T)) : Option (BinaryHeapCustom T × Multiset T) := ops.foldlM step (new, 0)

/-- Every call returns, and answers for the items that are waiting. -/
structure Serves (heap : BinaryHeapCustom T) (waiting : Multiset T) : Prop where
  contents : (heap.data : Multiset T) = waiting
  push : ∀ item, ∃ heap', heap.push item = some heap'
  popNone : waiting = 0 → heap.pop = some (none, heap)
  popMax : waiting ≠ 0 → ∃ item heap', heap.pop = some (some item, heap') ∧ item ∈ waiting ∧
    (∀ other ∈ waiting, other ≤ item) ∧ (heap'.data : Multiset T) = waiting.erase item
  peekNone : heap.peek = none ↔ waiting = 0
  peekMax : ∀ item, heap.peek = some item → item ∈ waiting ∧ ∀ other ∈ waiting, other ≤ item

theorem InOrder.serves (inOrder : heap.InOrder) : heap.Serves heap.data where
  contents := rfl
  push item := by
    obtain ⟨heap', pushed, -⟩ := inOrder.push item
    exact ⟨heap', pushed⟩
  popNone empty := pop_nil (Multiset.coe_eq_zero _ |>.1 empty)
  popMax nonempty := by
    cases first : heap.data.head? with
    | none => exact absurd (congrArg Multiset.ofList (List.head?_eq_none_iff.1 first)) nonempty
    | some item =>
      obtain ⟨heap', popped, -, perm⟩ := inOrder.pop first
      refine ⟨item, heap', popped, List.mem_of_head? first, inOrder.le_first first, ?_⟩
      rw [Multiset.coe_eq_coe.2 perm, ← Multiset.cons_coe, Multiset.erase_cons_head]
  peekNone := List.head?_eq_none_iff.trans (Multiset.coe_eq_zero _).symm
  peekMax item first := ⟨List.mem_of_head? first, inOrder.le_first first⟩

/-- What a call keeps: the order, and that the heap has the items that are waiting. -/
theorem step_inOrder {s : BinaryHeapCustom T × Multiset T} (inOrder : s.1.InOrder)
    (contents : (s.1.data : Multiset T) = s.2) (op : HeapOp T) :
    ∃ s', step s op = some s' ∧ s'.1.InOrder ∧ (s'.1.data : Multiset T) = s'.2 := by
  cases op with
  | push item =>
    obtain ⟨heap', pushed, inOrder', perm⟩ := inOrder.push item
    refine ⟨(heap', item ::ₘ s.2), by rw [step, pushed, Option.map_some], inOrder', ?_⟩
    rw [Multiset.coe_eq_coe.2 perm, ← Multiset.cons_coe, contents]
  | pop =>
    cases first : s.1.data.head? with
    | none =>
      have popped := pop_nil (List.head?_eq_none_iff.1 first)
      exact ⟨(s.1, s.2), by rw [step, popped, Option.map_some]; rfl, inOrder, contents⟩
    | some item =>
      obtain ⟨heap', popped, inOrder', perm⟩ := inOrder.pop first
      refine ⟨(heap', s.2.erase item), by rw [step, popped, Option.map_some]; rfl, inOrder', ?_⟩
      rw [← contents, Multiset.coe_eq_coe.2 perm, ← Multiset.cons_coe, Multiset.erase_cons_head]

/-- **The heap is a priority queue**: in every run all calls return, a pop takes out one copy of a largest
waiting item, and there is none only where no item is waiting. -/
theorem serves_run (ops : List (HeapOp T)) :
    ∃ heap waiting, run ops = some (heap, waiting) ∧ heap.Serves waiting := by
  suffices ∃ s, run ops = some s ∧ s.1.InOrder ∧ (s.1.data : Multiset T) = s.2 by
    obtain ⟨s, ran, inOrder, contents⟩ := this
    exact ⟨s.1, s.2, ran, contents ▸ inOrder.serves⟩
  induction ops using List.reverseRecOn with
  | nil => exact ⟨(new, 0), rfl, inOrder_new, rfl⟩
  | append_singleton ops op ih =>
    obtain ⟨s, ran, inOrder, contents⟩ := ih
    obtain ⟨s', stepped, inOrder', contents'⟩ := step_inOrder inOrder contents op
    refine ⟨s', ?_, inOrder', contents'⟩
    rw [run] at ran
    rw [run, List.foldlM_append, ran]
    simpa using stepped

end BinaryHeapCustom

end TORdex.Algorithms
