import Mathlib.Algebra.Order.Ring.Rat
import TORdex.Algorithms.TaskOrder
import TORdex.Lib.Acyclic
import TORdex.Lib.Recursion

/-!
# Critical paths

The cost of the critical path is that of the costliest chain of tasks, each of which depends on the one before
it.  Costs are exact numbers, and the order in which the tasks are traversed is an argument.
-/

namespace TORdex.TaskGraph

variable (value : F64 → ℚ)

/-- The cost of a task as an exact number; an unknown task costs nothing. -/
def costOf (g : TaskGraph) (task : ℕ) : ℚ := ((g.tasks.lookup task).map fun t => value t.cost).getD 0

/-- The largest of the costs of some tasks, or zero.  The memo goes from each task to the next one. -/
def largest (cost : ℕ → HashMap ℕ ℚ → Option (ℚ × HashMap ℕ ℚ)) (tasks : List ℕ) (memo : HashMap ℕ ℚ) :
    Option (ℚ × HashMap ℕ ℚ) :=
  tasks.foldlM (fun s task => (cost task s.2).map fun (cost, memo) => (max s.1 cost, memo)) (0, memo)

/-- The recursion with fuel; `none` would say that it is not enough. -/
def longestPathCost (g : TaskGraph) : ℕ → ℕ → HashMap ℕ ℚ → Option (ℚ × HashMap ℕ ℚ)
  | 0, _, _ => none
  | fuel + 1, task, memo =>
    match memo.lookup task with
    | some cost => some (cost, memo)
    | none =>
      (largest (longestPathCost g fuel) (g.dependentsOf task) memo).map fun (maxDep, memo) =>
        let total := g.costOf value task + maxDep
        (total, memo.insert task total)

/-- `order` is the order of the tasks. -/
def criticalPathCost (g : TaskGraph) (fuel : ℕ) (order : List ℕ) : Option ℚ :=
  (largest (g.longestPathCost value fuel) order ∅).map Prod.fst

/-- Each task of the chain depends on the one before it. -/
def IsTaskChain (g : TaskGraph) (chain : List ℕ) : Prop :=
  (∀ a ∈ chain, a ∈ g.tasks) ∧ chain.IsChain fun a b => g.DependsOn b a

/-- What the tasks of a chain cost together. -/
def chainCost (g : TaskGraph) (chain : List ℕ) : ℚ := (chain.map (g.costOf value)).sum

/-! ## The memo -/

/-- The cost of the costliest chain from a task. -/
def Best (g : TaskGraph) (task : ℕ) (cost : ℚ) : Prop :=
  Chains.Best (fun a b => g.DependsOn b a) (g.costOf value) task cost

/-- Every entry of the memo is the cost of the costliest chain from its task. -/
def Right (g : TaskGraph) (memo : HashMap ℕ ℚ) : Prop :=
  ∀ task cost, memo.lookup task = some cost → g.Best value task cost

/-- The memo is right, and the number is the largest of these costs, or zero. -/
def Largest (g : TaskGraph) (tasks : List ℕ) (s : ℚ × HashMap ℕ ℚ) : Prop :=
  g.Right value s.2 ∧ IsGreatest (insert 0 {c | ∃ a ∈ tasks, g.Best value a c}) s.1

/-- With so much fuel the recursion comes to the cost of the costliest chain, from any right memo to another
one. -/
def Finds (g : TaskGraph) (n task : ℕ) : Prop :=
  ∃ cost, g.Best value task cost ∧ ∀ fuel ≥ n, ∀ memo, g.Right value memo →
    ∃ memo', g.longestPathCost value fuel task memo = some (cost, memo') ∧ g.Right value memo'

variable {value} {g : TaskGraph} {n fuel task : ℕ} {tasks : List ℕ} {memo : HashMap ℕ ℚ} {cost : ℚ}

theorem Finds.mono {m : ℕ} (le : m ≤ n) (h : g.Finds value m task) : g.Finds value n task := by
  obtain ⟨cost, best, finds⟩ := h
  exact ⟨cost, best, fun fuel enough => finds fuel (le.trans enough)⟩

theorem right_empty : g.Right value ∅ := fun _ _ found => by cases found

theorem Right.insert (right : g.Right value memo) (best : g.Best value task cost) :
    g.Right value (memo.insert task cost) := by
  intro a c found
  by_cases same : a = task
  · rw [same, Finmap.lookup_insert] at found
    cases found
    rwa [same]
  · rw [Finmap.lookup_insert_of_ne _ same] at found
    exact right a c found

theorem largest_spec (finds : ∀ a ∈ tasks, g.Finds value n a) (enough : n ≤ fuel)
    (right : g.Right value memo) :
    ∃ s, largest (g.longestPathCost value fuel) tasks memo = some s ∧ g.Largest value tasks s := by
  have first : g.Largest value [] (0, memo) := ⟨right, by simp⟩
  refine foldlM_ensures first ?_
  rintro before a after rfl s ⟨right, greatest⟩
  obtain ⟨c, best, finds⟩ := finds a (by simp)
  obtain ⟨memo', run, right'⟩ := finds fuel enough s.2 right
  exact ⟨(max s.1 c, memo'), by rw [run]; rfl, right', Chains.isGreatest_concat best greatest⟩

/-- The recursion ends at every task, because dependencies have no cycle. -/
theorem Valid.finds (valid : g.Valid) (task : ℕ) : ∃ n, g.Finds value n task := by
  have finite : {a | ∃ b, g.DependsOn b a}.Finite :=
    g.tasks.keys.finite_toSet.subset fun a ⟨b, step⟩ => Finmap.mem_keys.2 (valid.ends b a step).2
  have acyclic : Acyclic fun a b => g.DependsOn b a := fun a cycle =>
    valid.acyclic a (Relation.transGen_swap.1 cycle)
  induction task using (acyclic.wellFounded finite).induction with
  | h task ih =>
    have finds : ∀ a ∈ g.dependentsOf task, ∃ n, g.Finds value n a := fun a ha =>
      ih a (valid.mem_dependentsOf.1 ha)
    obtain ⟨n, finds⟩ := Recursion.exists_forall_of_mono (P := g.Finds value) Finds.mono finds
    obtain ⟨⟨m, memo⟩, -, -, greatest⟩ := largest_spec finds le_rfl right_empty
    have best : g.Best value task (g.costOf value task + m) := by
      simp only [valid.mem_dependentsOf] at greatest
      refine Chains.best_add (Chains.isGreatest_costs (fun a ha => ?_) greatest)
      obtain ⟨c, hc, -⟩ := finds a (valid.mem_dependentsOf.2 ha)
      exact ⟨c, hc⟩
    refine ⟨n + 1, _, best, fun fuel enough memo right => ?_⟩
    obtain ⟨fuel, rfl⟩ := Nat.exists_eq_add_of_le' (Nat.le_of_add_left_le enough)
    unfold longestPathCost
    cases found : memo.lookup task with
    | some cost => exact ⟨memo, by rw [Chains.Best.unique (right task cost found) best], right⟩
    | none =>
      obtain ⟨⟨m', memo'⟩, run, right', greatest'⟩ := largest_spec finds (Nat.le_of_succ_le_succ enough) right
      obtain rfl : m = m' := greatest.unique greatest'
      exact ⟨memo'.insert task _, by rw [run]; rfl, right'.insert best⟩

/-! ## Every run -/

/-- No task has a negative cost. -/
def NonNegative (value : F64 → ℚ) (g : TaskGraph) : Prop :=
  ∀ a t, g.tasks.lookup a = some t → 0 ≤ value t.cost

theorem NonNegative.apply (nonneg : g.NonNegative value) (call : Call)
    (new : ∀ name cost, call = .addTask name cost → 0 ≤ value cost) : (g.apply call).NonNegative value := by
  intro a t found
  cases call with
  | addTask name cost =>
    change (g.tasks.insert g.nextId _).lookup a = some t at found
    by_cases same : a = g.nextId
    · rw [same, Finmap.lookup_insert] at found
      cases found
      exact new name cost rfl
    · rw [Finmap.lookup_insert_of_ne _ same] at found
      exact nonneg a t found
  | addDependency task dependsOn =>
    refine nonneg a t ?_
    rcases addDependency_cases g task dependsOn with ⟨-, eq⟩ | ⟨-, -, eq⟩ | ⟨-, -, eq⟩ <;>
      rwa [TaskGraph.apply, eq] at found
  | markCompleted task =>
    change (g.markCompleted task).tasks.lookup a = some t at found
    unfold markCompleted at found
    split at found
    · exact nonneg a t found
    · next old was =>
      by_cases same : a = task
      · rw [same, Finmap.lookup_insert] at found
        cases found
        exact nonneg task old was
      · rw [Finmap.lookup_insert_of_ne _ same] at found
        exact nonneg a t found

theorem nonNegative_run {calls : List Call}
    (nonneg : ∀ name cost, Call.addTask name cost ∈ calls → 0 ≤ value cost) :
      (run calls).NonNegative value := by
  induction calls using List.reverseRecOn with
  | nil => exact fun a t found => absurd found (by simp [run, new])
  | append_singleton calls call ih =>
    rw [run, List.foldl_concat]
    refine NonNegative.apply (ih fun name cost mem => nonneg name cost (List.mem_append_left _ mem)) call ?_
    rintro name cost rfl
    exact nonneg name cost (List.mem_append_right _ (List.mem_singleton_self _))

theorem NonNegative.costOf (nonneg : g.NonNegative value) (task : ℕ) : 0 ≤ g.costOf value task := by
  unfold TaskGraph.costOf
  cases found : g.tasks.lookup task with
  | none => exact le_rfl
  | some t => exact nonneg task t found

theorem Valid.isTaskChain_iff (valid : g.Valid) (chain : List ℕ) : g.IsTaskChain chain ↔
    (∀ a ∈ chain.head?, a ∈ g.tasks) ∧ chain.IsChain fun a b => g.DependsOn b a := by
  refine and_congr_left fun steps => ⟨fun all a ha => all a (List.mem_of_mem_head? ha), fun first => ?_⟩
  induction chain with
  | nil => exact List.forall_mem_nil _
  | cons a chain ih =>
    obtain ⟨next, steps⟩ := List.isChain_cons.1 steps
    exact List.forall_mem_cons.2 ⟨first a rfl, ih steps fun b hb => (valid.ends b a (next b hb)).1⟩

/-- Whatever the order of the tasks, the recursion ends with the largest cost of a chain of tasks, each of
which depends on the one before it.  The empty chain, which costs nothing, is the only one just when there is
no task. -/
theorem criticalPathCost_run (calls : List Call)
    (nonneg : ∀ name cost, Call.addTask name cost ∈ calls → 0 ≤ value cost) :
    ∃ cost, (∀ order : List ℕ, order.Perm (run calls).ids →
        ∃ n, ∀ fuel ≥ n, (run calls).criticalPathCost value fuel order = some cost) ∧
      IsGreatest {t | ∃ chain, (run calls).IsTaskChain chain ∧ (run calls).chainCost value chain = t} cost ∧
      ((∃ task, task ∈ (run calls).tasks) →
        ∃ chain, chain ≠ [] ∧ (run calls).IsTaskChain chain ∧ (run calls).chainCost value chain = cost) := by
  have valid := valid_run calls
  set g := run calls
  have mem (a : ℕ) : a ∈ g.ids ↔ a ∈ g.tasks := by rw [ids, Finset.mem_sort, Finmap.mem_keys]
  obtain ⟨n, finds⟩ := Recursion.exists_forall_of_mono (P := g.Finds value) Finds.mono
    fun a (_ : a ∈ g.ids) => valid.finds a
  have costliest {order : List ℕ} (perm : order.Perm g.ids) {fuel : ℕ} (enough : n ≤ fuel) :
      ∃ m, g.criticalPathCost value fuel order = some m ∧
        IsGreatest {t | ∃ chain, g.IsTaskChain chain ∧ g.chainCost value chain = t} m := by
    obtain ⟨⟨m, memo⟩, run, -, greatest⟩ :=
      largest_spec (fun a ha => finds a (perm.mem_iff.1 ha)) enough right_empty
    refine ⟨m, by rw [criticalPathCost, run]; rfl, ?_⟩
    simp only [perm.mem_iff, mem] at greatest
    have best : ∀ a ∈ {a | a ∈ g.tasks}, ∃ c, g.Best value a c := by
      intro a ha
      obtain ⟨c, hc, -⟩ := finds a ((mem a).2 ha)
      exact ⟨c, hc⟩
    have all := Chains.isGreatest_costs best greatest
    simp only [valid.isTaskChain_iff, and_assoc]
    exact all
  obtain ⟨cost, -, greatest⟩ := costliest (List.Perm.refl _) le_rfl
  refine ⟨cost, fun order perm => ⟨n, fun fuel enough => ?_⟩, greatest, ?_⟩
  · obtain ⟨m, run, greatest'⟩ := costliest perm enough
    rw [run, greatest.unique greatest']
  · rintro ⟨task, known⟩
    obtain ⟨chain, isChain, sum⟩ := greatest.1
    cases chain with
    | cons a chain => exact ⟨a :: chain, List.cons_ne_nil _ _, isChain, sum⟩
    | nil =>
      -- a single task costs no more than the empty chain, and no less
      have single : g.IsTaskChain [task] := ⟨List.forall_mem_singleton.2 known, .singleton _⟩
      refine ⟨[task], List.cons_ne_nil _ _, single, le_antisymm (greatest.2 ⟨[task], single, rfl⟩) ?_⟩
      rw [← sum]
      simpa [chainCost] using (nonNegative_run nonneg).costOf task

/-- Whole numbers. -/
def wholeCost : F64 → ℚ
  | .finite d => d.truncate
  | _ => 0

/-- Three tasks, each of which depends on the one before it. -/
def threeInARow : List Call :=
  [.addTask "A" (.finite ⟨false, 1, 0⟩), .addTask "B" (.finite ⟨false, 2, 0⟩),
    .addTask "C" (.finite ⟨false, 3, 0⟩),
    .addDependency 1 0, .addDependency 2 1]

theorem criticalPathCost_threeInARow :
    ∃ cost, (∀ order : List ℕ, order.Perm (run threeInARow).ids →
        ∃ n, ∀ fuel ≥ n, (run threeInARow).criticalPathCost wholeCost fuel order = some cost) ∧
      IsGreatest {t | ∃ chain, (run threeInARow).IsTaskChain chain ∧
        (run threeInARow).chainCost wholeCost chain = t} cost ∧
      ((∃ task, task ∈ (run threeInARow).tasks) → ∃ chain, chain ≠ [] ∧ (run threeInARow).IsTaskChain chain ∧
        (run threeInARow).chainCost wholeCost chain = cost) :=
  criticalPathCost_run threeInARow (by
    simp only [threeInARow, List.mem_cons, Call.addTask.injEq, reduceCtorEq, List.not_mem_nil, or_false]
    rintro name cost (⟨rfl, rfl⟩ | ⟨rfl, rfl⟩ | ⟨rfl, rfl⟩) <;> simp [wholeCost, Decimal.truncate])

end TORdex.TaskGraph
