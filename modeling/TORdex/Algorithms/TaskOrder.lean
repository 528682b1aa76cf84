import TORdex.Algorithms.TaskGraph
import TORdex.Lib.Ensures

/-!
# Task graphs stay acyclic

Every call keeps the two directions of a task graph in agreement and the graph without cycles.  So its tasks can
be sorted, and one of those that are not completed is ready.
-/

namespace TORdex.TaskGraph

open Relation (ReflTransGen TransGen)

/-- The task has the other one among its dependencies. -/
def DependsOn (g : TaskGraph) (a b : ℕ) : Prop := b ∈ g.dependenciesOf a

/-- What every run keeps: ids are fresh, dependencies lead from tasks to tasks, both directions have each edge
equally often, and there is no cycle. -/
structure Valid (g : TaskGraph) : Prop where
  fresh : ∀ id ∈ g.tasks, id < g.nextId
  ends : ∀ a b, g.DependsOn a b → a ∈ g.tasks ∧ b ∈ g.tasks
  mirrored : ∀ a b, (g.dependenciesOf a).count b = (g.dependentsOf b).count a
  acyclic : Acyclic g.DependsOn

variable {g : TaskGraph} {a b task dependsOn : ℕ}

theorem getD_extendEntry (map : HashMap ℕ (List ℕ)) (key : ℕ) (entries : List ℕ) (a : ℕ) :
    ((extendEntry map key entries).lookup a).getD [] =
      (map.lookup a).getD [] ++ if a = key then entries else [] := by
  unfold extendEntry
  split_ifs with h
  · rw [h, Finmap.lookup_insert, Option.getD_some]
  · rw [Finmap.lookup_insert_of_ne _ h, List.append_nil]

theorem Valid.mem_dependentsOf (valid : g.Valid) : a ∈ g.dependentsOf b ↔ g.DependsOn a b := by
  rw [DependsOn, ← List.count_pos_iff, ← List.count_pos_iff, valid.mirrored]

/-! ## The search for a cycle -/

/-- A path from a visited node leaves the visited ones through the stack. -/
theorem exists_stack_of_visited {target : ℕ} {visited : Finset ℕ} {stack : List ℕ}
    (closed : ∀ x ∈ visited, x ≠ target ∧ ∀ y ∈ g.dependentsOf x, y ∈ visited ∨ y ∈ stack)
    {x : ℕ} (mem : x ∈ visited) (path : ReflTransGen (fun a b => b ∈ g.dependentsOf a) x target) :
    ∃ y ∈ stack, ReflTransGen (fun a b => b ∈ g.dependentsOf a) y target := by
  induction path using ReflTransGen.head_induction_on with
  | refl => exact absurd rfl (closed target mem).1
  | head step path ih =>
    rcases (closed _ mem).2 _ step with mem | mem
    · exact ih mem
    · exact ⟨_, mem, path⟩

/-- The loop finds the target exactly if it can be reached from the stack. -/
theorem cycleLoop_iff {target : ℕ} {visited : Finset ℕ} {stack : List ℕ}
    (closed : ∀ x ∈ visited, x ≠ target ∧ ∀ y ∈ g.dependentsOf x, y ∈ visited ∨ y ∈ stack) :
    g.cycleLoop target visited stack ↔
      ∃ x ∈ stack, ReflTransGen (fun a b => b ∈ g.dependentsOf a) x target := by
  induction visited, stack using cycleLoop.induct g target with
  | case1 => simp [cycleLoop]
  | case2 visited stack =>
    rw [cycleLoop, if_pos rfl]
    exact iff_of_true rfl ⟨target, List.mem_cons_self, .refl⟩
  | case3 visited node stack other old ih =>
    have closed' : ∀ x ∈ visited, x ≠ target ∧ ∀ y ∈ g.dependentsOf x, y ∈ visited ∨ y ∈ stack := by
      refine fun x hx => ⟨(closed x hx).1, fun y hy => ?_⟩
      rcases (closed x hx).2 y hy with h | h
      · exact .inl h
      · rcases List.mem_cons.1 h with rfl | h
        · exact .inl old
        · exact .inr h
    rw [cycleLoop, if_neg other, if_pos old, ih closed']
    constructor
    · rintro ⟨x, mem, path⟩
      exact ⟨x, List.mem_cons_of_mem _ mem, path⟩
    · rintro ⟨x, mem, path⟩
      rcases List.mem_cons.1 mem with rfl | mem
      · exact exists_stack_of_visited closed' old path
      · exact ⟨x, mem, path⟩
  | case4 visited node stack other new ih =>
    rw [cycleLoop, if_neg other, if_neg new, ih]
    · constructor
      · rintro ⟨x, mem, path⟩
        rcases List.mem_append.1 mem with mem | mem
        · exact ⟨node, List.mem_cons_self, .head (List.mem_reverse.1 mem) path⟩
        · exact ⟨x, List.mem_cons_of_mem _ mem, path⟩
      · rintro ⟨x, mem, path⟩
        rcases List.mem_cons.1 mem with rfl | mem
        · rcases path.cases_head with rfl | ⟨y, step, path⟩
          · exact absurd rfl other
          · exact ⟨y, List.mem_append_left _ (List.mem_reverse.2 step), path⟩
        · exact ⟨x, List.mem_append_right _ mem, path⟩
    · intro x hx
      rcases Finset.mem_insert.1 hx with rfl | hx
      · exact ⟨other, fun y hy => .inr (List.mem_append_left _ (List.mem_reverse.2 hy))⟩
      · refine ⟨(closed x hx).1, fun y hy => ?_⟩
        rcases (closed x hx).2 y hy with h | h
        · exact .inl (Finset.mem_insert_of_mem h)
        · rcases List.mem_cons.1 h with rfl | h
          · exact .inl (Finset.mem_insert_self _ _)
          · exact .inr (List.mem_append_right _ h)

/-- The new dependency closes a cycle exactly if the dependency reaches the task. -/
theorem Valid.createsCycle_iff (valid : g.Valid) :
    g.createsCycle task dependsOn ↔ ¬Acyclic (Acyclic.WithPair g.DependsOn task dependsOn) := by
  have swapped : (fun a b => b ∈ g.dependentsOf a) = Function.swap g.DependsOn := by
    funext a b
    exact propext valid.mem_dependentsOf
  rw [Acyclic.withPair_iff valid.acyclic, not_not, createsCycle, cycleLoop_iff (by simp), swapped]
  simp [Relation.reflTransGen_swap]

/-! ## Every call keeps the graph valid -/

theorem valid_new : new.Valid where
  fresh id h := absurd h (Finmap.notMem_empty)
  ends a b h := by simp [DependsOn, dependenciesOf, new] at h
  mirrored a b := by simp [dependenciesOf, dependentsOf, new]
  acyclic a cycle := by
    obtain ⟨b, step, _⟩ := Relation.TransGen.head'_iff.1 cycle
    simp [DependsOn, dependenciesOf, new] at step

theorem dependenciesOf_addTask (g : TaskGraph) (name : String) (cost : F64) (a : ℕ) :
    (g.addTask name cost).1.dependenciesOf a = g.dependenciesOf a := by
  simp [TaskGraph.addTask, dependenciesOf, getD_extendEntry]

/-- A new task has no dependencies, and nothing depends on it. -/
theorem dependsOn_addTask (g : TaskGraph) (name : String) (cost : F64) :
    (g.addTask name cost).1.DependsOn = g.DependsOn := by
  funext a b
  rw [DependsOn, dependenciesOf_addTask, DependsOn]

theorem Valid.addTask (valid : g.Valid) (name : String) (cost : F64) : (g.addTask name cost).1.Valid := by
  have dependencies := g.dependenciesOf_addTask name cost
  have dependents (a : ℕ) : (g.addTask name cost).1.dependentsOf a = g.dependentsOf a := by
    simp [TaskGraph.addTask, dependentsOf, getD_extendEntry]
  have same := g.dependsOn_addTask name cost
  constructor
  · intro id mem
    rcases Finmap.mem_insert.1 mem with rfl | mem
    · exact Nat.lt_succ_self _
    · exact (valid.fresh id mem).trans (Nat.lt_succ_self _)
  · intro a b h
    rw [same] at h
    exact ⟨Finmap.mem_insert.2 (.inr (valid.ends a b h).1), Finmap.mem_insert.2 (.inr (valid.ends a b h).2)⟩
  · intro a b
    rw [dependencies, dependents, valid.mirrored]
  · rw [same]
    exact valid.acyclic

/-- The three outcomes of adding a dependency. -/
theorem addDependency_cases (g : TaskGraph) (task dependsOn : ℕ) :
    (task ∉ g.tasks ∨ dependsOn ∉ g.tasks) ∧
        g.addDependency task dependsOn = (g, .error "task not found") ∨
      (task ∈ g.tasks ∧ dependsOn ∈ g.tasks) ∧ g.createsCycle task dependsOn ∧
        g.addDependency task dependsOn = (g, .error "dependency would create a cycle") ∨
      (task ∈ g.tasks ∧ dependsOn ∈ g.tasks) ∧ ¬g.createsCycle task dependsOn ∧
        g.addDependency task dependsOn = ({ g with
          dependencies := extendEntry g.dependencies task [dependsOn]
          dependents := extendEntry g.dependents dependsOn [task] }, .ok ()) := by
  unfold addDependency
  by_cases unknown : task ∉ g.tasks ∨ dependsOn ∉ g.tasks
  · exact .inl ⟨unknown, if_pos unknown⟩
  · rw [if_neg unknown]
    simp only [not_or, not_not] at unknown
    by_cases cycle : g.createsCycle task dependsOn
    · exact .inr (.inl ⟨unknown, cycle, if_pos cycle⟩)
    · exact .inr (.inr ⟨unknown, cycle, if_neg cycle⟩)

/-- A dependency that is taken is one more, and no other is touched. -/
theorem dependsOn_addDependency (ok : (g.addDependency task dependsOn).2.isOk) :
    (g.addDependency task dependsOn).1.DependsOn = Acyclic.WithPair g.DependsOn task dependsOn ∧
      (g.addDependency task dependsOn).1.tasks = g.tasks := by
  obtain ⟨-, eq⟩ | ⟨-, -, eq⟩ | ⟨-, -, eq⟩ := addDependency_cases g task dependsOn
  · rw [eq] at ok
    cases ok
  · rw [eq] at ok
    cases ok
  · rw [eq]
    refine ⟨?_, rfl⟩
    funext a b
    rw [DependsOn, dependenciesOf, getD_extendEntry, Acyclic.WithPair, List.mem_append]
    split_ifs with h <;> simp [h, DependsOn, dependenciesOf]

/-- A dependency that is refused leaves the graph as it is. -/
theorem addDependency_refused (refused : ¬(g.addDependency task dependsOn).2.isOk) :
    (g.addDependency task dependsOn).1 = g := by
  obtain ⟨-, eq⟩ | ⟨-, -, eq⟩ | ⟨-, -, eq⟩ := addDependency_cases g task dependsOn
  · rw [eq]
  · rw [eq]
  · rw [eq] at refused
    exact absurd rfl refused

theorem Valid.addDependency (valid : g.Valid) (task dependsOn : ℕ) :
    (g.addDependency task dependsOn).1.Valid := by
  obtain ⟨-, eq⟩ | ⟨-, -, eq⟩ | ⟨known, noCycle, eq⟩ := addDependency_cases g task dependsOn
  · rw [eq]
    exact valid
  · rw [eq]
    exact valid
  · rw [eq]
    set g' : TaskGraph := { g with
      dependencies := extendEntry g.dependencies task [dependsOn]
      dependents := extendEntry g.dependents dependsOn [task] } with hg'
    have dependencies (a : ℕ) : g'.dependenciesOf a =
        g.dependenciesOf a ++ if a = task then [dependsOn] else [] := getD_extendEntry _ _ _ _
    have dependents (a : ℕ) : g'.dependentsOf a =
        g.dependentsOf a ++ if a = dependsOn then [task] else [] := getD_extendEntry _ _ _ _
    have extended : g'.DependsOn = Acyclic.WithPair g.DependsOn task dependsOn := by
      have ok : (g.addDependency task dependsOn).2.isOk := by
        rw [eq]
        rfl
      have pair := (dependsOn_addDependency ok).1
      rwa [eq] at pair
    constructor
    · exact valid.fresh
    · intro a b h
      rw [extended] at h
      rcases h with h | ⟨rfl, rfl⟩
      · exact valid.ends a b h
      · exact known
    · intro a b
      rw [dependencies, dependents, List.count_append, List.count_append, valid.mirrored]
      congr 1
      split_ifs with ha hb hb
      · simp [ha, hb]
      · simp [Ne.symm hb]
      · simp [Ne.symm ha]
      · rfl
    · rw [extended]
      by_contra cyclic
      exact noCycle (valid.createsCycle_iff.2 cyclic)

theorem mem_markCompleted (g : TaskGraph) (task : ℕ) {id : ℕ} :
    id ∈ (g.markCompleted task).tasks ↔ id ∈ g.tasks := by
  unfold markCompleted
  split
  · rfl
  · next t found =>
    rw [Finmap.mem_insert, or_iff_right_iff_imp]
    rintro rfl
    exact Finmap.mem_of_lookup_eq_some found

/-- Only the tasks are touched. -/
theorem markCompleted_rest (g : TaskGraph) (task : ℕ) : (g.markCompleted task).dependencies = g.dependencies ∧
    (g.markCompleted task).dependents = g.dependents ∧ (g.markCompleted task).nextId = g.nextId := by
  unfold TaskGraph.markCompleted
  split <;> exact ⟨rfl, rfl, rfl⟩

theorem dependsOn_markCompleted (g : TaskGraph) (task : ℕ) : (g.markCompleted task).DependsOn = g.DependsOn := by
  funext a b
  rw [DependsOn, dependenciesOf, (g.markCompleted_rest task).1, DependsOn, dependenciesOf]

theorem Valid.markCompleted (valid : g.Valid) (task : ℕ) : (g.markCompleted task).Valid := by
  obtain ⟨dependencies, dependents, nextId⟩ := g.markCompleted_rest task
  have same := g.dependsOn_markCompleted task
  constructor
  · intro id mem
    rw [nextId]
    exact valid.fresh id ((mem_markCompleted g task).1 mem)
  · intro a b h
    rw [same] at h
    exact (valid.ends a b h).imp (mem_markCompleted g task).2 (mem_markCompleted g task).2
  · intro a b
    rw [dependenciesOf, dependentsOf, dependencies, dependents]
    exact valid.mirrored a b
  · rw [same]
    exact valid.acyclic

theorem valid_run (calls : List Call) : (run calls).Valid := by
  have steps : ∀ g : TaskGraph, g.Valid → (calls.foldl apply g).Valid := by
    induction calls with
    | nil => exact fun g valid => valid
    | cons call calls ih =>
      refine fun g valid => ih _ ?_
      cases call with
      | addTask name cost => exact valid.addTask name cost
      | addDependency task dependsOn => exact valid.addDependency task dependsOn
      | markCompleted task => exact valid.markCompleted task
  exact steps new valid_new

/-! ## What a run records -/

/-- The tasks that the calls add, by their ids, each completed if it was marked since. -/
def recorded (calls : List Call) : List Task :=
  calls.foldl (fun tasks call => match call with
    | .addTask name cost => tasks ++ [⟨tasks.length, name, cost, false⟩]
    | .addDependency _ _ => tasks
    | .markCompleted task => tasks.modify task fun t => { t with completed := true }) []

/-- The calls that add a dependency and are answered with `Ok`. -/
def Accepted (calls : List Call) (a b : ℕ) : Prop :=
  ∃ earlier, earlier ++ [.addDependency a b] <+: calls ∧ ((run earlier).addDependency a b).2.isOk

theorem run_concat (calls : List Call) (call : Call) : run (calls ++ [call]) = (run calls).apply call :=
  List.foldl_concat _ _ _ _

/-- Adding a dependency touches no task. -/
theorem addDependency_rest (g : TaskGraph) (task dependsOn : ℕ) :
    (g.addDependency task dependsOn).1.nextId = g.nextId ∧ (g.addDependency task dependsOn).1.tasks = g.tasks := by
  obtain ⟨-, eq⟩ | ⟨-, -, eq⟩ | ⟨-, -, eq⟩ := addDependency_cases g task dependsOn <;>
    rw [eq] <;> exact ⟨rfl, rfl⟩

theorem lookup_markCompleted (g : TaskGraph) (task id : ℕ) : (g.markCompleted task).tasks.lookup id =
    (fun t : Task => if task = id then { t with completed := true } else t) <$> g.tasks.lookup id := by
  unfold markCompleted
  split
  · next absent =>
    split_ifs with own
    · rw [← own, absent]
      rfl
    · simp
  · next t found =>
    split_ifs with own
    · rw [← own, Finmap.lookup_insert, found]
      rfl
    · rw [Finmap.lookup_insert_of_ne _ (Ne.symm own)]
      simp

theorem recorded_spec (calls : List Call) : (run calls).nextId = (recorded calls).length ∧
    ∀ id, (run calls).tasks.lookup id = (recorded calls)[id]? := by
  induction calls using List.reverseRecOn with
  | nil => exact ⟨rfl, fun _ => rfl⟩
  | append_singleton calls call ih =>
    obtain ⟨next, tasks⟩ := ih
    rw [run_concat]
    unfold recorded at next tasks ⊢
    rw [List.foldl_concat]
    generalize List.foldl _ [] calls = known at next tasks ⊢
    cases call with
    | addTask name cost =>
      refine ⟨by simp [apply, addTask, next], fun id => ?_⟩
      show ((run calls).tasks.insert (run calls).nextId ⟨(run calls).nextId, name, cost, false⟩).lookup id = _
      rw [next]
      by_cases new : id = known.length
      · rw [new, Finmap.lookup_insert, List.getElem?_concat_length]
      · rw [Finmap.lookup_insert_of_ne _ new, tasks, List.getElem?_append]
        split_ifs with old
        · rfl
        · rw [List.getElem?_eq_none (by omega), List.getElem?_eq_none (by simp; omega)]
    | addDependency task dependsOn =>
      have same := (run calls).addDependency_rest task dependsOn
      exact ⟨same.1.trans next, fun id => by rw [← tasks, ← same.2]; rfl⟩
    | markCompleted task =>
      refine ⟨?_, fun id => ?_⟩
      · rw [List.length_modify]
        exact ((run calls).markCompleted_rest task).2.2.trans next
      · rw [List.getElem?_modify, ← tasks]
        exact (run calls).lookup_markCompleted task id

/-- The dependencies of a task are those that were taken. -/
theorem dependsOn_run_iff (calls : List Call) (a b : ℕ) : (run calls).DependsOn a b ↔ Accepted calls a b := by
  induction calls using List.reverseRecOn with
  | nil =>
    refine iff_of_false (by simp [DependsOn, dependenciesOf, run, new]) ?_
    rintro ⟨earlier, before, -⟩
    simpa using List.eq_nil_of_prefix_nil before
  | append_singleton calls call ih =>
    have split : Accepted (calls ++ [call]) a b ↔
        Accepted calls a b ∨ call = .addDependency a b ∧ ((run calls).addDependency a b).2.isOk := by
      constructor
      · rintro ⟨earlier, before, ok⟩
        rcases List.prefix_concat_iff.1 before with same | before
        · obtain ⟨rfl, last⟩ := List.append_inj' same rfl
          exact .inr ⟨(List.singleton_inj.1 last).symm, ok⟩
        · exact .inl ⟨earlier, before, ok⟩
      · rintro (⟨earlier, before, ok⟩ | ⟨rfl, ok⟩)
        · exact ⟨earlier, before.trans (List.prefix_append _ _), ok⟩
        · exact ⟨calls, List.prefix_rfl, ok⟩
    rw [split, ← ih, run_concat]
    cases call with
    | addTask name cost =>
      show ((run calls).addTask name cost).1.DependsOn a b ↔ _
      simp [dependsOn_addTask]
    | markCompleted task =>
      show ((run calls).markCompleted task).DependsOn a b ↔ _
      simp [dependsOn_markCompleted]
    | addDependency task dependsOn =>
      show ((run calls).addDependency task dependsOn).1.DependsOn a b ↔ _
      by_cases ok : ((run calls).addDependency task dependsOn).2.isOk
      · rw [(dependsOn_addDependency ok).1, Acyclic.WithPair, Call.addDependency.injEq]
        refine or_congr_right ⟨?_, ?_⟩
        · rintro ⟨rfl, rfl⟩
          exact ⟨⟨rfl, rfl⟩, ok⟩
        · rintro ⟨⟨rfl, rfl⟩, -⟩
          exact ⟨rfl, rfl⟩
      · rw [addDependency_refused ok, Call.addDependency.injEq]
        refine (or_iff_left ?_).symm
        rintro ⟨⟨rfl, rfl⟩, ok'⟩
        exact ok ok'

/-! ## Sorting -/

section Release

variable {inDeg : HashMap ℕ ℕ} {queue : List ℕ}

/-- The counts of the tasks. -/
def degree (inDeg : HashMap ℕ ℕ) (a : ℕ) : ℕ := (inDeg.lookup a).getD 0

theorem degree_insert (inDeg : HashMap ℕ ℕ) (dep n a : ℕ) :
    degree (inDeg.insert dep n) a = if a = dep then n else degree inDeg a := by
  unfold degree
  split_ifs with h
  · rw [h, Finmap.lookup_insert, Option.getD_some]
  · rw [Finmap.lookup_insert_of_ne _ h]

theorem count_cons_eq (dep : ℕ) (deps : List ℕ) (a : ℕ) :
    (dep :: deps).count a = deps.count a + if a = dep then 1 else 0 := by
  simp only [List.count_cons, beq_iff_eq, @eq_comm _ dep a]

/-- The counts are still enough for the other dependents. -/
theorem count_le_degree_insert {dep deg : ℕ} {deps : List ℕ} (here : degree inDeg dep = deg)
    (enough : ∀ a, (dep :: deps).count a ≤ degree inDeg a) (a : ℕ) :
    deps.count a ≤ degree (inDeg.insert dep (deg - 1)) a := by
  have := enough a
  rw [count_cons_eq] at this
  rw [degree_insert]
  split_ifs with h
  · rw [if_pos h, h, here] at this
    rw [h]
    omega
  · rwa [if_neg h] at this

/-- What releasing dependents does: every count goes down by the number of times that the task is released, and
those that come to zero are queued once. -/
theorem foldl_release {deps : List ℕ} (known : ∀ a ∈ deps, a ∈ inDeg)
    (enough : ∀ a, deps.count a ≤ degree inDeg a) :
    ∃ inDeg' free, deps.foldl release (inDeg, queue) = (inDeg', free ++ queue) ∧
      (∀ a, a ∈ inDeg' ↔ a ∈ inDeg) ∧ (∀ a, degree inDeg' a = degree inDeg a - deps.count a) ∧
      free.Nodup ∧ ∀ a, a ∈ free ↔ a ∈ deps ∧ degree inDeg a = deps.count a := by
  induction deps generalizing inDeg queue with
  | nil => exact ⟨inDeg, [], rfl, by simp, by simp, List.nodup_nil, by simp⟩
  | cons dep deps ih =>
    obtain ⟨deg, found⟩ := Finmap.mem_iff.1 (known dep List.mem_cons_self)
    have here : degree inDeg dep = deg := by rw [degree, found, Option.getD_some]
    have positive : deps.count dep + 1 ≤ deg := by
      have := enough dep
      rwa [List.count_cons_self, here] at this
    have known' : ∀ a ∈ deps, a ∈ inDeg.insert dep (deg - 1) := fun a ha =>
      Finmap.mem_insert.2 (.inr (known a (List.mem_cons_of_mem _ ha)))
    obtain ⟨inDeg', free, eq, keys, degrees, nodup, mem⟩ :=
      @ih _ (if deg - 1 = 0 then dep :: queue else queue) known' (count_le_degree_insert here enough)
    have keys' (a : ℕ) : a ∈ inDeg' ↔ a ∈ inDeg := by
      rw [keys, Finmap.mem_insert, or_iff_right_iff_imp]
      rintro rfl
      exact Finmap.mem_of_lookup_eq_some found
    have degrees' (a : ℕ) : degree inDeg' a = degree inDeg a - (dep :: deps).count a := by
      rw [degrees, degree_insert, count_cons_eq]
      split_ifs with h
      · rw [h, here]
        omega
      · omega
    have step : release (inDeg, queue) dep =
        (inDeg.insert dep (deg - 1), if deg - 1 = 0 then dep :: queue else queue) := by
      simp only [release, found]
    rw [List.foldl_cons, step, eq]
    by_cases zero : deg - 1 = 0
    · have absent : dep ∉ deps := by
        rw [← List.count_pos_iff]
        omega
      refine ⟨inDeg', free ++ [dep], by rw [if_pos zero, List.append_cons], keys', degrees', ?_, ?_⟩
      · rw [List.nodup_append]
        refine ⟨nodup, List.nodup_singleton _, fun a ha b hb same => ?_⟩
        rw [List.mem_singleton.1 hb] at same
        exact absent (same ▸ ((mem a).1 ha).1)
      · intro a
        rw [List.mem_append, mem, List.mem_singleton, degree_insert, List.mem_cons, count_cons_eq]
        by_cases h : a = dep
        · subst h
          refine ⟨fun _ => ⟨.inl rfl, ?_⟩, fun _ => .inr rfl⟩
          rw [here, if_pos rfl, List.count_eq_zero_of_not_mem absent]
          omega
        · simp [h]
    · refine ⟨inDeg', free, by rw [if_neg zero], keys', degrees', nodup, fun a => ?_⟩
      rw [mem, degree_insert, List.mem_cons, count_cons_eq]
      by_cases h : a = dep
      · subst h
        rw [if_pos rfl, if_pos rfl, here]
        constructor
        · rintro ⟨h, eq⟩
          exact ⟨.inr h, by omega⟩
        · rintro ⟨-, eq⟩
          exact ⟨List.count_pos_iff.1 (by omega), by omega⟩
      · simp [h]

end Release

/-- The loop: each count is the number of dependencies that are not sorted, and the queue has the unsorted
tasks whose count is zero. -/
structure Sorting (g : TaskGraph) (inDeg : HashMap ℕ ℕ) (queue sorted : List ℕ) : Prop where
  keys : ∀ a, a ∈ inDeg ↔ a ∈ g.tasks
  degrees : ∀ a, degree inDeg a = (g.dependenciesOf a).countP (· ∉ sorted)
  nodup : (queue ++ sorted).Nodup
  queued : ∀ a, a ∈ queue ↔ a ∈ g.tasks ∧ a ∉ sorted ∧ ∀ b, g.DependsOn a b → b ∈ sorted
  within : ∀ a ∈ sorted, a ∈ g.tasks
  ordered : ∀ before a after, sorted = before ++ a :: after → ∀ b, g.DependsOn a b → b ∈ before

theorem countP_notMem_concat {l sorted : List ℕ} (new : task ∉ sorted) :
    l.countP (· ∉ sorted ++ [task]) = l.countP (· ∉ sorted) - l.count task := by
  induction l with
  | nil => rfl
  | cons a l ih =>
    have le : l.count task ≤ l.countP (· ∉ sorted) := by
      rw [List.count]
      refine List.countP_mono_left fun x _ hx => ?_
      rw [beq_iff_eq] at hx
      simpa [hx] using new
    rw [List.countP_cons, List.countP_cons, List.count_cons, ih]
    by_cases same : a = task
    · simp [same, new]
    · simp only [decide_not] at le
      by_cases mem : a ∈ sorted <;> simp [mem, same]
      omega

theorem countP_notMem_eq_zero {sorted : List ℕ} :
    (g.dependenciesOf a).countP (· ∉ sorted) = 0 ↔ ∀ b, g.DependsOn a b → b ∈ sorted := by
  simp [DependsOn]

/-- One task is taken from the queue. -/
theorem Sorting.step (valid : g.Valid) {inDeg : HashMap ℕ ℕ} {queue sorted : List ℕ}
    (s : g.Sorting inDeg (task :: queue) sorted) :
    ∃ inDeg' queue', (g.dependentsOf task).foldl release (inDeg, queue) = (inDeg', queue') ∧
      g.Sorting inDeg' queue' (sorted ++ [task]) := by
  obtain ⟨isTask, new, ready⟩ := (s.queued task).1 List.mem_cons_self
  have count (a : ℕ) : (g.dependentsOf task).count a = (g.dependenciesOf a).count task :=
    (valid.mirrored a task).symm
  have enough (a : ℕ) : (g.dependentsOf task).count a ≤ degree inDeg a := by
    rw [count, s.degrees, List.count]
    refine List.countP_mono_left fun x _ hx => ?_
    rw [beq_iff_eq] at hx
    simpa [hx] using new
  have known : ∀ a ∈ g.dependentsOf task, a ∈ inDeg := fun a ha =>
    (s.keys a).2 (valid.ends a task (valid.mem_dependentsOf.1 ha)).1
  obtain ⟨inDeg', free, eq, keys, degrees, nodup, mem⟩ := @foldl_release inDeg queue _ known enough
  have degrees' (a : ℕ) : degree inDeg' a = (g.dependenciesOf a).countP (· ∉ sorted ++ [task]) := by
    rw [degrees, s.degrees, count, countP_notMem_concat new]
  have free_iff (a : ℕ) : a ∈ free ↔
      g.DependsOn a task ∧ ∀ b, g.DependsOn a b → b ∈ sorted ++ [task] := by
    rw [mem, valid.mem_dependentsOf, ← countP_notMem_eq_zero, ← degrees', degrees]
    have := enough a
    exact and_congr_right fun _ => by omega
  -- a dependent of the task is neither queued nor sorted before
  have fresh : ∀ a ∈ free, a ∉ queue ∧ a ∉ sorted ∧ a ≠ task := by
    intro a ha
    obtain ⟨needs, -⟩ := (free_iff a).1 ha
    refine ⟨fun mem => ?_, fun mem => ?_, fun same => ?_⟩
    · exact new (((s.queued a).1 (List.mem_cons_of_mem _ mem)).2.2 task needs)
    · obtain ⟨before, after, split⟩ := List.append_of_mem mem
      exact new (split ▸ List.mem_append_left _ (s.ordered before a after split task needs))
    · exact valid.acyclic task (.single (same ▸ needs))
  obtain ⟨notIn, rest⟩ := List.nodup_cons.1 (List.cons_append ▸ s.nodup)
  have notQueued : task ∉ queue := fun mem => notIn (List.mem_append_left _ mem)
  refine ⟨inDeg', free ++ queue, eq, fun a => (keys a).trans (s.keys a), degrees', ?_, fun a => ?_,
    forall_mem_concat s.within isTask, ?_⟩
  · have perm : (free ++ queue ++ (sorted ++ [task])).Perm (free ++ task :: (queue ++ sorted)) := by
      rw [List.append_assoc, ← List.append_assoc queue]
      exact (List.perm_append_singleton _ _).append_left free
    rw [perm.nodup_iff, List.nodup_append]
    refine ⟨nodup, List.nodup_cons.2 ⟨notIn, rest⟩, fun a ha b hb same => ?_⟩
    obtain ⟨outQueue, outSorted, other⟩ := fresh a ha
    rw [← same, List.mem_cons, List.mem_append] at hb
    exact hb.elim other fun h => h.elim outQueue outSorted
  · rw [List.mem_append, List.mem_append, List.mem_singleton, not_or]
    constructor
    · rintro (mem | mem)
      · obtain ⟨needs, ready⟩ := (free_iff a).1 mem
        exact ⟨(valid.ends a task needs).1, (fresh a mem).2, ready⟩
      · obtain ⟨known, out, ready⟩ := (s.queued a).1 (List.mem_cons_of_mem _ mem)
        exact ⟨known, ⟨out, fun same => notQueued (same ▸ mem)⟩,
          fun b hb => List.mem_append_left _ (ready b hb)⟩
    · rintro ⟨known, ⟨out, other⟩, ready⟩
      by_cases needs : g.DependsOn a task
      · exact .inl ((free_iff a).2 ⟨needs, ready⟩)
      · refine .inr (List.mem_of_ne_of_mem other ((s.queued a).2 ⟨known, out, fun b hb => ?_⟩))
        rcases List.mem_append.1 (ready b hb) with mem | mem
        · exact mem
        · exact absurd (List.mem_singleton.1 mem ▸ hb) needs
  · intro before a after split b hb
    rcases List.eq_nil_or_concat after with rfl | ⟨after, last, rfl⟩
    · obtain ⟨rfl, same⟩ := List.append_inj' split rfl
      cases same
      exact ready b hb
    · rw [List.concat_eq_append, ← List.cons_append, ← List.append_assoc] at split
      exact s.ordered before a after (List.append_inj' split rfl).1 b hb

theorem Sorting.length_le {inDeg : HashMap ℕ ℕ} {queue sorted : List ℕ}
    (s : g.Sorting inDeg queue sorted) : queue.length + sorted.length ≤ g.tasks.keys.card := by
  rw [← List.length_append]
  have sub : (queue ++ sorted).toFinset ⊆ g.tasks.keys := by
    intro a ha
    rw [List.mem_toFinset, List.mem_append] at ha
    exact Finmap.mem_keys.2 (ha.elim (fun h => ((s.queued a).1 h).1) (s.within a))
  rw [← List.toFinset_card_of_nodup s.nodup]
  exact Finset.card_le_card sub

/-- When the queue is empty, every task is sorted: else one of the others would be last in a chain of
dependencies among them, and queued. -/
theorem Sorting.complete (valid : g.Valid) {inDeg : HashMap ℕ ℕ} {sorted : List ℕ}
    (s : g.Sorting inDeg [] sorted) : ∀ a ∈ g.tasks, a ∈ sorted := by
  by_contra missing
  simp only [not_forall] at missing
  obtain ⟨a, known, out⟩ := missing
  have nonempty : (g.tasks.keys.filter (· ∉ sorted)).Nonempty :=
    ⟨a, Finset.mem_filter.2 ⟨Finmap.mem_keys.2 known, out⟩⟩
  obtain ⟨last, mem, independent⟩ := valid.acyclic.exists_last nonempty
  rw [Finset.mem_filter, Finmap.mem_keys] at mem
  refine absurd ((s.queued last).2 ⟨mem.1, mem.2, fun b hb => ?_⟩) List.not_mem_nil
  by_contra out
  exact independent b (Finset.mem_filter.2 ⟨Finmap.mem_keys.2 (valid.ends last b hb).2, out⟩) hb

/-- The loop sorts all tasks, each after its dependencies. -/
theorem sortLoop_spec (valid : g.Valid) {fuel : ℕ} {inDeg : HashMap ℕ ℕ} {queue sorted : List ℕ}
    (s : g.Sorting inDeg queue sorted) (enough : g.tasks.keys.card < fuel + sorted.length) :
    ∃ all, g.sortLoop fuel inDeg queue sorted = some all ∧ all.Perm g.ids ∧
      ∀ before a after, all = before ++ a :: after → ∀ b, g.DependsOn a b → b ∈ before := by
  induction fuel generalizing inDeg queue sorted with
  | zero =>
    have := s.length_le
    omega
  | succ fuel ih =>
    cases queue with
    | nil =>
      refine ⟨sorted, rfl, ?_, s.ordered⟩
      refine (List.perm_ext_iff_of_nodup (List.nil_append sorted ▸ s.nodup) (Finset.sort_nodup _ _)).2 fun a => ?_
      rw [Finset.mem_sort, Finmap.mem_keys]
      exact ⟨s.within a, s.complete valid a⟩
    | cons task queue =>
      obtain ⟨inDeg', queue', eq, next⟩ := s.step valid
      obtain ⟨all, run, spec⟩ := ih next (by rw [List.length_append, List.length_singleton]; omega)
      exact ⟨all, by rw [sortLoop, eq]; exact run, spec⟩

theorem lookup_inDegrees (g : TaskGraph) (order : List ℕ) (a : ℕ) :
    (g.inDegrees order).lookup a = if a ∈ order then some (g.dependenciesOf a).length else none := by
  induction order using List.reverseRecOn with
  | nil => rfl
  | append_singleton order id ih =>
    rw [inDegrees, List.foldl_concat, ← inDegrees]
    by_cases same : a = id
    · rw [same, Finmap.lookup_insert, if_pos (by simp)]
    · rw [Finmap.lookup_insert_of_ne _ same, ih]
      simp [same]

/-- Whatever the orders of the hash maps, all tasks are sorted, each after its dependencies. -/
theorem Valid.topologicalSort (valid : g.Valid) {order degrees : List ℕ} (tasks : order.Perm g.ids)
    (counts : degrees.Perm g.ids) : ∃ all, g.topologicalSort order degrees = some all ∧ all.Perm g.ids ∧
      ∀ before a after, all = before ++ a :: after → ∀ b, g.DependsOn a b → b ∈ before := by
  have mem (a : ℕ) : a ∈ g.ids ↔ a ∈ g.tasks := by rw [ids, Finset.mem_sort, Finmap.mem_keys]
  have lookup (a : ℕ) : (g.inDegrees order).lookup a =
      if a ∈ g.tasks then some (g.dependenciesOf a).length else none := by
    rw [lookup_inDegrees]
    simp only [tasks.mem_iff, mem]
  refine sortLoop_spec valid ⟨fun a => ?_, fun a => ?_, ?_, fun a => ?_, by simp, by simp⟩ (by simp)
  · rw [← Finmap.lookup_isSome, lookup]
    split_ifs with known <;> simp [known]
  · rw [degree, lookup]
    split_ifs with known
    · simp
    · have none : g.dependenciesOf a = [] := List.eq_nil_iff_forall_not_mem.2 fun b hb =>
        known (valid.ends a b hb).1
      simp [none]
  · rw [List.append_nil, List.nodup_reverse]
    exact (counts.nodup_iff.2 (Finset.sort_nodup _ _)).filter _
  · rw [List.mem_reverse, List.mem_filter, counts.mem_iff, mem, lookup]
    refine and_congr_right fun known => ?_
    simp [known, DependsOn, List.eq_nil_iff_forall_not_mem]

/-! ## Ready tasks -/

theorem Valid.readyTasks_ne_nil (valid : g.Valid) {order : List ℕ} (tasks : order.Perm g.ids)
    (open' : ∃ a ∈ g.tasks, ¬g.isCompleted a) : g.readyTasks order ≠ [] := by
  obtain ⟨a, known, incomplete⟩ := open'
  have nonempty : (g.tasks.keys.filter fun a => ¬g.isCompleted a).Nonempty :=
    ⟨a, Finset.mem_filter.2 ⟨Finmap.mem_keys.2 known, incomplete⟩⟩
  obtain ⟨last, mem, independent⟩ := valid.acyclic.exists_last nonempty
  rw [Finset.mem_filter, Finmap.mem_keys] at mem
  refine List.ne_nil_of_mem (a := last) (List.mem_filter.2 ⟨?_, ?_⟩)
  · rw [tasks.mem_iff, ids, Finset.mem_sort, Finmap.mem_keys]
    exact mem.1
  · obtain ⟨task, found⟩ := Finmap.mem_iff.1 mem.1
    rw [isCompleted, found, Option.all_some, Bool.not_eq_true] at mem
    rw [found, Option.any_some, mem.2, Bool.not_false, Bool.true_and, List.all_eq_true]
    intro b hb
    by_contra incomplete
    exact independent b (Finset.mem_filter.2 ⟨Finmap.mem_keys.2 (valid.ends last b hb).2, incomplete⟩) hb

/-! ## Every run -/

/-- After every run of calls: the tasks are those that were added, completed as they were marked, and the dependencies
those that were taken; there is no cycle; a dependency is refused exactly if a task is unknown or a cycle would close,
and then the graph stays as it is, and else it is the only change; all tasks can be sorted, each after its
dependencies, whatever the orders of the hash maps; and while a task is not completed, some task is ready. -/
theorem run_spec (calls : List Call) :
    (∀ id, (run calls).tasks.lookup id = (recorded calls)[id]?) ∧
    (∀ a b, (run calls).DependsOn a b ↔ Accepted calls a b) ∧
    Acyclic (run calls).DependsOn ∧
    (∀ task dependsOn, (¬((run calls).addDependency task dependsOn).2.isOk ↔
        (task ∉ (run calls).tasks ∨ dependsOn ∉ (run calls).tasks) ∨
          ¬Acyclic (Acyclic.WithPair (run calls).DependsOn task dependsOn)) ∧
      (¬((run calls).addDependency task dependsOn).2.isOk →
        ((run calls).addDependency task dependsOn).1 = run calls) ∧
      (((run calls).addDependency task dependsOn).2.isOk →
        ((run calls).addDependency task dependsOn).1.DependsOn =
            Acyclic.WithPair (run calls).DependsOn task dependsOn ∧
          ((run calls).addDependency task dependsOn).1.tasks = (run calls).tasks)) ∧
    (∀ order degrees, order.Perm (run calls).ids → degrees.Perm (run calls).ids →
      ∃ all, (run calls).topologicalSort order degrees = some all ∧ all.Perm (run calls).ids ∧
        ∀ before a after, all = before ++ a :: after → ∀ b, (run calls).DependsOn a b → b ∈ before) ∧
    ∀ order, order.Perm (run calls).ids → (∃ a ∈ (run calls).tasks, ¬(run calls).isCompleted a) →
      (run calls).readyTasks order ≠ [] := by
  have valid := valid_run calls
  refine ⟨(recorded_spec calls).2, dependsOn_run_iff calls, valid.acyclic, fun task dependsOn =>
    ⟨?_, addDependency_refused, dependsOn_addDependency⟩, fun _ _ => valid.topologicalSort,
    fun _ => valid.readyTasks_ne_nil⟩
  rw [← valid.createsCycle_iff]
  obtain ⟨unknown, eq⟩ | ⟨known, cycle, eq⟩ | ⟨known, noCycle, eq⟩ :=
    addDependency_cases (run calls) task dependsOn
  · rw [eq]
    exact iff_of_true (by simp [Except.isOk, Except.toBool]) (.inl unknown)
  · rw [eq]
    exact iff_of_true (by simp [Except.isOk, Except.toBool]) (.inr cycle)
  · rw [eq]
    refine iff_of_false (by simp [Except.isOk, Except.toBool]) ?_
    rintro (unknown | cycle)
    · exact unknown.elim (absurd known.1) (absurd known.2)
    · exact noCycle cycle

end TORdex.TaskGraph
