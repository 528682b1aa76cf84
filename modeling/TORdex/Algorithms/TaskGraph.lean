import Mathlib.Algebra.Order.BigOperators.Group.Finset
import Mathlib.Data.Finset.Sort
import TORdex.Core.Json
import TORdex.Lib.Acyclic
import TORdex.Lib.FiniteMap

/-!
# Task graphs

Tasks with dependencies between them, kept in both directions.  The order in which a hash map is traversed is
an argument.
-/

namespace TORdex

open Relation (ReflTransGen TransGen)

/-- A task with its cost. -/
structure Task where
  id : ℕ
  name : String
  cost : F64
  completed : Bool

/-- A directed acyclic graph of tasks for dependency-based scheduling. -/
structure TaskGraph where
  tasks : HashMap ℕ Task
  dependencies : HashMap ℕ (List ℕ)
  dependents : HashMap ℕ (List ℕ)
  nextId : ℕ

namespace TaskGraph

/-- Without tasks. -/
def new : TaskGraph := ⟨∅, ∅, ∅, 0⟩

/-- `map.entry(key).or_default()`, with more entries at its end. -/
def extendEntry (map : HashMap ℕ (List ℕ)) (key : ℕ) (entries : List ℕ) : HashMap ℕ (List ℕ) :=
  map.insert key ((map.lookup key).getD [] ++ entries)

/-- The graph with the new task, and its id. -/
def addTask (g : TaskGraph) (name : String) (cost : F64) : TaskGraph × ℕ :=
  let id := g.nextId
  ({ tasks := g.tasks.insert id ⟨id, name, cost, false⟩
     dependencies := extendEntry g.dependencies id []
     dependents := extendEntry g.dependents id []
     nextId := id + 1 }, id)

/-- The tasks that a task depends on. -/
def dependenciesOf (g : TaskGraph) (task : ℕ) : List ℕ := (g.dependencies.lookup task).getD []

/-- The tasks that depend on a task. -/
def dependentsOf (g : TaskGraph) (task : ℕ) : List ℕ := (g.dependents.lookup task).getD []

/-- The edges out of nodes that have not been visited. -/
def unvisitedEdges (g : TaskGraph) (visited : Finset ℕ) : ℕ :=
  ∑ node ∈ g.dependents.keys \ visited, (g.dependentsOf node).length

theorem unvisitedEdges_insert (g : TaskGraph) {visited : Finset ℕ} {node : ℕ} (new : node ∉ visited) :
    g.unvisitedEdges (insert node visited) + (g.dependentsOf node).length = g.unvisitedEdges visited := by
  unfold unvisitedEdges
  rw [Finset.sdiff_insert]
  by_cases key : node ∈ g.dependents.keys
  · exact Finset.sum_erase_add _ _ (Finset.mem_sdiff.2 ⟨key, new⟩)
  · have none : g.dependentsOf node = [] := by
      rw [Finmap.mem_keys, ← Finmap.lookup_eq_none] at key
      rw [dependentsOf, key]
      rfl
    rw [none, Finset.erase_eq_of_notMem fun h => key (Finset.mem_sdiff.1 h).1]
    rfl

/-- The loop of `creates_cycle`.  The top of the stack comes first. -/
def cycleLoop (g : TaskGraph) (target : ℕ) (visited : Finset ℕ) : List ℕ → Bool
  | [] => false
  | node :: stack =>
    if node = target then true
    else if node ∈ visited then cycleLoop g target visited stack
    else cycleLoop g target (insert node visited) ((g.dependentsOf node).reverse ++ stack)
  termination_by stack => g.unvisitedEdges visited + stack.length
  decreasing_by
    · simp
    · have := g.unvisitedEdges_insert (by assumption)
      simp only [List.length_append, List.length_reverse, List.length_cons]
      omega

/-- Some path of dependents leads from the one task to the other. -/
def createsCycle (g : TaskGraph) (start target : ℕ) : Bool := g.cycleLoop target ∅ [start]

/-- Add a dependency of two tasks, unless it closes a cycle. -/
def addDependency (g : TaskGraph) (task dependsOn : ℕ) : TaskGraph × Except String Unit :=
  if task ∉ g.tasks ∨ dependsOn ∉ g.tasks then (g, .error "task not found")
  else if g.createsCycle task dependsOn then (g, .error "dependency would create a cycle")
  else
    ({ g with
        dependencies := extendEntry g.dependencies task [dependsOn]
        dependents := extendEntry g.dependents dependsOn [task] }, .ok ())

/-- Mark a task as completed. -/
def markCompleted (g : TaskGraph) (task : ℕ) : TaskGraph :=
  match g.tasks.lookup task with
  | none => g
  | some t => { g with tasks := g.tasks.insert task { t with completed := true } }

/-- The task is completed, or there is none. -/
def isCompleted (g : TaskGraph) (task : ℕ) : Bool := (g.tasks.lookup task).all (·.completed)

/-- The tasks come in the order of the hash map, which is any. -/
def readyTasks (g : TaskGraph) (order : List ℕ) : List ℕ :=
  order.filter fun id =>
    (g.tasks.lookup id).any (fun task => !task.completed) && (g.dependenciesOf id).all g.isCompleted

/-- One dependent of a task that is done: its count goes down, and at zero it is queued. -/
def release (s : HashMap ℕ ℕ × List ℕ) (dep : ℕ) : HashMap ℕ ℕ × List ℕ :=
  match s.1.lookup dep with
  | none => s
  | some deg => (s.1.insert dep (deg - 1), if deg - 1 = 0 then dep :: s.2 else s.2)

/-- The loop of `topological_sort`.  The end of the queue comes first, and `none` would say that the fuel is
not enough. -/
def sortLoop (g : TaskGraph) : ℕ → HashMap ℕ ℕ → List ℕ → List ℕ → Option (List ℕ)
  | 0, _, _, _ => none
  | _ + 1, _, [], sorted => some sorted
  | fuel + 1, inDeg, task :: queue, sorted =>
    let (inDeg, queue) := (g.dependentsOf task).foldl release (inDeg, queue)
    sortLoop g fuel inDeg queue (sorted ++ [task])

/-- The number of dependencies of each task. -/
def inDegrees (g : TaskGraph) (order : List ℕ) : HashMap ℕ ℕ :=
  order.foldl (fun inDeg id => inDeg.insert id (g.dependenciesOf id).length) ∅

/-- `order` is the order of the tasks, and `degrees` that of the counts.  The first loop of the source, whose
counts nothing reads, is left out. -/
def topologicalSort (g : TaskGraph) (order degrees : List ℕ) : Option (List ℕ) :=
  let inDeg := g.inDegrees order
  let queue := (degrees.filter fun id => inDeg.lookup id = some 0).reverse
  g.sortLoop (g.tasks.keys.card + 1) inDeg queue []

/-- The ids of the tasks in order. -/
def ids (g : TaskGraph) : List ℕ := g.tasks.keys.sort (· ≤ ·)

/-! ## Runs -/

/-- The calls that change a graph. -/
inductive Call where
  | addTask (name : String) (cost : F64)
  | addDependency (task dependsOn : ℕ)
  | markCompleted (task : ℕ)

/-- The effect of a call. -/
def apply (g : TaskGraph) : Call → TaskGraph
  | .addTask name cost => (g.addTask name cost).1
  | .addDependency task dependsOn => (g.addDependency task dependsOn).1
  | .markCompleted task => g.markCompleted task

/-- A graph after some calls. -/
def run (calls : List Call) : TaskGraph := calls.foldl apply new

end TaskGraph

end TORdex
