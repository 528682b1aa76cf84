import TORdex.Algorithms.Tarjan

/-!
# The strongly connected components of a built graph

Both algorithms return the classes of mutual reachability of the nodes that the calls name, also of those that
are only targets of edges.
-/

namespace TORdex

open Reachability

namespace Graph

variable {W : Type}

/-- Some call makes an edge from `a` to `b`. -/
def Connected (directed : Bool) (calls : List (Call W)) (a b : ℕ) : Prop :=
  ∃ call ∈ calls, call.connects directed a b

/-- The nodes that the calls name. -/
def mentioned (calls : List (Call W)) : Set ℕ := {a | ∃ call ∈ calls, call.mentions a}

theorem sortedClasses_build {directed : Bool} {calls : List (Call W)} {sccs : List (List ℕ)}
    (h : SortedClasses (build directed calls).Edge {x | x ∈ (build directed calls).appearing} sccs) :
    SortedClasses (Connected directed calls) (mentioned calls) sccs := by
  have edges : (build directed calls).Edge = Connected directed calls := by
    funext a b
    exact propext edge_build
  have nodes : {x | x ∈ (build directed calls).appearing} = mentioned calls := by
    ext a
    exact appearing_build
  rwa [edges, nodes] at h

/-- The two algorithms return the same components, up to their order: the sorted classes of mutual reachability of
all nodes that appear in the graph. -/
theorem tarjanScc_perm_kosarajuScc (directed : Bool) (calls : List (Call W)) (keys : List ℕ)
    (h : keys.Perm (build directed calls).nodes) :
    ∃ tarjan kosaraju, (build directed calls).tarjanScc = some tarjan ∧
      (build directed calls).kosarajuScc keys = some kosaraju ∧ tarjan.Perm kosaraju ∧
      SortedClasses (Connected directed calls) (mentioned calls) tarjan := by
  obtain ⟨tarjan, runTarjan, tarjanClasses⟩ := tarjanScc_spec (build directed calls)
  obtain ⟨kosaraju, runKosaraju, kosarajuClasses⟩ := kosarajuScc_spec (build directed calls) h
  exact ⟨tarjan, kosaraju, runTarjan, runKosaraju, tarjanClasses.perm kosarajuClasses,
    sortedClasses_build tarjanClasses⟩

/-- A cycle of two nodes, and an edge to a node that has no entry of its own. -/
def cycleWithTarget : List (Call ℕ) := [.addEdge 0 1 1, .addEdge 1 0 1, .addEdge 1 2 1]

theorem tarjanScc_perm_kosarajuScc_cycle : ∃ tarjan kosaraju,
    (build true cycleWithTarget).tarjanScc = some tarjan ∧
      (build true cycleWithTarget).kosarajuScc (build true cycleWithTarget).nodes = some kosaraju ∧
      tarjan.Perm kosaraju ∧
      SortedClasses (Connected true cycleWithTarget) (mentioned cycleWithTarget) tarjan :=
  tarjanScc_perm_kosarajuScc true cycleWithTarget (build true cycleWithTarget).nodes (List.Perm.refl _)

end Graph

end TORdex
