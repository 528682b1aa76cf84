import Mathlib.Data.Finset.Sort
import TORdex.Core.Json

/-!
# Graphs with adjacency lists

The keys of the adjacency map are the nodes that were added or have an outgoing edge.  A node may also appear
only as the target of an edge.
-/

namespace TORdex

/-- A directed or undirected graph, with weights in `W`. -/
structure Graph (W : Type) where
  adjacency : HashMap ℕ (List (ℕ × W))
  nodeCount : ℕ
  directed : Bool

namespace Graph

variable {W : Type}

/-- Without nodes. -/
def new (directed : Bool) : Graph W := ⟨∅, 0, directed⟩

/-- The edges of a node. -/
def neighbors (g : Graph W) (node : ℕ) : List (ℕ × W) := (g.adjacency.lookup node).getD []

/-- `self.adjacency.entry(node).or_default()`, with more entries at its end. -/
def extendEntry (g : Graph W) (node : ℕ) (edges : List (ℕ × W)) : Graph W :=
  { g with adjacency := g.adjacency.insert node (g.neighbors node ++ edges) }

/-- Add an edge, in both directions unless the graph is directed. -/
def addEdge (g : Graph W) (source target : ℕ) (weight : W) : Graph W :=
  let g := { g with nodeCount := max (max g.nodeCount (source + 1)) (target + 1) }
  let g := g.extendEntry source [(target, weight)]
  if g.directed then g else g.extendEntry target [(source, weight)]

/-- Add a node. -/
def addNode (g : Graph W) (node : ℕ) : Graph W :=
  { g with nodeCount := max g.nodeCount (node + 1) }.extendEntry node []

/-- The nodes in order. -/
def nodes (g : Graph W) : List ℕ := g.adjacency.keys.sort (· ≤ ·)

/-- The loop of `transpose` on one entry of the adjacency map. -/
def transposeEntry (g transposed : Graph W) (node : ℕ) : Graph W :=
  (g.neighbors node).foldl (fun transposed edge => transposed.addEdge edge.1 node edge.2)
    (transposed.addNode node)

/-- The keys of the adjacency map come in the order of the hash map, which is any. -/
def transpose (g : Graph W) (keys : List ℕ) : Graph W := keys.foldl g.transposeEntry (new true)

/-! ## Edges -/

/-- There is an edge from one node to the other. -/
def Edge (g : Graph W) (a b : ℕ) : Prop := b ∈ (g.neighbors a).map Prod.fst

/-- The nodes that appear in the graph. -/
def appearing (g : Graph W) : Finset ℕ :=
  g.adjacency.keys ∪ g.adjacency.keys.biUnion fun a => ((g.neighbors a).map Prod.fst).toFinset

section Edges

variable {g : Graph W} {a b node source target : ℕ} {weight : W} {edges : List (ℕ × W)}

theorem mem_keys_of_edge (h : g.Edge a b) : a ∈ g.adjacency.keys := by
  rw [Finmap.mem_keys, ← Finmap.lookup_isSome]
  unfold Edge neighbors at h
  cases hl : g.adjacency.lookup a with
  | none => simp [hl] at h
  | some entry => rfl

theorem mem_appearing : a ∈ g.appearing ↔ a ∈ g.adjacency.keys ∨ ∃ b, g.Edge b a := by
  unfold appearing
  rw [Finset.mem_union, Finset.mem_biUnion]
  refine or_congr_right ⟨fun ⟨b, _, h⟩ => ⟨b, List.mem_toFinset.1 h⟩, fun ⟨b, h⟩ => ?_⟩
  exact ⟨b, mem_keys_of_edge h, List.mem_toFinset.2 h⟩

theorem appearing_of_edge (h : g.Edge a b) : b ∈ g.appearing := mem_appearing.2 (.inr ⟨a, h⟩)

theorem appearing_of_edge_left (h : g.Edge a b) : a ∈ g.appearing :=
  mem_appearing.2 (.inl (mem_keys_of_edge h))

@[simp] theorem mem_nodes : a ∈ g.nodes ↔ a ∈ g.adjacency.keys := Finset.mem_sort _

theorem neighbors_extendEntry : (g.extendEntry node edges).neighbors a =
    g.neighbors a ++ if a = node then edges else [] := by
  unfold extendEntry
  split_ifs with h
  · rw [neighbors, h, Finmap.lookup_insert, Option.getD_some]
  · rw [neighbors, Finmap.lookup_insert_of_ne _ h, List.append_nil, neighbors]

theorem edge_extendEntry : (g.extendEntry node edges).Edge a b ↔
    g.Edge a b ∨ a = node ∧ b ∈ edges.map Prod.fst := by
  unfold Edge
  rw [neighbors_extendEntry]
  split_ifs with h <;> simp [h]

theorem edge_addNode : (g.addNode node).Edge a b ↔ g.Edge a b := by
  unfold addNode
  rw [edge_extendEntry]
  simp [Edge, neighbors]

/-- An undirected edge is in both lists. -/
theorem edge_addEdge : (g.addEdge source target weight).Edge a b ↔
    g.Edge a b ∨ a = source ∧ b = target ∨ g.directed = false ∧ a = target ∧ b = source := by
  have first : ∀ n, (({ g with nodeCount := n } : Graph W).extendEntry source [(target, weight)]).Edge a b ↔
      g.Edge a b ∨ a = source ∧ b = target := fun n => by
    rw [edge_extendEntry]
    simp [Edge, neighbors]
  unfold addEdge
  dsimp only
  split_ifs with hd
  · have directed : g.directed = true := hd
    rw [first]
    simp [directed]
  · have undirected : g.directed = false := Bool.eq_false_iff.2 hd
    rw [edge_extendEntry, first]
    simp [undirected, or_assoc]

theorem neighbors_addEdge (directed : g.directed = true) : (g.addEdge source target weight).neighbors a =
    g.neighbors a ++ if a = source then [(target, weight)] else [] := by
  have one : g.addEdge source target weight =
      { g with nodeCount := max (max g.nodeCount (source + 1)) (target + 1) }.extendEntry source
        [(target, weight)] := if_pos directed
  rw [one, neighbors_extendEntry]
  rfl

theorem directed_addEdge : (g.addEdge source target weight).directed = g.directed := by
  unfold addEdge
  dsimp only
  split_ifs <;> rfl

end Edges

/-! ## Transposition -/

section Transpose

variable {g t : Graph W} {a b node : ℕ} {keys : List ℕ}

/-- Edges of a directed graph from the neighbours of a node. -/
theorem edge_foldl_addEdge (node : ℕ) (directed : t.directed = true) (edges : List (ℕ × W)) :
    ((edges.foldl (fun t edge => t.addEdge edge.1 node edge.2) t).Edge a b ↔
      t.Edge a b ∨ a ∈ edges.map Prod.fst ∧ b = node) ∧
    (edges.foldl (fun t edge => t.addEdge edge.1 node edge.2) t).directed = true := by
  induction edges generalizing t with
  | nil => exact ⟨by simp, directed⟩
  | cons edge edges ih =>
    obtain ⟨rest, still⟩ := ih (t := t.addEdge edge.1 node edge.2) (directed_addEdge.trans directed)
    refine ⟨?_, still⟩
    rw [List.foldl_cons, rest, edge_addEdge, List.map_cons, List.mem_cons, directed, or_and_right]
    simp [or_assoc]

theorem edge_transposeEntry (node : ℕ) (directed : t.directed = true) :
    ((g.transposeEntry t node).Edge a b ↔ t.Edge a b ∨ g.Edge b a ∧ b = node) ∧
      (g.transposeEntry t node).directed = true := by
  obtain ⟨edges, still⟩ := edge_foldl_addEdge (t := t.addNode node) (a := a) (b := b) node directed
    (g.neighbors node)
  refine ⟨?_, still⟩
  rw [transposeEntry, edges, edge_addNode]
  refine or_congr_right (and_congr_left fun same => ?_)
  rw [same, Edge]

theorem edge_foldl_transposeEntry (directed : t.directed = true) (keys : List ℕ) :
    (keys.foldl g.transposeEntry t).Edge a b ↔ t.Edge a b ∨ g.Edge b a ∧ b ∈ keys := by
  induction keys generalizing t with
  | nil => simp
  | cons key keys ih =>
    obtain ⟨entry, still⟩ := edge_transposeEntry (g := g) (a := a) (b := b) key directed
    rw [List.foldl_cons, ih still, entry, List.mem_cons, or_assoc, ← and_or_left]

/-- The transposed graph has the edges the other way, in whatever order the entries come. -/
theorem edge_transpose (h : keys.Perm g.nodes) : (g.transpose keys).Edge a b ↔ g.Edge b a := by
  rw [transpose, edge_foldl_transposeEntry rfl]
  have none : ¬ (new true : Graph W).Edge a b := by simp [Edge, neighbors, new]
  rw [or_iff_right none]
  exact and_iff_left_of_imp fun edge => h.mem_iff.2 (mem_nodes.2 (mem_keys_of_edge edge))

end Transpose

/-! ## Built graphs -/

/-- The calls that build a graph. -/
inductive Call (W : Type) where
  | addNode (node : ℕ)
  | addEdge (source target : ℕ) (weight : W)

/-- The effect of a call. -/
def apply (g : Graph W) : Call W → Graph W
  | .addNode node => g.addNode node
  | .addEdge source target weight => g.addEdge source target weight

/-- A graph after some calls. -/
def build (directed : Bool) (calls : List (Call W)) : Graph W := calls.foldl apply (new directed)

/-- The calls that make an edge from `a` to `b`. -/
def Call.connects (directed : Bool) (a b : ℕ) : Call W → Prop
  | .addNode _ => False
  | .addEdge source target _ => a = source ∧ b = target ∨ directed = false ∧ a = target ∧ b = source

theorem edge_build {directed : Bool} {calls : List (Call W)} {a b : ℕ} :
    (build directed calls).Edge a b ↔ ∃ call ∈ calls, call.connects directed a b := by
  have steps : ∀ g : Graph W, g.directed = directed →
      ((calls.foldl apply g).Edge a b ↔ g.Edge a b ∨ ∃ call ∈ calls, call.connects directed a b) := by
    induction calls with
    | nil => simp
    | cons call calls ih =>
      intro g hd
      have one : (g.apply call).Edge a b ↔ g.Edge a b ∨ call.connects directed a b := by
        cases call with
        | addNode node => simp [apply, Call.connects, edge_addNode]
        | addEdge source target weight => rw [apply, edge_addEdge, hd, Call.connects]
      have kept : (g.apply call).directed = directed := by
        cases call with
        | addNode node => exact hd
        | addEdge source target weight => exact directed_addEdge.trans hd
      rw [List.foldl_cons, ih _ kept, one, or_assoc]
      simp
  rw [build, steps _ rfl]
  simp [Edge, neighbors, new]

/-- The nodes that a call names. -/
def Call.mentions (a : ℕ) : Call W → Prop
  | .addNode node => a = node
  | .addEdge source target _ => a = source ∨ a = target

theorem mem_keys_extendEntry {g : Graph W} {node a : ℕ} {edges : List (ℕ × W)} :
    a ∈ (g.extendEntry node edges).adjacency.keys ↔ a = node ∨ a ∈ g.adjacency.keys := by
  rw [Finmap.mem_keys, extendEntry, Finmap.mem_insert, Finmap.mem_keys]

theorem mem_appearing_extendEntry {g : Graph W} {node a : ℕ} {edges : List (ℕ × W)} :
    a ∈ (g.extendEntry node edges).appearing ↔
      a ∈ g.appearing ∨ a = node ∨ a ∈ edges.map Prod.fst := by
  simp only [mem_appearing, mem_keys_extendEntry, edge_extendEntry, exists_or]
  have target : (∃ b, b = node ∧ a ∈ edges.map Prod.fst) ↔ a ∈ edges.map Prod.fst := by simp
  rw [target]
  tauto

theorem appearing_apply {g : Graph W} {call : Call W} {a : ℕ} :
    a ∈ (g.apply call).appearing ↔ a ∈ g.appearing ∨ call.mentions a := by
  cases call with
  | addNode node =>
    rw [apply, addNode, mem_appearing_extendEntry]
    simp [Call.mentions, appearing, neighbors]
  | addEdge source target weight =>
    rw [apply, addEdge, Call.mentions]
    have counted : ∀ n, ({ g with nodeCount := n } : Graph W).appearing = g.appearing := fun _ => rfl
    split_ifs
    · rw [mem_appearing_extendEntry, counted]
      simp
    · rw [mem_appearing_extendEntry, mem_appearing_extendEntry, counted]
      simp only [List.map_cons, List.map_nil, List.mem_singleton]
      tauto

theorem appearing_build {directed : Bool} {calls : List (Call W)} {a : ℕ} :
    a ∈ (build directed calls).appearing ↔ ∃ call ∈ calls, call.mentions a := by
  have steps : ∀ g : Graph W, a ∈ (calls.foldl apply g).appearing ↔
      a ∈ g.appearing ∨ ∃ call ∈ calls, call.mentions a := by
    induction calls with
    | nil => simp
    | cons call calls ih =>
      intro g
      rw [List.foldl_cons, ih, appearing_apply, or_assoc]
      simp
  rw [build, steps]
  simp [appearing, new]

end Graph

end TORdex
