import TORdex.Core.Json
import TORdex.Lib.BreadthFirst

/-!
# Graph traversal on the CPU

The breadth-first search of the accelerator starts from several nodes at once and stops at a depth.  Edges are
followed both ways, also between nodes that the graph does not declare.
-/

namespace TORdex.Gpu

open BreadthFirst

/-- The nodes and edges of a graph. -/
structure GraphData where
  nodes : List ℕ
  edges : List (ℕ × ℕ)

/-- `adj.entry(node).or_default()`, with more neighbours at its end. -/
def extendEntry (adj : HashMap ℕ (List ℕ)) (node : ℕ) (more : List ℕ) : HashMap ℕ (List ℕ) :=
  adj.insert node ((adj.lookup node).getD [] ++ more)

/-- The adjacency list. -/
def GraphData.adjacency (graph : GraphData) : HashMap ℕ (List ℕ) :=
  let adj := graph.nodes.foldl (fun adj node => extendEntry adj node []) ∅
  graph.edges.foldl (fun adj edge => extendEntry (extendEntry adj edge.1 [edge.2]) edge.2 [edge.1]) adj

/-- The variables of `traverse_bfs`. -/
structure Traversal where
  visited : Finset ℕ
  result : List ℕ
  queue : List (ℕ × ℕ)

/-- Take a neighbour up that has not been visited. -/
def Traversal.visit (d : ℕ) (s : Traversal) (next : ℕ) : Traversal :=
  if next ∈ s.visited then s
  else ⟨insert next s.visited, s.result ++ [next], s.queue ++ [(next, d + 1)]⟩

/-- A round of the loop on the queue. -/
def traverseRound (adj : HashMap ℕ (List ℕ)) (depth : ℕ) (s : Traversal) : Option (List ℕ ⊕ Traversal) :=
  match s.queue with
  | [] => some (.inl s.result)
  | (node, d) :: queue =>
    let s := { s with queue }
    if d ≥ depth then some (.inr s)
    else
      match adj.lookup node with
      | some neighbors => some (.inr (neighbors.foldl (Traversal.visit d) s))
      | none => some (.inr s)

/-- The nodes within a depth of the start. -/
def traverseBfs (fuel : ℕ) (graph : GraphData) (start : List ℕ) (depth : ℕ) : Option (List ℕ) :=
  let visited := start.foldl (fun visited s => insert s visited) ∅
  Loops.run (traverseRound graph.adjacency depth) fuel ⟨visited, [], start.map (·, 0)⟩

/-- `CpuAccelerator::graph_traverse`. -/
def graphTraverse (fuel : ℕ) (graph : GraphData) (start : List ℕ) (depth : ℕ) : Option (List ℕ) :=
  traverseBfs fuel graph start depth

/-! ## Edges -/

/-- The nodes are joined by an edge, in either direction. -/
def GraphData.Adjacent (graph : GraphData) (a b : ℕ) : Prop := (a, b) ∈ graph.edges ∨ (b, a) ∈ graph.edges

/-- The neighbours of a node. -/
def neighbors (adj : HashMap ℕ (List ℕ)) (node : ℕ) : List ℕ := (adj.lookup node).getD []

section Edges

variable {graph : GraphData} {adj : HashMap ℕ (List ℕ)} {a b node : ℕ} {more : List ℕ}

theorem mem_neighbors_extendEntry :
    b ∈ neighbors (extendEntry adj node more) a ↔ b ∈ neighbors adj a ∨ a = node ∧ b ∈ more := by
  unfold neighbors extendEntry
  by_cases same : a = node
  · rw [same, Finmap.lookup_insert, Option.getD_some, List.mem_append]
    exact or_congr_right (and_iff_right rfl).symm
  · rw [Finmap.lookup_insert_of_ne _ same]
    exact (or_iff_left fun h => same h.1).symm

theorem mem_neighbors_adjacency : b ∈ neighbors graph.adjacency a ↔ graph.Adjacent a b := by
  have declared : ∀ nodes : List ℕ, ∀ adj : HashMap ℕ (List ℕ),
      b ∈ neighbors (nodes.foldl (fun adj node => extendEntry adj node []) adj) a ↔ b ∈ neighbors adj a := by
    intro nodes
    induction nodes with
    | nil => exact fun _ => Iff.rfl
    | cons node nodes ih =>
      intro adj
      rw [List.foldl_cons, ih, mem_neighbors_extendEntry]
      exact or_iff_left fun h => absurd h.2 List.not_mem_nil
  have joined : ∀ edges : List (ℕ × ℕ), ∀ adj : HashMap ℕ (List ℕ),
      b ∈ neighbors (edges.foldl (fun adj edge =>
          extendEntry (extendEntry adj edge.1 [edge.2]) edge.2 [edge.1]) adj) a ↔
        b ∈ neighbors adj a ∨ (a, b) ∈ edges ∨ (b, a) ∈ edges := by
    intro edges
    induction edges with
    | nil => simp
    | cons edge edges ih =>
      intro adj
      obtain ⟨source, target⟩ := edge
      rw [List.foldl_cons, ih, mem_neighbors_extendEntry, mem_neighbors_extendEntry]
      simp only [List.mem_cons, Prod.mk.injEq]
      tauto
  have empty : b ∉ neighbors ∅ a := by simp [neighbors]
  unfold GraphData.adjacency GraphData.Adjacent
  rw [joined, declared, or_iff_right empty]

end Edges

/-! ## The traversal -/

/-- The variables of the traversal in a breadth-first search. -/
def Traversal.ofSearch (s : Search ℕ) : Traversal := ⟨s.visited, s.found.map Prod.fst, s.queue⟩

section Traverse

variable {adj : HashMap ℕ (List ℕ)} {depth : ℕ}

theorem foldl_visit (d : ℕ) (ws : List ℕ) (s : Search ℕ) :
    ws.foldl (Traversal.visit d) (.ofSearch s) = .ofSearch (ws.foldl (Search.discover (d + 1)) s) := by
  induction ws generalizing s with
  | nil => rfl
  | cons w ws ih =>
    rw [List.foldl_cons, List.foldl_cons, ← ih]
    congr 1
    unfold Traversal.visit Search.discover Traversal.ofSearch
    split_ifs
    · rfl
    · rw [List.map_append, List.map_singleton]

/-- The loop is a breadth-first search in which nodes below the depth are expanded. -/
theorem traverseRound_ofSearch (s : Search ℕ) : traverseRound adj depth (.ofSearch s) =
    (BreadthFirst.round (neighbors adj) (fun d => decide (d < depth)) s).map
      (Sum.map (fun last => last.found.map Prod.fst) Traversal.ofSearch) := by
  unfold traverseRound BreadthFirst.round
  have queue : (Traversal.ofSearch s).queue = s.queue := rfl
  rw [queue]
  cases s.queue with
  | nil => rfl
  | cons e queue =>
    obtain ⟨node, d⟩ := e
    have taken : ({ Traversal.ofSearch s with queue } : Traversal) =
        .ofSearch { s with done := s.done ++ [(node, d)], queue } := rfl
    dsimp only
    rw [taken, Search.expand]
    by_cases far : d ≥ depth
    · rw [if_pos far, if_neg (by simpa using far)]
      rfl
    · rw [if_neg far, if_pos (by simpa using far), neighbors]
      cases adj.lookup node with
      | none => rfl
      | some ws => exact congrArg (some ∘ Sum.inr) (foldl_visit d ws _)

theorem foldl_insert_eq (start : List ℕ) (visited : Finset ℕ) :
    start.foldl (fun visited s => insert s visited) visited = visited ∪ start.toFinset := by
  induction start generalizing visited with
  | nil => simp
  | cons a start ih =>
    rw [List.foldl_cons, ih, List.toFinset_cons, Finset.insert_union, Finset.union_insert]

end Traverse

/-- The nodes that a traversal may come to. -/
def GraphData.within (graph : GraphData) (start : List ℕ) : Finset ℕ :=
  start.toFinset ∪ (graph.edges.map Prod.fst).toFinset ∪ (graph.edges.map Prod.snd).toFinset

/-- `graph_traverse` returns, each once and in the order of their distances, the nodes beyond the start list
at a distance of at most `depth` from it. -/
theorem graphTraverse_exact (graph : GraphData) (start : List ℕ) (depth : ℕ) :
    ∃ result, (∃ n, ∀ fuel ≥ n, graphTraverse fuel graph start depth = some result) ∧ result.Nodup ∧
      (result.Pairwise fun a b => ∀ m n, IsDistance graph.Adjacent {v | v ∈ start} a m →
        IsDistance graph.Adjacent {v | v ∈ start} b n → m ≤ n) ∧
      ∀ v, v ∈ result ↔ v ∉ start ∧ ∃ n, 1 ≤ n ∧ n ≤ depth ∧
        IsDistance graph.Adjacent {v | v ∈ start} v n := by
  have adjacent : (fun u v => v ∈ neighbors graph.adjacency u) = graph.Adjacent := by
    funext u v
    exact propext mem_neighbors_adjacency
  have closed : ∀ u ∈ graph.within start, ∀ w ∈ neighbors graph.adjacency u, w ∈ graph.within start := by
    intro u _ w hw
    rw [GraphData.within, Finset.mem_union, Finset.mem_union, List.mem_toFinset, List.mem_toFinset,
      List.mem_toFinset]
    rcases mem_neighbors_adjacency.1 hw with edge | edge
    · exact .inr (List.mem_map_of_mem edge)
    · exact .inl (.inr (List.mem_map_of_mem edge))
  have known : ∀ u ∈ start, u ∈ graph.within start := fun u hu =>
    Finset.mem_union_left _ (Finset.mem_union_left _ (List.mem_toFinset.2 hu))
  obtain ⟨s, returns, shape, -, found⟩ :=
    search_returns (neighbors graph.adjacency) (fun d => decide (d < depth))
    start (fun m n le deep => by simp at deep ⊢; omega) (graph.within start) closed known
  rw [adjacent] at found
  have distance : ∀ e ∈ s.found, IsDistance graph.Adjacent {v | v ∈ start} e.1 e.2 :=
    adjacent ▸ shape.distance
  refine ⟨s.found.map Prod.fst, ?_, shape.nodup, ?_, fun v => ?_⟩
  · have first : Traversal.ofSearch (BreadthFirst.start start) =
        ⟨start.foldl (fun visited s => insert s visited) ∅, [], start.map (·, 0)⟩ := by
      rw [foldl_insert_eq, Finset.empty_union]
      rfl
    have returned := returns.map (@traverseRound_ofSearch graph.adjacency depth)
    rwa [first] at returned
  · have sorted : (s.found.map Prod.snd).Pairwise (· ≤ ·) := by
      refine shape.sorted.sublist ?_
      rw [shape.listed]
      exact (List.sublist_append_right _ _).map _
    rw [List.pairwise_map] at sorted ⊢
    refine sorted.imp_of_mem fun {a b} ha hb le m n hm hn => ?_
    rwa [hm.unique (distance a ha), hn.unique (distance b hb)]
  · constructor
    · intro hv
      obtain ⟨e, he, rfl⟩ := List.mem_map.1 hv
      obtain ⟨d, same, deep⟩ := shape.deep e he
      exact ⟨shape.fresh e he, e.2, by omega, by simp at deep; omega, distance e he⟩
    · rintro ⟨-, n, pos, le, hn⟩
      obtain ⟨d, rfl⟩ := Nat.exists_eq_add_of_le' pos
      exact List.mem_map_of_mem ((found v d).2 ⟨hn, by simp; omega⟩)

end TORdex.Gpu
