import Mathlib.Tactic.NormNum
import TORdex.Algorithms.AStar
import TORdex.Core.Primitives
import TORdex.Core.Processor

/-!
# Runs on edge lists

`AlgorithmEngine` reads a graph from lines of two nodes and a weight.  `run_dijkstra` reports the distances from
node 0, and `run_a_star` a path from there to the last node, with the difference of node numbers as heuristic.
Nothing relates weights to node numbers, so the heuristic can overestimate.

Weights are exact rationals, and machine integers wrap around.

* `a_star_agrees_iff`: when the two runs agree.
-/

namespace TORdex.AlgorithmEngine

open BestFirst WeightedWalks

/-! ## The text -/

section Text

variable {W : Type} [One W]

/-- An edge that a line describes: where it starts and ends, and its weight. -/
structure ListedEdge (W : Type) where
  source : ℕ
  target : ℕ
  weight : W

/-- `line.split(|c| c == ',' || c == ' ' || c == '\t')`, less the empty parts. -/
def edgeParts (line : List Char) : List (List Char) :=
  (line.splitOnP fun c => c == ',' || c == ' ' || c == '\t').filter fun part => !part.isEmpty

/-- The body of the loop over the lines in `edge_list_to_graph`; `parse` is `str::parse` for weights. -/
def listedEdge (parse : List Char → Option W) (line : List Char) : Option (ListedEdge W) :=
  let line := trimText line
  if line.isEmpty || line.head? = some '#' then none
  else
    match edgeParts line with
    | source :: target :: rest => some
        ⟨(parseUsize (String.ofList source)).getD 0, (parseUsize (String.ofList target)).getD 0,
          (rest.head?.bind parse).getD 1⟩
    | _ => none

/-- The edges of a text. -/
def listedEdges (parse : List Char → Option W) (text : List Char) : List (ListedEdge W) :=
  (textLines text).filterMap (listedEdge parse)

end Text

/-! ## The runs -/

/-- `add_edge`, where `from + 1` and `to + 1` wrap around. -/
def addListed {W : Type} (g : Graph W) (edge : ListedEdge W) : Graph W :=
  let nodeCount := max (max g.nodeCount ((edge.source + 1) % 2 ^ 64)) ((edge.target + 1) % 2 ^ 64)
  { g.addEdge edge.source edge.target edge.weight with nodeCount }

/-- The graph of a text. -/
def edgeListToGraph (parse : List Char → Option ℚ) (text : List Char) : Graph ℚ :=
  (listedEdges parse text).foldl addListed (.new true)

/-- The goal of `run_a_star`. -/
def goal (g : Graph ℚ) : ℕ := g.nodeCount - 1

/-- `(a as isize - b as isize).abs() as f64`. -/
def heuristic (a b : ℕ) : ℚ := (BitVec.ofNat 64 a - BitVec.ofNat 64 b).abs.toInt

/-- `dist_json`: the nodes and distances that are reported, in no order. -/
def distJson (distances : HashMap ℕ (ℚ × Option ℕ)) : Multiset (ℕ × ℚ) :=
  distances.entries.map fun entry => (entry.1, entry.2.1)

/-- The distances from node 0. -/
def runDijkstra (fuel : ℕ) (parse : List Char → Option ℚ) (text : List Char) :
    Option (Except ProcessorError (Multiset (ℕ × ℚ))) :=
  let graph := edgeListToGraph parse text
  if graph.nodeCount = 0 then some (.error (.processingFailed "no graph nodes found"))
  else (graph.dijkstra fuel 0).map fun distances => .ok (distJson distances)

/-- The distance and the path that are reported. -/
def pathOutcome : Option (ℚ × List ℕ) → Except ProcessorError (ℚ × List ℕ)
  | some (dist, path) => .ok (dist, path)
  | none => .error (.processingFailed "no path found")

/-- A path from node 0 to the last node, with its length. -/
def runAStar (fuel : ℕ) (parse : List Char → Option ℚ) (text : List Char) :
    Option (Except ProcessorError (ℚ × List ℕ)) :=
  let graph := edgeListToGraph parse text
  if graph.nodeCount = 0 then some (.error (.processingFailed "no graph nodes found"))
  else (graph.aStar fuel 0 (goal graph) heuristic).map pathOutcome

/-! ## The graph -/

section Graph

variable {parse : List Char → Option ℚ} {text : List Char} {g : Graph ℚ} {edges : List (ListedEdge ℚ)}

theorem nonNegative_foldl (directed : g.directed = true) (nonneg : g.NonNegative)
    (weights : ∀ edge ∈ edges, 0 ≤ edge.weight) : (edges.foldl addListed g).NonNegative := by
  induction edges generalizing g with
  | nil => exact nonneg
  | cons edge edges ih =>
    have still : (addListed g edge).directed = true := Graph.directed_addEdge.trans directed
    refine ih still (fun node e he => ?_) fun edge he => weights edge (List.mem_cons_of_mem _ he)
    have listed : e ∈ (g.addEdge edge.source edge.target edge.weight).neighbors node := he
    rw [Graph.neighbors_addEdge directed] at listed
    rcases List.mem_append.1 listed with old | new
    · exact nonneg node e old
    · split_ifs at new
      · rw [List.mem_singleton.1 new]
        exact weights edge List.mem_cons_self
      · cases new

theorem nonNegative_edgeListToGraph (weights : ∀ edge ∈ listedEdges parse text, 0 ≤ edge.weight) :
    (edgeListToGraph parse text).NonNegative :=
  nonNegative_foldl rfl (fun _ _ he => absurd he List.not_mem_nil) weights

end Graph

/-! ## Agreement -/

/-- The runs end; `run_a_star` fails exactly if `run_dijkstra` reports no distance for the goal, and else reports
the same distance and a path of that weight. -/
def Agrees (parse : List Char → Option ℚ) (text : List Char) : Prop :=
  let graph := edgeListToGraph parse text
  ∃ distances outcome,
    (∃ n, ∀ fuel ≥ n, runDijkstra fuel parse text = some (.ok distances)) ∧
    (∃ n, ∀ fuel ≥ n, runAStar fuel parse text = some outcome) ∧
    ((∃ error, outcome = .error error) ↔ ¬∃ dist, (goal graph, dist) ∈ distances) ∧
    ∀ dist path, outcome = .ok (dist, path) →
      (goal graph, dist) ∈ distances ∧ PathBetween graph.neighbors 0 (goal graph) path dist

section Agrees

variable {parse : List Char → Option ℚ} {text : List Char}

/-- What `run_dijkstra` reports. -/
theorem runDijkstra_distances (weights : ∀ edge ∈ listedEdges parse text, 0 ≤ edge.weight)
    (nodes : (edgeListToGraph parse text).nodeCount ≠ 0) :
    ∃ distances, (∃ n, ∀ fuel ≥ n, runDijkstra fuel parse text = some (.ok distances)) ∧
      ∀ node dist, (node, dist) ∈ distances ↔ IsDistance (edgeListToGraph parse text).neighbors 0 node dist := by
  obtain ⟨distances, ⟨n, returns⟩, shortest⟩ := Graph.dijkstra_distances (nonNegative_edgeListToGraph weights) 0
  refine ⟨distJson distances, ⟨n, fun fuel enough => ?_⟩, fun node dist => ⟨fun reported => ?_, fun best => ?_⟩⟩
  · simp only [runDijkstra, nodes, if_false, returns fuel enough, Option.map_some]
  · obtain ⟨⟨node, dist, link⟩, entry, ⟨⟩⟩ := Multiset.mem_map.1 reported
    exact (shortest node).2 dist link (Finmap.lookup_eq_some_iff.2 entry)
  · obtain ⟨⟨dist', link⟩, found⟩ := Finmap.mem_iff.1 ((shortest node).1.2 ⟨dist, best.1⟩)
    have best' := (shortest node).2 dist' link found
    obtain rfl : dist' = dist := (best'.2 dist best.1).antisymm (best.2 dist' best'.1)
    exact Multiset.mem_map.2 ⟨⟨node, dist', link⟩, Finmap.lookup_eq_some_iff.1 found, rfl⟩

theorem agrees_iff {distances : Multiset (ℕ × ℚ)} {outcome : Except ProcessorError (ℚ × List ℕ)} {m n : ℕ}
    (dijkstra : ∀ fuel ≥ m, runDijkstra fuel parse text = some (.ok distances))
    (aStar : ∀ fuel ≥ n, runAStar fuel parse text = some outcome) :
    Agrees parse text ↔
      ((∃ error, outcome = .error error) ↔ ¬∃ dist, (goal (edgeListToGraph parse text), dist) ∈ distances) ∧
      ∀ dist path, outcome = .ok (dist, path) → (goal (edgeListToGraph parse text), dist) ∈ distances ∧
        PathBetween (edgeListToGraph parse text).neighbors 0 (goal (edgeListToGraph parse text)) path dist := by
  refine ⟨?_, fun same => ⟨distances, outcome, ⟨m, dijkstra⟩, ⟨n, aStar⟩, same⟩⟩
  rintro ⟨distances', outcome', ⟨m', dijkstra'⟩, ⟨n', aStar'⟩, same⟩
  obtain rfl : distances = distances' := by
    simpa using (dijkstra _ (le_max_left m m')).symm.trans (dijkstra' _ (le_max_right m m'))
  obtain rfl : outcome = outcome' := by
    simpa using (aStar _ (le_max_left n n')).symm.trans (aStar' _ (le_max_right n n'))
  exact same

/-- The runs agree exactly if the last node is not reached, or if the heuristic favours a walk of least cost: it
comes before all walks that cost more, in the order in which the search goes. -/
theorem a_star_agrees_iff (weights : ∀ edge ∈ listedEdges parse text, 0 ≤ edge.weight)
    (nodes : (edgeListToGraph parse text).nodeCount ≠ 0) :
    Agrees parse text ↔
      (¬∃ x, Walk (edgeListToGraph parse text).neighbors 0 (goal (edgeListToGraph parse text)) x) ∨
      Favoured (edgeListToGraph parse text).neighbors
        (fun node => heuristic node (goal (edgeListToGraph parse text))) 0 (goal (edgeListToGraph parse text)) := by
  obtain ⟨distances, ⟨m, dijkstra⟩, reported⟩ := runDijkstra_distances weights nodes
  obtain ⟨result, ⟨n, returns⟩, unreached, reached⟩ := @Graph.aStar_any
    (edgeListToGraph parse text) heuristic 0 (goal (edgeListToGraph parse text)) (nonNegative_edgeListToGraph weights)
  have aStar : ∀ fuel ≥ n, runAStar fuel parse text = some (pathOutcome result) := fun fuel enough => by
    simp only [runAStar, nodes, if_false, returns fuel enough, Option.map_some]
  rw [agrees_iff dijkstra aStar]
  simp only [reported]
  cases result with
  | none =>
    have noWalk := unreached.1 rfl
    refine iff_of_true ⟨iff_of_true ⟨_, rfl⟩ ?_, nofun⟩ (.inl noWalk)
    exact fun ⟨dist, best⟩ => noWalk ⟨dist, best.1⟩
  | some pair =>
    obtain ⟨dist, path⟩ := pair
    obtain ⟨favoured, isPath⟩ := reached dist path rfl
    have walk : ¬¬∃ x, Walk (edgeListToGraph parse text).neighbors 0 (goal (edgeListToGraph parse text)) x :=
      fun none => nomatch unreached.2 none
    rw [or_iff_right walk, ← favoured]
    refine ⟨fun same => (same.2 dist path rfl).1, fun best => ⟨iff_of_false nofun (not_not.2 ⟨dist, best⟩), ?_⟩⟩
    rintro _ _ ⟨⟩
    exact ⟨best, isPath best⟩

end Agrees

/-- `str::parse` for weights that are digits only. -/
def parseDigits (s : List Char) : Option ℚ := (parseUsize (String.ofList s)).map fun n => (n : ℚ)

theorem a_star_agrees_chain :
    (∀ edge ∈ listedEdges parseDigits "0 1 4\n1 2 1".toList, 0 ≤ edge.weight) ∧
      (edgeListToGraph parseDigits "0 1 4\n1 2 1".toList).nodeCount ≠ 0 ∧
      (Agrees parseDigits "0 1 4\n1 2 1".toList ↔
        (¬∃ x, Walk (edgeListToGraph parseDigits "0 1 4\n1 2 1".toList).neighbors 0 2 x) ∨
          Favoured (edgeListToGraph parseDigits "0 1 4\n1 2 1".toList).neighbors
            (fun node => heuristic node 2) 0 2) := by
  have weights : ∀ edge ∈ listedEdges parseDigits "0 1 4\n1 2 1".toList, 0 ≤ edge.weight := by decide
  exact ⟨weights, by decide, a_star_agrees_iff weights (by decide)⟩

/-- The direct edge to 5 costs more than the way through 1, but the heuristic is 4 at 1. -/
theorem a_star_disagrees :
    (∀ edge ∈ listedEdges parseDigits "0 5 3\n0 1 1\n1 5 1".toList, 0 ≤ edge.weight) ∧
      (edgeListToGraph parseDigits "0 5 3\n0 1 1\n1 5 1".toList).nodeCount ≠ 0 ∧
      ¬Agrees parseDigits "0 5 3\n0 1 1\n1 5 1".toList := by
  have weights : ∀ edge ∈ listedEdges parseDigits "0 5 3\n0 1 1\n1 5 1".toList, 0 ≤ edge.weight := by
    decide
  have nodes : (edgeListToGraph parseDigits "0 5 3\n0 1 1\n1 5 1".toList).nodeCount ≠ 0 := by decide
  refine ⟨weights, nodes, fun agrees => ?_⟩
  obtain ⟨distances, ⟨m, dijkstra⟩, reported⟩ := runDijkstra_distances weights nodes
  have aStar : ∀ fuel ≥ 5, runAStar fuel parseDigits "0 5 3\n0 1 1\n1 5 1".toList = some (.ok (3, [0, 5])) :=
    fun fuel enough => by
      have ran : (edgeListToGraph parseDigits "0 5 3\n0 1 1\n1 5 1".toList).aStar 5 0
          (goal (edgeListToGraph parseDigits "0 5 3\n0 1 1\n1 5 1".toList)) heuristic = some (some (3, [0, 5])) := by
        decide +kernel
      simp only [runAStar, nodes, if_false, Graph.aStar_of_le ran enough, Option.map_some, pathOutcome]
  obtain ⟨same, -⟩ := ((agrees_iff dijkstra aStar).1 agrees).2 3 [0, 5] rfl
  have first : (1, (1 : ℚ)) ∈ (edgeListToGraph parseDigits "0 5 3\n0 1 1\n1 5 1".toList).neighbors 0 := by
    decide
  have second : (5, (1 : ℚ)) ∈ (edgeListToGraph parseDigits "0 5 3\n0 1 1\n1 5 1".toList).neighbors 1 := by
    decide
  have shorter := ((reported _ 3).1 same).2 _ ((Walk.here.snoc first).snoc second)
  exact absurd shorter (by norm_num)

end TORdex.AlgorithmEngine
