import Mathlib.Algebra.Group.Submonoid.Pointwise
import Mathlib.Algebra.Order.Ring.Rat
import Mathlib.Data.Prod.Lex
import Mathlib.Data.Set.Finite.Lattice
import TORdex.Algorithms.Graph
import TORdex.Lib.FiniteMap
import TORdex.Lib.LabelCorrecting
import TORdex.Lib.Loops

/-!
# Dijkstra's algorithm

Weights are exact rationals.  The loops run with fuel; there is no result when it is used up.

* `dijkstra_distances`: the returned map has the distances of the nodes that can be reached.
* `shortestPath_shortest`: the links in it lead back along a path of that cost.
-/

namespace TORdex.Graph

open FiniteMap LabelCorrecting WeightedWalks

/-! ## The model -/

/-- `BinaryHeap::pop` on entries `Reverse((priority, node))`: the least pair. -/
def pop (heap : List (ℚ × ℕ)) : Option ((ℚ × ℕ) × List (ℚ × ℕ)) :=
  (heap.map toLex).min?.map fun least => (ofLex least, heap.erase (ofLex least))

/-- The variables of `dijkstra`. -/
structure Dijkstra where
  distances : HashMap ℕ (ℚ × Option ℕ)
  heap : List (ℚ × ℕ)

/-- The body of the loop over the neighbours of a node. -/
def Dijkstra.relax (node : ℕ) (dist : ℚ) (s : Dijkstra) (edge : ℕ × ℚ) : Dijkstra :=
  let newDist := dist + edge.2
  let isShorter := match s.distances.lookup edge.1 with
    | none => true
    | some (d, _) => decide (newDist < d)
  if isShorter then ⟨s.distances.insert edge.1 (newDist, some node), (newDist, edge.1) :: s.heap⟩ else s

/-- A round of the loop of `dijkstra`. -/
def dijkstraRound (g : Graph ℚ) (s : Dijkstra) : Option (HashMap ℕ (ℚ × Option ℕ) ⊕ Dijkstra) :=
  match pop s.heap with
  | none => some (.inl s.distances)
  | some ((dist, node), heap) =>
    let s := { s with heap }
    let stale := match s.distances.lookup node with
      | none => false
      | some (best, _) => decide (best < dist)
    if stale then some (.inr s) else some (.inr ((g.neighbors node).foldl (Dijkstra.relax node dist) s))

/-- The distances of the nodes, with their predecessors. -/
def dijkstra (fuel : ℕ) (g : Graph ℚ) (start : ℕ) : Option (HashMap ℕ (ℚ × Option ℕ)) :=
  Loops.run g.dijkstraRound fuel ⟨Finmap.insert start (0, none) ∅, [(0, start)]⟩

/-- A round of the loops that follow links back, which may have an early end at some nodes.  The path has the
node that was pushed last at its front. -/
def backRound (link : ℕ → Option ℕ) (stop : ℕ → Bool) :
    ℕ × List ℕ → Option (List ℕ ⊕ ℕ × List ℕ)
  | (node, path) => match link node with
    | none => some (.inl path)
    | some prev => if stop prev then some (.inl (prev :: path)) else some (.inr (prev, prev :: path))

/-- A shortest path with its length, if there is one. -/
def shortestPath (fuel : ℕ) (g : Graph ℚ) (start goal : ℕ) : Option (Option (ℚ × List ℕ)) := do
  let result ← g.dijkstra fuel start
  match result.lookup goal with
  | none => return none
  | some (dist, _) =>
    let link := fun node => (result.lookup node).bind Prod.snd
    let path ← Loops.run (backRound link (· == start)) fuel (goal, [goal])
    if path.head? ≠ some start then return none else return some (dist, path)

/-! ## The heap -/

section Heap

variable {heap rest : List (ℚ × ℕ)} {e : ℚ × ℕ}

theorem pop_eq_none : pop heap = none ↔ heap = [] := by
  rw [pop, Option.map_eq_none_iff, List.min?_eq_none_iff, List.map_eq_nil_iff]

theorem pop_eq_some (h : pop heap = some (e, rest)) :
    e ∈ heap ∧ (∀ e' ∈ heap, toLex e ≤ toLex e') ∧
      (rest : Multiset (ℚ × ℕ)) = (heap : Multiset (ℚ × ℕ)).erase e := by
  obtain ⟨least, hl, eq⟩ := Option.map_eq_some_iff.1 h
  obtain ⟨rfl, rfl⟩ := Prod.mk.inj eq
  obtain ⟨mem, le⟩ := List.min?_eq_some_iff.1 hl
  obtain ⟨e, he, rfl⟩ := List.mem_map.1 mem
  refine ⟨he, fun e' he' => le _ (List.mem_map_of_mem he'), ?_⟩
  have cons : (heap : Multiset (ℚ × ℕ)) = e ::ₘ ↑(heap.erase e) := Multiset.coe_eq_coe.2 (List.perm_cons_erase he)
  rw [cons]
  exact (Multiset.erase_cons_head e _).symm

/-- A least entry has the least priority. -/
theorem priority_le {e' : ℚ × ℕ} (le : toLex e ≤ toLex e') : e.1 ≤ e'.1 := by
  rcases Prod.Lex.le_iff.1 le with less | ⟨same, -⟩
  · exact less.le
  · exact same.le

end Heap

/-! ## Steps of a search -/

section Weights

variable {g : Graph ℚ}

/-- No weight is negative. -/
def NonNegative (g : Graph ℚ) : Prop := ∀ node, ∀ edge ∈ g.neighbors node, 0 ≤ edge.2

/-- The weights of the edges. -/
def weights (g : Graph ℚ) : Set ℚ := {weight | ∃ node, ∃ edge ∈ g.neighbors node, edge.2 = weight}

theorem finite_weights (g : Graph ℚ) : g.weights.Finite := by
  refine Set.Finite.subset (g.adjacency.keys.biUnion fun node =>
    ((g.neighbors node).map Prod.snd).toFinset).finite_toSet ?_
  rintro weight ⟨node, edge, he, rfl⟩
  have key : node ∈ g.adjacency.keys := mem_keys_of_edge (List.mem_map_of_mem he)
  exact Finset.mem_biUnion.2 ⟨node, key, List.mem_toFinset.2 (List.mem_map_of_mem he)⟩

/-- There is no endless descent among the sums of finitely many weights that are not negative. -/
theorem isWF_sums (nonneg : g.NonNegative) : (AddSubmonoid.closure g.weights : Set ℚ).IsWF := by
  refine (Set.IsPWO.addSubmonoid_closure ?_ g.finite_weights.isPWO).isWF
  rintro weight ⟨node, edge, he, rfl⟩
  exact nonneg node edge he

/-- One step of a search leads down. -/
def Descends (g : Graph ℚ) (s s' : Search ℕ ℚ) : Prop :=
  down (AddSubmonoid.closure g.weights) (size g.appearing s) (size g.appearing s')

theorem wellFounded_descends (nonneg : g.NonNegative) {S : Type} (search : S → Search ℕ ℚ) :
    WellFounded fun s s' => g.Descends (search s) (search s') :=
  InvImage.wf (fun s => size g.appearing (search s)) (wellFounded_down (isWF_sums nonneg))

/-- Expanding the node of an entry keeps the invariant and leads down. -/
theorem expand_descends (nonneg : g.NonNegative) {h : ℕ → ℚ} {start : ℕ} {final : ℕ → Prop} {s : Search ℕ ℚ}
    (inv : Inv g.neighbors h start final s) {e : ℚ × ℕ} (entry : e ∈ s.heap) (open_ : ¬final e.2) {d : ℚ}
    (labelled : s.label e.2 = some d) :
    Inv g.neighbors h start final ((s.take e).expand h e.2 d (g.neighbors e.2)) ∧
      g.Descends ((s.take e).expand h e.2 d (g.neighbors e.2)) s := by
  have after := inv.expand nonneg open_ labelled
  refine ⟨after, down_expand entry inv.sound after.sound (fun node edge he => ?_) fun edge he => ?_⟩
  · exact AddSubmonoid.subset_closure ⟨node, edge, he, rfl⟩
  · exact appearing_of_edge (List.mem_map_of_mem he)

end Weights

/-! ## The way back -/

/-- The loop that follows links back ends, with a path from the start along edges. -/
theorem returns_back {g : Graph ℚ} {h : ℕ → ℚ} {start goal : ℕ} {s : Search ℕ ℚ} {stop : ℕ → Bool} {x : ℚ}
    (hs : Sound g.neighbors h start s) (early : ∀ node, stop node = true → node = start) {node : ℕ}
    (rooted : Rooted s.parent start node) :
    ∀ path, Traced g.neighbors s goal x node path → ∃ path', Traced g.neighbors s goal x start path' ∧
      Loops.Returns (backRound s.parent stop) (node, path) path' := by
  induction rooted with
  | root =>
    intro path traced
    refine ⟨path, traced, Loops.returns_of_inl ?_⟩
    simp only [backRound, hs.root]
  | @link node prev link _ ih =>
    intro path traced
    have further : Traced g.neighbors s goal x prev (prev :: path) := traced.link hs link
    cases there : stop prev with
    | true =>
      obtain rfl : prev = start := early prev there
      refine ⟨prev :: path, further, Loops.returns_of_inl ?_⟩
      simp only [backRound, link, there, if_true]
    | false =>
      obtain ⟨path', traced', returns⟩ := ih (prev :: path) further
      refine ⟨path', traced', returns.of_inr ?_⟩
      simp only [backRound, link, there, Bool.false_eq_true, if_false]

/-- From a node whose label is its distance, the loop that follows links back ends with a path of that cost. -/
theorem exists_path {g : Graph ℚ} {h : ℕ → ℚ} {start goal : ℕ} {s : Search ℕ ℚ} (stop : ℕ → Bool) {x : ℚ}
    (hs : Sound g.neighbors h start s) (early : ∀ node, stop node = true → node = start)
    (labelled : s.label goal = some x) (best : IsDistance g.neighbors start goal x) :
    ∃ path, PathBetween g.neighbors start goal path x ∧
      Loops.Returns (backRound s.parent stop) (goal, [goal]) path := by
  obtain ⟨path, traced, returns⟩ :=
    returns_back hs early (hs.rooted goal x labelled) [goal] (traced_goal labelled)
  exact ⟨path, traced.path hs best, returns⟩

/-! ## Distances -/

namespace Dijkstra

/-- The labels, the links and the heap. -/
def search (s : Dijkstra) : Search ℕ ℚ where
  label node := (s.distances.lookup node).map Prod.fst
  parent node := (s.distances.lookup node).bind Prod.snd
  heap := s.heap

variable {g : Graph ℚ} {start node : ℕ} {dist : ℚ} {s : Dijkstra}

theorem search_start (start : ℕ) :
    (Dijkstra.mk (Finmap.insert start (0, none) ∅) [(0, start)]).search = .start (fun _ => 0) start := by
  unfold search Search.start
  congr 1
  · exact (comp_lookup_insert (Option.map Prod.fst) ∅ start (0, none)).trans (by simp)
  · refine (comp_lookup_insert (Option.bind · Prod.snd) ∅ start (0, none)).trans ?_
    simp only [Finmap.lookup_empty, Option.bind_none]
    exact Function.update_eq_self start fun _ => none

theorem search_relax (edge : ℕ × ℚ) :
    (s.relax node dist edge).search = s.search.relax (fun _ => 0) node dist edge := by
  have shorter : (∀ old ∈ s.search.label edge.1, dist + edge.2 < old) ↔
      (match s.distances.lookup edge.1 with
        | none => true
        | some (d, _) => decide (dist + edge.2 < d)) = true := by
    have label : s.search.label edge.1 = (s.distances.lookup edge.1).map Prod.fst := rfl
    rw [label]
    cases s.distances.lookup edge.1 <;> simp
  unfold relax Search.relax
  simp only [shorter]
  split_ifs
  · unfold search Search.improve
    congr 1
    · exact comp_lookup_insert (Option.map Prod.fst) s.distances edge.1 (dist + edge.2, some node)
    · exact comp_lookup_insert (Option.bind · Prod.snd) s.distances edge.1 (dist + edge.2, some node)
    · rw [add_zero, Multiset.cons_coe]
  · rfl

theorem search_foldl (edges : List (ℕ × ℚ)) :
    (edges.foldl (relax node dist) s).search = s.search.expand (fun _ => 0) node dist edges := by
  induction edges generalizing s with
  | nil => rfl
  | cons edge edges ih => exact ih.trans (congrArg (Search.expand _ node dist edges) (search_relax edge))

/-- The invariant of the loop: the priority of an entry is the label, and every node may be expanded. -/
def Valid (g : Graph ℚ) (start : ℕ) (s : Dijkstra) : Prop :=
  Inv g.neighbors (fun _ => 0) start (fun _ => False) s.search

theorem valid_start (g : Graph ℚ) (start : ℕ) : Valid g start ⟨Finmap.insert start (0, none) ∅, [(0, start)]⟩ := by
  rw [Valid, search_start]
  exact inv_start ..

/-- A round ends the loop when the heap is empty; else it keeps the invariant and leads down. -/
theorem round (nonneg : g.NonNegative) (inv : Valid g start s) :
    s.search.heap = 0 ∧ g.dijkstraRound s = some (.inl s.distances) ∨
      ∃ next, g.dijkstraRound s = some (.inr next) ∧ Valid g start next ∧ g.Descends next.search s.search := by
  unfold dijkstraRound
  cases popped : pop s.heap with
  | none => exact .inl ⟨congrArg _ (pop_eq_none.1 popped), rfl⟩
  | some taken =>
    obtain ⟨⟨dist, node⟩, heap⟩ := taken
    obtain ⟨entry, -, rest⟩ := pop_eq_some popped
    have entry' : (dist, node) ∈ s.search.heap := entry
    have take : (Dijkstra.mk s.distances heap).search = s.search.take (dist, node) :=
      congrArg (Search.mk s.search.label s.search.parent) rest
    obtain ⟨best, labelled, key⟩ := inv.sound.keys _ entry'
    rw [add_zero] at key
    obtain ⟨⟨_, link⟩, found, rfl⟩ := Option.map_eq_some_iff.1 labelled
    refine .inr ?_
    simp only [found, decide_eq_true_eq]
    split_ifs with stale
    · refine ⟨_, rfl, ?_⟩
      rw [Valid, take]
      exact ⟨inv.drop labelled (by rwa [add_zero]), down_take entry'⟩
    · obtain rfl : _ = dist := key.antisymm (not_lt.1 stale)
      refine ⟨_, rfl, ?_⟩
      rw [Valid, search_foldl, take]
      exact expand_descends nonneg inv entry' not_false labelled

end Dijkstra

section Results

variable {g : Graph ℚ} (nonneg : g.NonNegative) (start goal : ℕ)
include nonneg

/-- The loop ends, with an empty heap. -/
theorem dijkstra_returns : ∃ last, Dijkstra.Valid g start last ∧ last.search.heap = 0 ∧
    ∃ n, ∀ fuel ≥ n, g.dijkstra fuel start = some last.distances := by
  obtain ⟨last, result, inv, ends, returns⟩ :=
    Loops.exists_returns (wellFounded_descends nonneg Dijkstra.search)
      (fun s inv => (Dijkstra.round nonneg inv).imp_left fun ends => ⟨_, ends.2⟩) _ (Dijkstra.valid_start g start)
  rcases Dijkstra.round nonneg inv with ⟨empty, ends'⟩ | ⟨next, goesOn, -⟩
  · obtain rfl : last.distances = result := by simpa [ends'] using ends
    exact ⟨last, inv, empty, returns⟩
  · rw [goesOn] at ends
    cases ends

/-- `dijkstra` returns the nodes that can be reached, with their distances. -/
theorem dijkstra_distances : ∃ distances, (∃ n, ∀ fuel ≥ n, g.dijkstra fuel start = some distances) ∧
    ∀ node, (node ∈ distances ↔ ∃ x, Walk g.neighbors start node x) ∧
      ∀ d link, distances.lookup node = some (d, link) → IsDistance g.neighbors start node d := by
  obtain ⟨last, inv, empty, returns⟩ := dijkstra_returns nonneg start
  refine ⟨last.distances, returns, fun node => ⟨⟨fun mem => ?_, fun ⟨x, walk⟩ => ?_⟩, fun d link found => ?_⟩⟩
  · obtain ⟨entry, found⟩ := Finmap.mem_iff.1 mem
    exact ⟨entry.1, inv.sound.walk node entry.1 (congrArg (Option.map Prod.fst) found)⟩
  · obtain ⟨d, -, labelled⟩ := inv.labelled empty walk
    obtain ⟨entry, found, -⟩ := Option.map_eq_some_iff.1 labelled
    exact Finmap.mem_iff.2 ⟨entry, found⟩
  · exact inv.isDistance empty (congrArg (Option.map Prod.fst) found)

theorem shortestPath_shortest : ∃ result, (∃ n, ∀ fuel ≥ n, g.shortestPath fuel start goal = some result) ∧
    (result = none ↔ ¬∃ x, Walk g.neighbors start goal x) ∧
    ∀ d path, result = some (d, path) →
      IsDistance g.neighbors start goal d ∧ PathBetween g.neighbors start goal path d := by
  obtain ⟨last, inv, empty, n, returns⟩ := dijkstra_returns nonneg start
  cases found : last.distances.lookup goal with
  | none =>
    have unreached : ¬∃ x, Walk g.neighbors start goal x := by
      rintro ⟨x, walk⟩
      obtain ⟨d, -, labelled⟩ := inv.labelled empty walk
      obtain ⟨entry, found', -⟩ := Option.map_eq_some_iff.1 labelled
      rw [found] at found'
      cases found'
    refine ⟨none, ⟨n, fun fuel enough => ?_⟩, by simp only [unreached, not_false_iff], nofun⟩
    simp only [shortestPath, returns fuel enough, found, Option.bind_eq_bind, Option.bind_some, Option.pure_def]
  | some entry =>
    obtain ⟨d, link⟩ := entry
    have labelled : last.search.label goal = some d := congrArg (Option.map Prod.fst) found
    have best := inv.isDistance empty labelled
    obtain ⟨path, isPath, m, back⟩ := exists_path (· == start) inv.sound (by simp) labelled best
    have reached : ∃ x, Walk g.neighbors start goal x := ⟨d, best.1⟩
    refine ⟨some (d, path), ⟨max n m, fun fuel enough => ?_⟩, by simp only [reached, reduceCtorEq, not_true], ?_⟩
    · have ran := returns fuel ((le_max_left n m).trans enough)
      have led := back fuel ((le_max_right n m).trans enough)
      simp only [Dijkstra.search] at led
      simp [shortestPath, ran, found, led, isPath.head]
    · rintro _ _ ⟨⟩
      exact ⟨best, isPath⟩

end Results

/-- `dijkstra` finds the distances of the nodes that can be reached, and `shortest_path` a path of least cost to
each of them. -/
theorem dijkstra_shortest (g : Graph ℚ) (nonneg : g.NonNegative) (start : ℕ) :
    (∃ distances, (∃ n, ∀ fuel ≥ n, g.dijkstra fuel start = some distances) ∧
      ∀ node, (node ∈ distances ↔ ∃ x, Walk g.neighbors start node x) ∧
        ∀ d link, distances.lookup node = some (d, link) → IsDistance g.neighbors start node d) ∧
    ∀ goal, ∃ result, (∃ n, ∀ fuel ≥ n, g.shortestPath fuel start goal = some result) ∧
      (result = none ↔ ¬∃ x, Walk g.neighbors start goal x) ∧
      ∀ d path, result = some (d, path) →
        IsDistance g.neighbors start goal d ∧ PathBetween g.neighbors start goal path d :=
  ⟨dijkstra_distances nonneg start, shortestPath_shortest nonneg start⟩

/-- Two edges from 0 to 1, and one back that costs nothing. -/
def parallel : Graph ℚ := (((new true).addEdge 0 1 2).addEdge 0 1 1).addEdge 1 0 0

theorem mem_neighbors_parallel {node : ℕ} {edge : ℕ × ℚ} : edge ∈ parallel.neighbors node ↔
    node = 0 ∧ edge = (1, 2) ∨ node = 0 ∧ edge = (1, 1) ∨ node = 1 ∧ edge = (0, 0) := by
  have none : (new true : Graph ℚ).neighbors node = [] := rfl
  rw [parallel, neighbors_addEdge (by rw [directed_addEdge, directed_addEdge]; rfl),
    neighbors_addEdge (by rw [directed_addEdge]; rfl), neighbors_addEdge rfl, none]
  split_ifs <;> simp_all

theorem nonNegative_parallel : parallel.NonNegative := by
  intro node edge he
  rcases mem_neighbors_parallel.1 he with ⟨-, rfl⟩ | ⟨-, rfl⟩ | ⟨-, rfl⟩ <;> decide

theorem dijkstra_shortest_parallel : ∃ d path,
    (∃ n, ∀ fuel ≥ n, parallel.shortestPath fuel 0 1 = some (some (d, path))) ∧
      IsDistance parallel.neighbors 0 1 d ∧ PathBetween parallel.neighbors 0 1 path d := by
  obtain ⟨-, paths⟩ := dijkstra_shortest parallel nonNegative_parallel 0
  obtain ⟨result, returns, unreached, shortest⟩ := paths 1
  have walk : ∃ x, Walk parallel.neighbors 0 1 x := ⟨_, .snoc .here (mem_neighbors_parallel.2 (.inl ⟨rfl, rfl⟩))⟩
  cases result with
  | none => exact absurd walk (unreached.1 rfl)
  | some found => exact ⟨found.1, found.2, returns, shortest _ _ rfl⟩

end TORdex.Graph
