import Mathlib.Algebra.Order.Ring.Rat
import Mathlib.Data.Finset.Sort
import Mathlib.Tactic.NormNum
import TORdex.Algorithms.Graph
import TORdex.Lib.Ensures
import TORdex.Lib.FiniteMap
import TORdex.Lib.RankFlow

/-!
# PageRank

Ranks are exact rationals.  The nodes with a rank are the keys of the adjacency map, but ranks flow along all
edges: what flows to a node that is only the target of edges is lost.
-/

namespace TORdex.Graph

open FiniteMap

variable {W : Type}

/-! ## The model -/

/-- The loop over the edges of a node `u`. -/
def inflowFrom (g : Graph W) (rank : HashMap ℕ ℚ) (node u : ℕ) (sum : ℚ) : Option ℚ :=
  let edges := g.neighbors u
  let outDegree : ℚ := edges.length
  if outDegree > 0 then
    edges.foldlM (fun sum edge =>
      if edge.1 = node then (rank.lookup u).map fun r => sum + r / outDegree else some sum) sum
  else some sum

/-- `keys` is the order in which the hash map of the adjacency lists is traversed. -/
def inflow (g : Graph W) (keys : List ℕ) (rank : HashMap ℕ ℚ) (node : ℕ) : Option ℚ :=
  keys.foldlM (fun sum u => g.inflowFrom rank node u sum) 0

/-- What each node is given of the ranks of nodes without edges. -/
def dangling (g : Graph W) (rank : HashMap ℕ ℚ) : Option ℚ := do
  let ranks ← (g.nodes.filter fun node => (g.neighbors node).isEmpty).mapM rank.lookup
  return ranks.sum / g.nodes.length

/-- One iteration; `none` is the panic of `rank[&node]` for a node without a rank. -/
def pagerankRound (g : Graph W) (keys : List ℕ) (damping : ℚ) (rank : HashMap ℕ ℚ) :
    Option (HashMap ℕ ℚ) := do
  let dangling ← g.dangling rank
  g.nodes.foldlM (fun newRank node => do
    let sum ← g.inflow keys rank node
    let pr := (1 - damping) / g.nodes.length + damping * (sum + dangling)
    return newRank.insert node pr) ∅

/-- The ranks after some iterations. -/
def pagerank (g : Graph W) (keys : List ℕ) (damping : ℚ) (iterations : ℕ) : Option (HashMap ℕ ℚ) :=
  if g.nodes.length = 0 then some ∅
  else
    let rank := g.nodes.foldl (fun rank node => rank.insert node (1 / (g.nodes.length : ℚ))) ∅
    (List.range iterations).foldlM (fun rank _ => g.pagerankRound keys damping rank) rank

/-! ## Ranks as a function on the nodes -/

/-- The map has these ranks, of the nodes with an entry in the adjacency map. -/
def Ranks (g : Graph W) (rank : HashMap ℕ ℚ) (f : ℕ → ℚ) : Prop :=
  ∀ node, rank.lookup node = if node ∈ g.adjacency.keys then some (f node) else none

/-- The targets of the edges of a node. -/
def targets (g : Graph W) (u : ℕ) : List ℕ := (g.neighbors u).map Prod.fst

section Ranks

variable {g : Graph W} {rank : HashMap ℕ ℚ} {f : ℕ → ℚ} {keys : List ℕ} {node u : ℕ}

theorem sum_map_nodes (φ : ℕ → ℚ) : (g.nodes.map φ).sum = ∑ u ∈ g.adjacency.keys, φ u := by
  rw [Finset.sum, ← Multiset.sum_coe, ← Multiset.map_coe, nodes, Finset.sort_eq]

theorem length_nodes : g.nodes.length = g.adjacency.keys.card := Finset.length_sort _

theorem inflowFrom_eq (h : g.Ranks rank f) (hu : u ∈ g.adjacency.keys) (sum : ℚ) :
    g.inflowFrom rank node u sum = some (sum + (g.targets u).count node * (f u / (g.targets u).length)) := by
  have edges : ∀ (edges : List (ℕ × W)) (sum share : ℚ),
      edges.foldlM (fun sum edge => if edge.1 = node then (some (f u)).map fun r =>
        sum + r / share else some sum) sum =
        some (sum + (edges.map Prod.fst).count node * (f u / share)) := by
    intro edges
    induction edges with
    | nil => simp
    | cons edge edges ih =>
      intro sum share
      rw [List.foldlM_cons, List.map_cons, List.count_cons]
      by_cases here : edge.1 = node
      · rw [if_pos here, Option.map_some, here]
        show edges.foldlM _ _ = _
        rw [ih]
        simp only [beq_self_eq_true, if_true, Nat.cast_add, Nat.cast_one]
        rw [add_one_mul, add_assoc, add_comm (f u / share)]
      · rw [if_neg here]
        show edges.foldlM _ _ = _
        rw [ih]
        simp [here]
  have own : rank.lookup u = some (f u) := by rw [h, if_pos hu]
  unfold inflowFrom
  rw [own]
  dsimp only
  split_ifs with some
  · rw [edges, targets, List.length_map]
  · have empty : g.neighbors u = [] := by simpa using some
    simp [targets, empty]

theorem inflow_eq (h : g.Ranks rank f) (perm : keys.Perm g.nodes) :
    g.inflow keys rank node = some (RankFlow.inflow g.adjacency.keys g.targets f node) := by
  have loop : ∀ (keys : List ℕ) (sum : ℚ), (∀ u ∈ keys, u ∈ g.adjacency.keys) →
      keys.foldlM (fun sum u => g.inflowFrom rank node u sum) sum =
        some (sum + (keys.map fun u => (g.targets u).count node * (f u / (g.targets u).length)).sum) := by
    intro keys
    induction keys with
    | nil => simp
    | cons u keys ih =>
      intro sum known
      rw [List.foldlM_cons, inflowFrom_eq h (known u List.mem_cons_self)]
      show keys.foldlM _ _ = _
      rw [ih _ fun v hv => known v (List.mem_cons_of_mem _ hv), List.map_cons, List.sum_cons, add_assoc]
  rw [inflow, loop keys 0 fun u hu => mem_nodes.1 (perm.mem_iff.1 hu), zero_add, (perm.map _).sum_eq,
    sum_map_nodes,
    RankFlow.inflow]

theorem dangling_eq (h : g.Ranks rank f) :
    g.dangling rank = some (RankFlow.dangling g.adjacency.keys g.targets f / g.adjacency.keys.card) := by
  have each : ∀ l : List ℕ, (∀ u ∈ l, u ∈ g.adjacency.keys) → l.mapM rank.lookup = some (l.map f) := by
    intro l
    induction l with
    | nil => exact fun _ => rfl
    | cons u l ih =>
      intro known
      rw [List.mapM_cons, h u, if_pos (known u List.mem_cons_self), ih fun v hv =>
        known v (List.mem_cons_of_mem _ hv)]
      rfl
  have ends : (fun node => (g.neighbors node).isEmpty) = fun node => decide (g.targets node = []) := by
    funext node
    rw [Bool.eq_iff_iff]
    simp [targets]
  rw [dangling, each _ fun u hu => mem_nodes.1 (List.mem_filter.1 hu).1]
  show some (_ / _) = _
  have sum : ((g.nodes.filter fun node => decide (g.targets node = [])).map f).sum =
      RankFlow.dangling g.adjacency.keys g.targets f := by
    rw [RankFlow.dangling, Finset.sum_filter, ← sum_map_nodes]
    induction g.nodes with
    | nil => rfl
    | cons u l ih =>
      by_cases empty : g.targets u = []
      · rw [List.filter_cons_of_pos (by simpa using empty), List.map_cons, List.sum_cons, List.map_cons,
          List.sum_cons,
          if_pos empty, ih]
      · rw [List.filter_cons_of_neg (by simpa using empty), List.map_cons, List.sum_cons, if_neg empty,
          zero_add, ih]
  rw [ends, sum, length_nodes]

/-- What is found after values were put in for some keys. -/
theorem lookup_foldl_insert (v : ℕ → ℚ) (l : List ℕ) (m : HashMap ℕ ℚ) (k : ℕ) :
    (l.foldl (fun m node => m.insert node (v node)) m).lookup k =
      if k ∈ l then some (v k) else m.lookup k := by
  induction l generalizing m with
  | nil => simp
  | cons node l ih =>
    rw [List.foldl_cons, ih]
    by_cases same : k = node
    · subst same
      simp
    · simp [same, Finmap.lookup_insert_of_ne _ same]

theorem ranks_foldl_insert (v : ℕ → ℚ) :
    g.Ranks (g.nodes.foldl (fun m node => m.insert node (v node)) ∅) v := by
  intro node
  rw [lookup_foldl_insert]
  simp

/-- An iteration is a step of the flow. -/
theorem pagerankRound_eq (h : g.Ranks rank f) (perm : keys.Perm g.nodes) (damping : ℚ) :
    ∃ rank', g.pagerankRound keys damping rank = some rank' ∧
      g.Ranks rank' (RankFlow.step g.adjacency.keys g.targets damping f) := by
  have loop : ∀ (l : List ℕ) (m : HashMap ℕ ℚ), l.foldlM (fun newRank node => do
      let sum ← g.inflow keys rank node
      let pr := (1 - damping) / (g.adjacency.keys.card : ℚ) + damping *
        (sum + RankFlow.dangling g.adjacency.keys g.targets f / g.adjacency.keys.card)
      return newRank.insert node pr) m =
      some (l.foldl (fun m node =>
        m.insert node (RankFlow.step g.adjacency.keys g.targets damping f node)) m) := by
    intro l
    induction l with
    | nil => exact fun _ => rfl
    | cons node l ih =>
      intro m
      rw [List.foldlM_cons, inflow_eq h perm, List.foldl_cons]
      exact ih _
  refine ⟨_, ?_, ranks_foldl_insert _⟩
  rw [pagerankRound, dangling_eq h, length_nodes]
  exact loop g.nodes ∅

theorem keys_eq (h : g.Ranks rank f) : rank.keys = g.adjacency.keys := by
  ext node
  rw [Finmap.mem_keys, ← Finmap.lookup_isSome, h]
  split_ifs with known
  · simp [known]
  · simp [known]

/-- The sum of the ranks in the map. -/
theorem sum_values (h : g.Ranks rank f) : (values rank).sum = ∑ u ∈ g.adjacency.keys, f u := by
  rw [values_eq_map fun node r found => ?_, keys_eq h, Finset.sum]
  rw [h] at found
  split_ifs at found
  exact (Option.some.inj found).symm

/-- There is a rank for every node with an entry, and the iterations keep the sum where all targets have one.
-/
theorem pagerank_spec (nonempty : g.adjacency.keys.Nonempty) (perm : keys.Perm g.nodes) (damping : ℚ)
    (iterations : ℕ) :
    ∃ rank f, g.pagerank keys damping iterations = some rank ∧ g.Ranks rank f ∧
      ((∀ a b, g.Edge a b → b ∈ g.adjacency.keys) → ∑ u ∈ g.adjacency.keys, f u = 1) := by
  have iterate : ∀ (l : List ℕ) (rank : HashMap ℕ ℚ) (f : ℕ → ℚ), g.Ranks rank f →
      ∃ rank' f', l.foldlM (fun rank _ => g.pagerankRound keys damping rank) rank = some rank' ∧
        g.Ranks rank' f' ∧
        ((∀ a b, g.Edge a b → b ∈ g.adjacency.keys) → ∑ u ∈ g.adjacency.keys, f u = 1 →
          ∑ u ∈ g.adjacency.keys, f' u = 1) := by
    intro l
    induction l with
    | nil => exact fun rank f h => ⟨rank, f, rfl, h, fun _ sum => sum⟩
    | cons _ l ih =>
      intro rank f h
      obtain ⟨rank₁, once, h₁⟩ := pagerankRound_eq h perm damping
      obtain ⟨rank', f', run, h', keeps⟩ := ih rank₁ _ h₁
      refine ⟨rank', f', by rw [List.foldlM_cons, once]; exact run, h', fun closed sum => keeps closed ?_⟩
      exact RankFlow.sum_step (fun u _ v edge => closed u v edge) nonempty damping sum
  obtain ⟨rank, f, run, h, keeps⟩ := iterate (List.range iterations) _ (fun _ => 1 / (g.nodes.length : ℚ))
    (ranks_foldl_insert _)
  refine ⟨rank, f, ?_, h, fun closed => keeps closed ?_⟩
  · rw [pagerank, if_neg (length_nodes ▸ nonempty.card_ne_zero)]
    exact run
  · have card : (g.adjacency.keys.card : ℚ) ≠ 0 := Nat.cast_ne_zero.2 nonempty.card_ne_zero
    rw [Finset.sum_const, nsmul_eq_mul, length_nodes, mul_one_div_cancel card]

end Ranks

/-! ## The result -/

/-- `pagerank` returns a rank for every node that occurs in the graph, and the ranks sum to one. -/
def ConservesRank (g : Graph W) (keys : List ℕ) (damping : ℚ) (iterations : ℕ) : Prop :=
  ∃ rank, g.pagerank keys damping iterations = some rank ∧ (∀ node ∈ g.appearing, node ∈ rank) ∧
    (values rank).sum = 1

section Result

variable {g : Graph W} {keys : List ℕ}

theorem nonempty_keys (h : g.appearing.Nonempty) : g.adjacency.keys.Nonempty := by
  obtain ⟨a, ha⟩ := h
  rcases mem_appearing.1 ha with key | ⟨b, edge⟩
  · exact ⟨a, key⟩
  · exact ⟨b, mem_keys_of_edge edge⟩

/-- Ranks are conserved exactly when every target of an edge has an entry of its own, whatever the damping. -/
theorem pagerank_conserves_iff (nonempty : g.appearing.Nonempty) (perm : keys.Perm g.nodes) (damping : ℚ)
    (iterations : ℕ) :
    g.ConservesRank keys damping iterations ↔ ∀ a b, g.Edge a b → b ∈ g.adjacency.keys := by
  obtain ⟨rank, f, run, ranks, sum⟩ := pagerank_spec (nonempty_keys nonempty) perm damping iterations
  constructor
  · rintro ⟨rank', run', known, -⟩ a b edge
    obtain rfl : rank = rank' := Option.some.inj (run.symm.trans run')
    rw [← keys_eq ranks, Finmap.mem_keys]
    exact known b (appearing_of_edge edge)
  · intro closed
    refine ⟨rank, run, fun node hn => ?_, (sum_values ranks).trans (sum closed)⟩
    rw [← Finmap.mem_keys, keys_eq ranks]
    rcases mem_appearing.1 hn with key | ⟨a, edge⟩
    · exact key
    · exact closed a node edge

/-- A cycle of two nodes. -/
def roundTrip : Graph ℕ := ((new true).addEdge 0 1 1).addEdge 1 0 1

theorem pagerank_conserves_roundTrip : roundTrip.ConservesRank roundTrip.nodes (17 / 20) 20 := by
  refine (pagerank_conserves_iff ⟨0, by decide⟩ (List.Perm.refl _) _ _).2 fun a b edge => ?_
  have two : ∀ b, b = 0 ∨ b = 1 → b ∈ roundTrip.adjacency.keys := by
    rintro b (rfl | rfl) <;> decide
  refine two b ?_
  rw [roundTrip, edge_addEdge, edge_addEdge] at edge
  simp [new, Edge, neighbors] at edge
  omega

/-- One edge: its target has no entry. -/
def oneEdge : Graph ℕ := (new true).addEdge 0 1 1

theorem not_pagerank_conserves : ¬ ∀ (g : Graph ℕ) (keys : List ℕ) (damping : ℚ) (iterations : ℕ),
    g.directed = true → g.appearing.Nonempty → keys.Perm g.nodes → 0 ≤ damping → damping ≤ 1 →
      g.ConservesRank keys damping iterations := by
  intro h
  obtain ⟨rank, run, known, -⟩ := h oneEdge oneEdge.nodes (17 / 20) 20 rfl ⟨0, by decide⟩ (List.Perm.refl _)
    (by norm_num) (by norm_num)
  obtain ⟨rank', f, run', ranks, -⟩ :=
    pagerank_spec (g := oneEdge) ⟨0, by decide⟩ (List.Perm.refl _) (17 / 20) 20
  obtain rfl : rank = rank' := Option.some.inj (run.symm.trans run')
  have found := known 1 (by decide)
  rw [← Finmap.mem_keys, keys_eq ranks] at found
  exact absurd found (by decide)

end Result

end TORdex.Graph
