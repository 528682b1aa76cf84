import TORdex.Algorithms.Kosaraju
import TORdex.Lib.BreadthFirst

/-!
# Breadth-first and depth-first traversal

Both list the nodes that can be reached from a start node, each once: `bfs` in the order of their distances,
`dfs` every node after one that has an edge to it.
-/

namespace TORdex.Graph

open Relation (ReflTransGen)
open BreadthFirst

variable {W : Type}

/-! ## The model -/

/-- The variables of `bfs`. -/
structure Bfs where
  visited : Finset ℕ
  order : List ℕ
  queue : List ℕ

/-- Take a neighbour up that has not been visited. -/
def Bfs.visit (s : Bfs) (edge : ℕ × W) : Bfs :=
  if edge.1 ∈ s.visited then s
  else { s with visited := insert edge.1 s.visited, queue := s.queue ++ [edge.1] }

/-- A round of the loop on the queue. -/
def bfsRound (g : Graph W) (s : Bfs) : Option (List ℕ ⊕ Bfs) :=
  match s.queue with
  | [] => some (.inl s.order)
  | node :: queue =>
    some (.inr ((g.neighbors node).foldl Bfs.visit { s with order := s.order ++ [node], queue }))

/-- The nodes in the order of a breadth-first search. -/
def bfs (fuel : ℕ) (g : Graph W) (start : ℕ) : Option (List ℕ) :=
  Loops.run g.bfsRound fuel ⟨{start}, [], [start]⟩

/-- The variables of `dfs`. -/
structure Dfs where
  visited : Finset ℕ
  order : List ℕ

/-- The depth of the recursion is given as fuel. -/
def dfsRecursive (g : Graph W) : ℕ → ℕ → Dfs → Option Dfs
  | 0, _, _ => none
  | fuel + 1, node, s =>
    if node ∈ s.visited then some s
    else
      (g.neighbors node).foldlM (fun s edge => dfsRecursive g fuel edge.1 s)
        ⟨insert node s.visited, s.order ++ [node]⟩

/-- The nodes in the order of a depth-first search. -/
def dfs (fuel : ℕ) (g : Graph W) (start : ℕ) : Option (List ℕ) := do
  let s ← g.dfsRecursive fuel start ⟨∅, []⟩
  return s.order

/-! ## Breadth first -/

section BreadthFirst

variable {g : Graph W}

/-- The variables of `bfs` in a breadth-first search. -/
def Bfs.ofSearch (s : Search ℕ) : Bfs := ⟨s.visited, s.done.map Prod.fst, s.queue.map Prod.fst⟩

theorem foldl_visit (d : ℕ) (edges : List (ℕ × W)) (s : Search ℕ) : edges.foldl Bfs.visit (.ofSearch s) =
    .ofSearch ((edges.map Prod.fst).foldl (Search.discover d) s) := by
  induction edges generalizing s with
  | nil => rfl
  | cons edge edges ih =>
    rw [List.foldl_cons, List.map_cons, List.foldl_cons, ← ih]
    congr 1
    unfold Bfs.visit Search.discover Bfs.ofSearch
    split_ifs
    · rfl
    · rw [List.map_append, List.map_singleton]

/-- The loop is a breadth-first search in which every node is expanded. -/
theorem bfsRound_ofSearch (s : Search ℕ) : g.bfsRound (.ofSearch s) =
    (BreadthFirst.round (fun node => (g.neighbors node).map Prod.fst) (fun _ => true) s).map
      (Sum.map (fun last => last.done.map Prod.fst) Bfs.ofSearch) := by
  unfold bfsRound BreadthFirst.round
  have queue : (Bfs.ofSearch s).queue = s.queue.map Prod.fst := rfl
  rw [queue]
  cases s.queue with
  | nil => rfl
  | cons e queue =>
    have taken : ({ Bfs.ofSearch s with
        order := (Bfs.ofSearch s).order ++ [e.1], queue := queue.map Prod.fst } : Bfs) =
        .ofSearch { s with done := s.done ++ [e], queue } := by
      simp [Bfs.ofSearch]
    rw [List.map_cons]
    dsimp only
    rw [taken, Search.expand, if_pos rfl, foldl_visit (e.2 + 1)]
    rfl

theorem bfs_spec (g : Graph W) (start : ℕ) :
    ∃ order, (∃ n, ∀ fuel ≥ n, bfs fuel g start = some order) ∧ order.Nodup ∧
      (∀ v, v ∈ order ↔ ReflTransGen g.Edge start v) ∧
      order.Pairwise fun a b => ∀ m n, IsDistance g.Edge {start} a m → IsDistance g.Edge {start} b n →
        m ≤ n := by
  have source : {v | v ∈ [start]} = ({start} : Set ℕ) := by
    ext v
    exact List.mem_singleton
  obtain ⟨s, returns, shape, empty, found⟩ := search_returns (fun node => (g.neighbors node).map Prod.fst)
    (fun _ => true) [start] (fun _ _ _ _ => rfl) (insert start g.appearing)
    (fun _ _ _ edge => Finset.mem_insert_of_mem (appearing_of_edge edge)) (by simp)
  rw [source] at found
  have done : s.done = (start, 0) :: s.found := by
    have listed := shape.listed
    rwa [empty, List.append_nil] at listed
  have distance : ∀ e ∈ s.done, IsDistance g.Edge {start} e.1 e.2 := fun e he =>
    source ▸ shape.isDistance (List.mem_append_left _ he)
  refine ⟨s.done.map Prod.fst, returns.map bfsRound_ofSearch, ?_, fun v => ⟨fun hv => ?_, fun hv => ?_⟩, ?_⟩
  · rw [done, List.map_cons, List.nodup_cons]
    refine ⟨fun again => ?_, shape.nodup⟩
    obtain ⟨e, he, same⟩ := List.mem_map.1 again
    exact shape.fresh e he (List.mem_singleton.2 same)
  · obtain ⟨e, he, rfl⟩ := List.mem_map.1 hv
    exact exists_reach_iff.1 ⟨e.2, (distance e he).reach⟩
  · obtain ⟨m, reach⟩ := exists_reach_iff.2 hv
    obtain ⟨n, -, hn⟩ := exists_isDistance reach
    have listed : (v, n) ∈ s.done := by
      cases n with
      | zero =>
        obtain rfl : v = start := hn.reach
        exact done ▸ List.mem_cons_self
      | succ n => exact done ▸ List.mem_cons_of_mem _ ((found v n).2 ⟨hn, rfl⟩)
    exact List.mem_map_of_mem listed
  · have sorted := shape.sorted
    rw [empty, List.append_nil, List.pairwise_map] at sorted
    rw [List.pairwise_map]
    refine sorted.imp_of_mem fun {a b} ha hb le m n hm hn => ?_
    rwa [hm.unique (distance a ha), hn.unique (distance b hb)]

end BreadthFirst

/-! ## Depth first -/

section DepthFirst

variable {g : Graph W} {front l l' : List ℕ} {node : ℕ}

/-- The recursion is that of the second search of Kosaraju's algorithm. -/
theorem dfsRecursive_eq (fuel node : ℕ) (s : SecondSearch) :
    g.dfsRecursive fuel node ⟨s.assigned, s.component⟩ =
      (g.dfs2 fuel node s).map fun t => ⟨t.assigned, t.component⟩ := by
  induction fuel generalizing node s with
  | zero => rfl
  | succ fuel ih =>
    unfold dfsRecursive dfs2
    by_cases old : node ∈ s.assigned
    · rw [if_pos old, if_pos old]
      rfl
    · rw [if_neg old, if_neg old]
      exact foldlM_map (φ := fun t : SecondSearch => (⟨t.assigned, t.component⟩ : Dfs))
        (fun t edge => ih edge.1 t) (g.neighbors node) ⟨insert node s.assigned, s.component ++ [node]⟩

/-- Every node of the list has an edge from an earlier one, or from one in front of the list. -/
def Led (g : Graph W) : List ℕ → List ℕ → Prop
  | _, [] => True
  | front, x :: l => (∃ y ∈ front, g.Edge y x) ∧ Led g (front ++ [x]) l

theorem led_append : Led g front (l ++ l') ↔ Led g front l ∧ Led g (front ++ l) l' := by
  induction l generalizing front with
  | nil => simp [Led]
  | cons x l ih => rw [List.cons_append, Led, Led, ih, and_assoc, List.append_assoc, List.singleton_append]

theorem Led.mono {front' : List ℕ} (h : Led g front l) (more : ∀ x ∈ front, x ∈ front') : Led g front' l := by
  induction l generalizing front front' with
  | nil => trivial
  | cons x l ih =>
    obtain ⟨⟨y, hy, edge⟩, rest⟩ := h
    refine ⟨⟨y, more y hy, edge⟩, ih rest fun z hz => ?_⟩
    rcases List.mem_append.1 hz with hz | hz
    · exact List.mem_append_left _ (more z hz)
    · exact List.mem_append_right _ hz

theorem Led.exists_edge (h : Led g front l) {before after : List ℕ} {x : ℕ}
    (split : l = before ++ x :: after) :
    ∃ y ∈ front ++ before, g.Edge y x := by
  rw [split, led_append] at h
  exact h.2.1

/-- What a search adds begins with its node, and leads on from there. -/
theorem dfs2_led (fuel node : ℕ) (s s' : SecondSearch) (h : g.dfs2 fuel node s = some s') :
    ∃ new, s'.component = s.component ++ new ∧
      (new = [] ∨ ∃ rest, new = node :: rest ∧ Led g [node] rest) := by
  induction fuel generalizing node s s' with
  | zero => cases h
  | succ fuel ih =>
    unfold dfs2 at h
    split_ifs at h with old
    · cases h
      exact ⟨[], (List.append_nil _).symm, .inl rfl⟩
    have loop : ∀ (edges : List (ℕ × W)) (t : SecondSearch) (rest : List ℕ),
        (∀ edge ∈ edges, g.Edge node edge.1) → t.component = s.component ++ node :: rest → Led g [node] rest →
        edges.foldlM (fun s edge => g.dfs2 fuel edge.1 s) t = some s' →
        ∃ rest, s'.component = s.component ++ node :: rest ∧ Led g [node] rest := by
      intro edges
      induction edges with
      | nil =>
        rintro t rest - component led ⟨⟩
        exact ⟨rest, component, led⟩
      | cons edge edges again =>
        intro t rest step component led run
        obtain ⟨t', first, run⟩ := Option.bind_eq_some_iff.1 run
        obtain ⟨new, component', led'⟩ := ih edge.1 t t' first
        refine again t' (rest ++ new) (fun e he => step e (List.mem_cons_of_mem _ he)) ?_ ?_ run
        · rw [component', component, List.append_assoc, List.cons_append]
        · refine led_append.2 ⟨led, ?_⟩
          rcases led' with rfl | ⟨more, rfl, led'⟩
          · trivial
          · refine ⟨⟨node, by simp, step edge List.mem_cons_self⟩, led'.mono fun x hx => ?_⟩
            exact List.mem_append_right _ hx
    obtain ⟨rest, component, led⟩ :=
      loop (g.neighbors node) _ [] (fun e he => List.mem_map_of_mem he) rfl trivial h
    exact ⟨node :: rest, component, .inr ⟨rest, rfl, led⟩⟩

/-- More fuel gives the same result. -/
theorem dfs2_mono {fuel fuel' : ℕ} (le : fuel ≤ fuel') {s t : SecondSearch}
    (h : g.dfs2 fuel node s = some t) :
    g.dfs2 fuel' node s = some t := by
  induction fuel generalizing fuel' node s t with
  | zero => cases h
  | succ fuel ih =>
    obtain ⟨fuel', rfl⟩ := Nat.exists_eq_add_of_le' (Nat.le_of_add_left_le le)
    unfold dfs2 at h ⊢
    split_ifs at h ⊢ with old
    · exact h
    · exact foldlM_mono (fun s edge t run => ih (Nat.le_of_succ_le_succ le) run) h

theorem dfs_spec (g : Graph W) (start : ℕ) :
    ∃ order, (∃ n, ∀ fuel ≥ n, dfs fuel g start = some order) ∧ order.Nodup ∧
      (∀ v, v ∈ order ↔ ReflTransGen g.Edge start v) ∧
      ∀ before x after, order = before ++ x :: after → before ≠ [] → ∃ y ∈ before, g.Edge y x := by
  have closed : ∀ x ∈ insert start g.appearing, ∀ y, g.Edge x y → y ∈ insert start g.appearing :=
    fun _ _ _ edge => Finset.mem_insert_of_mem (appearing_of_edge edge)
  obtain ⟨s, new, run, coll, here, within⟩ :=
    dfs2_spec closed ((insert start g.appearing).card + 1) start ⟨∅, []⟩
    (Finset.mem_insert_self _ _) (Nat.lt_succ_of_le (Finset.card_le_card Finset.sdiff_subset))
  have component : s.component = new := coll.component
  have assigned : ∀ x, x ∈ s.assigned ↔ x ∈ new := fun x => by
    rw [coll.assigned]
    exact or_iff_right (Finset.notMem_empty x)
  refine ⟨new, ⟨(insert start g.appearing).card + 1, fun fuel enough => ?_⟩, coll.nodup, fun v =>
    ⟨coll.reached v, fun hv => ?_⟩, ?_⟩
  · have ran := dfsRecursive_eq (g := g) fuel start ⟨∅, []⟩
    rw [dfs2_mono enough run] at ran
    rw [dfs, ran, ← component]
    rfl
  · exact Reachability.mem_of_reach (s := {x | x ∈ new})
      (fun x hx y edge => (assigned y).1 (within x hx y edge)) ((assigned start).1 here) hv
  · obtain ⟨new', same, nothing | ⟨rest, rfl, led⟩⟩ := dfs2_led _ start _ s run
    · rw [same, nothing] at component
      intro before x after split
      simp [← component] at split
    · obtain rfl : new = start :: rest := component.symm.trans same
      intro before x after split beyond
      cases before with
      | nil => exact absurd rfl beyond
      | cons y before =>
        obtain ⟨rfl, rest_eq⟩ := List.cons.inj split
        exact led.exists_edge rest_eq

end DepthFirst

/-- Both traversals end, and list what the start node reaches. -/
theorem bfs_dfs_reachable (g : Graph W) (start : ℕ) :
    (∃ order, (∃ n, ∀ fuel ≥ n, bfs fuel g start = some order) ∧ order.Nodup ∧
      (∀ v, v ∈ order ↔ ReflTransGen g.Edge start v) ∧
      order.Pairwise fun a b => ∀ m n, IsDistance g.Edge {start} a m → IsDistance g.Edge {start} b n →
        m ≤ n) ∧
    ∃ order, (∃ n, ∀ fuel ≥ n, dfs fuel g start = some order) ∧ order.Nodup ∧
      (∀ v, v ∈ order ↔ ReflTransGen g.Edge start v) ∧
      ∀ before x after, order = before ++ x :: after → before ≠ [] → ∃ y ∈ before, g.Edge y x :=
  ⟨bfs_spec g start, dfs_spec g start⟩

end TORdex.Graph
