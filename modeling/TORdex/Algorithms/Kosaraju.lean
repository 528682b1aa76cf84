import TORdex.Algorithms.Graph
import TORdex.Lib.Ensures
import TORdex.Lib.Reachability

/-!
# Kosaraju's algorithm

The first search lists the nodes in the order in which they finish; the second, in the transposed graph and
from the last node on, takes one class at a time.  The searches are recursive; `none` would say that the depth
given as fuel is not enough.
-/

namespace TORdex

open Relation (ReflTransGen)
open Reachability

/-- `Vec::sort`. -/
def sortNodes (nodes : List ℕ) : List ℕ := nodes.insertionSort (· ≤ ·)

theorem mem_sortNodes {nodes : List ℕ} {a : ℕ} : a ∈ sortNodes nodes ↔ a ∈ nodes :=
  (List.perm_insertionSort _ nodes).mem_iff

theorem sortNodes_strict {nodes : List ℕ} (h : nodes.Nodup) : (sortNodes nodes).Pairwise (· < ·) := by
  have nodup : (sortNodes nodes).Nodup := (List.perm_insertionSort _ nodes).nodup_iff.2 h
  exact (List.pairwise_insertionSort (· ≤ ·) nodes).imp₂ (fun _ _ => lt_of_le_of_ne) nodup

/-- The visited nodes, and the order in which they were left. -/
structure FirstSearch where
  visited : Finset ℕ
  order : List ℕ

/-- The nodes with a component, and the component under way. -/
structure SecondSearch where
  assigned : Finset ℕ
  component : List ℕ

namespace Graph

variable {W : Type}

/-- The search along the edges. -/
def dfs1 (g : Graph W) : ℕ → ℕ → FirstSearch → Option FirstSearch
  | 0, _, _ => none
  | fuel + 1, node, s =>
    if node ∈ s.visited then some s
    else do
      let s ← (g.neighbors node).foldlM (fun s edge => dfs1 g fuel edge.1 s)
        { s with visited := insert node s.visited }
      some { s with order := s.order ++ [node] }

/-- The search against the edges. -/
def dfs2 (g : Graph W) : ℕ → ℕ → SecondSearch → Option SecondSearch
  | 0, _, _ => none
  | fuel + 1, node, s =>
    if node ∈ s.assigned then some s
    else
      (g.neighbors node).foldlM (fun s edge => dfs2 g fuel edge.1 s)
        ⟨insert node s.assigned, s.component ++ [node]⟩

/-- The recursion of a search is not deeper than there are nodes. -/
def searchDepth (g : Graph W) : ℕ := g.appearing.card + 1

/-- The nodes in the order in which the first search finishes them. -/
def finishingOrder (g : Graph W) : Option (List ℕ) := do
  let s ← g.nodes.foldlM
    (fun s node => if node ∈ s.visited then some s else g.dfs1 g.searchDepth node s) ⟨∅, []⟩
  some s.order

/-- The body of the loop of the second search: what is assigned, and the components so far. -/
def takeComponent (transposed : Graph W) (depth : ℕ) (st : Finset ℕ × List (List ℕ)) (node : ℕ) :
    Option (Finset ℕ × List (List ℕ)) :=
  if node ∈ st.1 then some st
  else do
    let s ← transposed.dfs2 depth node ⟨st.1, []⟩
    some (s.assigned, st.2 ++ [sortNodes s.component])

/-- `keys` is the order in which the hash map of the adjacency lists is traversed. -/
def kosarajuScc (g : Graph W) (keys : List ℕ) : Option (List (List ℕ)) := do
  let order ← g.finishingOrder
  let (_, sccs) ← order.reverse.foldlM ((g.transpose keys).takeComponent g.searchDepth) (∅, [])
  some sccs

/-- A search that marks a node has less to do. -/
theorem card_sdiff_lt {u s s' : Finset ℕ} {node : ℕ} (hu : node ∈ u) (hs : node ∉ s) (hs' : node ∈ s')
    (sub : s ⊆ s') : (u \ s').card < (u \ s).card := by
  refine Finset.card_lt_card ⟨Finset.sdiff_subset_sdiff le_rfl sub, fun h => ?_⟩
  exact (Finset.mem_sdiff.1 (h (Finset.mem_sdiff.2 ⟨hu, hs⟩))).2 hs'

end Graph

/-! ## The first search -/

/-- The node is visited and not finished. -/
def FirstSearch.pending (s : FirstSearch) (x : ℕ) : Prop := x ∈ s.visited ∧ x ∉ s.order

/-- What holds throughout the first search: the successors of finished nodes are visited, and the finished nodes
are in finishing order. -/
structure FirstSearch.Valid {W : Type} (g : Graph W) (s : FirstSearch) : Prop where
  known : s.visited ⊆ g.appearing
  started : ∀ x ∈ s.order, x ∈ s.visited
  nodup : s.order.Nodup
  finished : ∀ x ∈ s.order, ∀ y, g.Edge x y → y ∈ s.visited
  settled : FinishOrder g.Edge s.order

/-- A search from a node visits more, and finishes all that it visits. -/
structure FirstSearch.Extends (s s' : FirstSearch) : Prop where
  visited : s.visited ⊆ s'.visited
  pending : ∀ x, s'.pending x ↔ s.pending x

namespace FirstSearch

variable {W : Type} {g : Graph W} {s s' s'' : FirstSearch} {node : ℕ}

theorem Extends.refl (s : FirstSearch) : Extends s s := ⟨subset_rfl, fun _ => Iff.rfl⟩

theorem Extends.trans (h : Extends s s') (h' : Extends s' s'') : Extends s s'' :=
  ⟨h.visited.trans h'.visited, fun x => (h'.pending x).trans (h.pending x)⟩

/-- The state in which the loop over the neighbours begins. -/
def start (s : FirstSearch) (node : ℕ) : FirstSearch := { s with visited := insert node s.visited }

theorem Valid.start (h : Valid g s) (hn : node ∈ g.appearing) : Valid g (s.start node) where
  known := Finset.insert_subset hn h.known
  started x hx := Finset.mem_insert_of_mem (h.started x hx)
  nodup := h.nodup
  finished x hx y hy := Finset.mem_insert_of_mem (h.finished x hx y hy)
  settled := h.settled

theorem pending_start (h : Valid g s) (new : node ∉ s.visited) (x : ℕ) :
    (s.start node).pending x ↔ x = node ∨ s.pending x := by
  have unfinished : node ∉ s.order := fun hm => new (h.started node hm)
  unfold pending
  rw [start, Finset.mem_insert, or_and_right]
  refine or_congr_left (and_iff_left_of_imp ?_)
  rintro rfl
  exact unfinished

/-- A node finishes after its successors have been visited. -/
theorem Valid.finish (h : Valid g s) (pending : s.pending node) (succ : ∀ y, g.Edge node y → y ∈ s.visited)
    (path : ∀ x, s.pending x → ReflTransGen g.Edge x node) :
    Valid g { s with order := s.order ++ [node] } := by
  have succs : ∀ x ∈ s.order ++ [node], ∀ y, g.Edge x y → y ∈ s.visited := forall_mem_concat h.finished succ
  refine ⟨h.known, forall_mem_concat h.started pending.1, ?_, succs,
    h.settled.concat succs fun x hx hn => path x ⟨hx, fun hm => hn ?_⟩⟩
  · rw [List.nodup_append]
    refine ⟨h.nodup, List.nodup_singleton node, fun x hx y hy same => ?_⟩
    rw [List.mem_singleton.1 hy] at same
    exact pending.2 (same ▸ hx)
  · exact List.mem_append_left _ hm

end FirstSearch

namespace Graph

open FirstSearch

variable {W : Type} {g : Graph W}

/-- The first search from a node that every pending node reaches. -/
theorem dfs1_spec (fuel node : ℕ) (s : FirstSearch) (valid : Valid g s) (known : node ∈ g.appearing)
    (enough : (g.appearing \ s.visited).card < fuel)
    (path : ∀ x, s.pending x → ReflTransGen g.Edge x node) :
    ∃ s', g.dfs1 fuel node s = some s' ∧ Valid g s' ∧ Extends s s' ∧ node ∈ s'.visited := by
  induction fuel generalizing node s with
  | zero => exact absurd enough (Nat.not_lt_zero _)
  | succ fuel ih =>
    unfold dfs1
    split_ifs with visited
    · exact ⟨s, rfl, valid, .refl s, visited⟩
    have pending := pending_start valid visited
    obtain ⟨t, run, ok, ext, done⟩ := foldlM_ensures
      (f := fun s edge => dfs1 g fuel edge.1 s) (l := g.neighbors node) (s := s.start node)
      (P := fun done t => Valid g t ∧ Extends (s.start node) t ∧ ∀ edge ∈ done, edge.1 ∈ t.visited)
      ⟨valid.start known, .refl _, fun _ h => absurd h List.not_mem_nil⟩
      (by
        rintro before edge after split t ⟨ok, ext, done⟩
        have step : g.Edge node edge.1 := List.mem_map.2 ⟨edge, by simp [split], rfl⟩
        have less : (g.appearing \ t.visited).card < fuel := by
          have marked : node ∈ t.visited := ext.visited (Finset.mem_insert_self _ _)
          have grown : s.visited ⊆ t.visited := (Finset.subset_insert _ _).trans ext.visited
          have := card_sdiff_lt known visited marked grown
          omega
        obtain ⟨t', run, ok', ext', here⟩ := ih edge.1 t ok (appearing_of_edge step) less fun x hx => by
          rcases (pending x).1 ((ext.pending x).1 hx) with rfl | hx
          · exact .single step
          · exact (path x hx).tail step
        exact ⟨t', run, ok', ext.trans ext',
          forall_mem_concat (fun e he => ext'.visited (done e he)) here⟩)
    have marked : node ∈ t.visited := ext.visited (Finset.mem_insert_self _ _)
    have unfinished : t.pending node := (ext.pending node).2 ((pending node).2 (.inl rfl))
    have succ : ∀ y, g.Edge node y → y ∈ t.visited := fun y hy => by
      obtain ⟨edge, he, rfl⟩ := List.mem_map.1 hy
      exact done edge he
    refine ⟨{ t with order := t.order ++ [node] }, ?_, ok.finish unfinished succ fun x hx => ?_,
      ⟨(Finset.subset_insert _ _).trans ext.visited, fun x => ?_⟩, marked⟩
    · have run' : (g.neighbors node).foldlM (fun s edge => dfs1 g fuel edge.1 s)
        { s with visited := insert node s.visited } = some t := run
      rw [run']
      rfl
    · rcases (pending x).1 ((ext.pending x).1 hx) with rfl | hx
      · exact .refl
      · exact path x hx
    · have closed : ({ t with order := t.order ++ [node] } : FirstSearch).pending x ↔
          t.pending x ∧ x ≠ node := by
        simp [FirstSearch.pending, and_assoc]
      rw [closed, ext.pending, pending]
      refine ⟨fun h => h.1.resolve_left h.2, fun h => ⟨.inr h, ?_⟩⟩
      rintro rfl
      exact visited h.1

/-- The first search finishes all nodes, every class after what it reaches. -/
theorem finishingOrder_spec (g : Graph W) : ∃ order, g.finishingOrder = some order ∧ order.Nodup ∧
    FinishOrder g.Edge order ∧ ∀ x, x ∈ order ↔ x ∈ g.appearing := by
  have empty : Valid g ⟨∅, []⟩ :=
    ⟨Finset.empty_subset _, fun _ h => absurd h List.not_mem_nil, List.nodup_nil, fun _ h => absurd h List.not_mem_nil,
      finishOrder_nil⟩
  obtain ⟨s, run, ok, idle, done⟩ := foldlM_ensures
    (f := fun (s : FirstSearch) node => if node ∈ s.visited then some s else g.dfs1 g.searchDepth node s)
    (l := g.nodes) (s := (⟨∅, []⟩ : FirstSearch))
    (P := fun done s => Valid g s ∧ (∀ x, ¬ s.pending x) ∧ ∀ x ∈ done, x ∈ s.visited)
    ⟨empty, fun x hx => absurd hx.1 (Finset.notMem_empty x), fun _ h => absurd h List.not_mem_nil⟩
    (by
      rintro before node after split s ⟨ok, idle, done⟩
      split_ifs with visited
      · exact ⟨s, rfl, ok, idle, forall_mem_concat done visited⟩
      · have known : node ∈ g.appearing :=
          mem_appearing.2 (.inl (mem_nodes.1 (by simp [split])))
        have enough : (g.appearing \ s.visited).card < g.searchDepth :=
          Nat.lt_succ_of_le (Finset.card_le_card Finset.sdiff_subset)
        obtain ⟨s', run, ok', ext, here⟩ := dfs1_spec g.searchDepth node s ok known enough
          fun x hx => absurd hx (idle x)
        exact ⟨s', run, ok', fun x hx => idle x ((ext.pending x).1 hx),
          forall_mem_concat (fun x hx => ext.visited (done x hx)) here⟩)
  have finished : ∀ x ∈ s.visited, x ∈ s.order := fun x hx => by
    by_contra unfinished
    exact idle x ⟨hx, unfinished⟩
  refine ⟨s.order, by rw [finishingOrder, run]; rfl, ok.nodup, ok.settled, fun x =>
    ⟨fun hx => ok.known (ok.started x hx), fun hx => finished x ?_⟩⟩
  rcases mem_appearing.1 hx with key | ⟨y, edge⟩
  · exact done x (mem_nodes.2 key)
  · exact ok.finished y (finished y (done y (mem_nodes.2 (mem_keys_of_edge edge)))) x edge

/-! ## The second search -/

/-- What a search collects: nodes not assigned before that the first node reaches, and nothing else that they
lead to is left unassigned. -/
structure Collects (g : Graph W) (node : ℕ) (s s' : SecondSearch) (new : List ℕ) : Prop where
  component : s'.component = s.component ++ new
  assigned : ∀ x, x ∈ s'.assigned ↔ x ∈ s.assigned ∨ x ∈ new
  nodup : new.Nodup
  fresh : ∀ x ∈ new, x ∉ s.assigned
  reached : ∀ x ∈ new, ReflTransGen g.Edge node x

section Collects

variable {node w : ℕ} {s t t' : SecondSearch} {new more : List ℕ}

theorem collects_nil (g : Graph W) (node : ℕ) (s : SecondSearch) : Collects g node s s [] where
  component := (List.append_nil _).symm
  assigned _ := (or_iff_left List.not_mem_nil).symm
  nodup := List.nodup_nil
  fresh _ hx := absurd hx List.not_mem_nil
  reached _ hx := absurd hx List.not_mem_nil

theorem Collects.grown (coll : Collects g node s t new) : s.assigned ⊆ t.assigned :=
  fun x hx => (coll.assigned x).2 (.inl hx)

/-- A search from a neighbour collects more. -/
theorem Collects.append (coll : Collects g node s t new) (step : g.Edge node w) (coll' : Collects g w t t' more) :
    Collects g node s t' (new ++ more) := by
  constructor
  · rw [coll'.component, coll.component, List.append_assoc]
  · intro x
    rw [coll'.assigned, coll.assigned, List.mem_append, or_assoc]
  · rw [List.nodup_append]
    refine ⟨coll.nodup, coll'.nodup, fun x hx y hy same => ?_⟩
    exact coll'.fresh y hy ((coll.assigned y).2 (.inr (same ▸ hx)))
  · intro x hx
    rcases List.mem_append.1 hx with hx | hx
    · exact coll.fresh x hx
    · exact fun old => coll'.fresh x hx (coll.grown old)
  · intro x hx
    rcases List.mem_append.1 hx with hx | hx
    · exact coll.reached x hx
    · exact .head step (coll'.reached x hx)

/-- The node itself comes first. -/
theorem Collects.cons (unassigned : node ∉ s.assigned)
    (coll : Collects g node ⟨insert node s.assigned, s.component ++ [node]⟩ t new) :
    Collects g node s t (node :: new) := by
  constructor
  · rw [coll.component, List.append_assoc]
    rfl
  · intro x
    rw [coll.assigned, Finset.mem_insert, List.mem_cons, or_assoc, or_left_comm]
  · exact List.nodup_cons.2 ⟨fun hm => coll.fresh node hm (Finset.mem_insert_self _ _), coll.nodup⟩
  · intro x hx
    rcases List.mem_cons.1 hx with rfl | hx
    · exact unassigned
    · exact fun old => coll.fresh x hx (Finset.mem_insert_of_mem old)
  · intro x hx
    rcases List.mem_cons.1 hx with rfl | hx
    · exact .refl
    · exact coll.reached x hx

end Collects

theorem dfs2_spec {u : Finset ℕ} (closed : ∀ x ∈ u, ∀ y, g.Edge x y → y ∈ u) (fuel node : ℕ)
    (s : SecondSearch) (known : node ∈ u) (enough : (u \ s.assigned).card < fuel) :
    ∃ s' new, g.dfs2 fuel node s = some s' ∧ Collects g node s s' new ∧ node ∈ s'.assigned ∧
      ∀ x ∈ new, ∀ y, g.Edge x y → y ∈ s'.assigned := by
  induction fuel generalizing node s with
  | zero => exact absurd enough (Nat.not_lt_zero _)
  | succ fuel ih =>
    unfold dfs2
    split_ifs with assigned
    · exact ⟨s, [], rfl, collects_nil g node s, assigned, fun x hx => absurd hx List.not_mem_nil⟩
    obtain ⟨t, run, ⟨new, coll, closed_new⟩, done⟩ := foldlM_ensures
      (f := fun s edge => dfs2 g fuel edge.1 s) (l := g.neighbors node)
      (s := (⟨insert node s.assigned, s.component ++ [node]⟩ : SecondSearch))
      (P := fun done t => (∃ new, Collects g node ⟨insert node s.assigned, s.component ++ [node]⟩ t new ∧
          ∀ x ∈ new, ∀ y, g.Edge x y → y ∈ t.assigned) ∧ ∀ edge ∈ done, edge.1 ∈ t.assigned)
      ⟨⟨[], collects_nil g node _, by simp⟩, by simp⟩
      (by
        rintro before edge after split t ⟨⟨new, coll, closed_new⟩, done⟩
        have step : g.Edge node edge.1 := List.mem_map.2 ⟨edge, by simp [split], rfl⟩
        have less : (u \ t.assigned).card < fuel := by
          have marked : node ∈ t.assigned := coll.grown (Finset.mem_insert_self _ _)
          have grown : s.assigned ⊆ t.assigned := (Finset.subset_insert _ _).trans coll.grown
          have := card_sdiff_lt known assigned marked grown
          omega
        obtain ⟨t', more, run, coll', here, closed_more⟩ := ih edge.1 t (closed node known _ step) less
        refine ⟨t', run, ⟨new ++ more, coll.append step coll', fun x hx => ?_⟩,
          forall_mem_concat (fun e he => coll'.grown (done e he)) here⟩
        rcases List.mem_append.1 hx with hx | hx
        · exact fun y hy => coll'.grown (closed_new x hx y hy)
        · exact closed_more x hx)
    refine ⟨t, node :: new, run, coll.cons assigned, coll.grown (Finset.mem_insert_self _ _), fun x hx y hy => ?_⟩
    rcases List.mem_cons.1 hx with rfl | hx
    · obtain ⟨edge, he, rfl⟩ := List.mem_map.1 hy
      exact done edge he
    · exact closed_new x hx y hy

theorem reach_transpose {keys : List ℕ} (h : keys.Perm g.nodes) {a b : ℕ} :
    ReflTransGen (g.transpose keys).Edge a b ↔ ReflTransGen g.Edge b a := by
  have swapped : (g.transpose keys).Edge = Function.swap g.Edge := by
    funext a b
    exact propext (edge_transpose h)
  rw [swapped, Relation.reflTransGen_swap]

/-- What the second search takes from a node, when only whole classes are assigned and nothing else
unassigned reaches the node, is the class of the node. -/
theorem Collects.isClass {keys : List ℕ} (h : keys.Perm g.nodes) {node : ℕ} {s s' : SecondSearch}
    {new : List ℕ} (coll : Collects (g.transpose keys) node s s' new) (unassigned : node ∉ s.assigned)
    (here : node ∈ s'.assigned)
    (closed : ∀ x ∈ new, ∀ y, (g.transpose keys).Edge x y → y ∈ s'.assigned)
    (classes : ∀ x ∈ s.assigned, ∀ y, Mutual g.Edge x y → y ∈ s.assigned)
    (last : ∀ x, x ∉ s.assigned → ReflTransGen g.Edge x node → Mutual g.Edge x node) (b : ℕ) :
    b ∈ new ↔ Mutual g.Edge node b := by
  constructor
  · exact fun hb => (last b (coll.fresh b hb) ((reach_transpose h).1 (coll.reached b hb))).symm
  · intro both
    have walk : ∀ z, ReflTransGen (g.transpose keys).Edge node z →
        ReflTransGen (g.transpose keys).Edge z b → z ∈ new := by
      intro z hz
      induction hz with
      | refl => exact fun _ => ((coll.assigned node).1 here).resolve_left unassigned
      | tail front step ih =>
        intro back
        have inside := ih (.head step back)
        refine ((coll.assigned _).1 (closed _ inside _ step)).resolve_left fun old => unassigned ?_
        have between : Mutual g.Edge node _ :=
          ⟨both.1.trans ((reach_transpose h).1 back), (reach_transpose h).1 (front.tail step)⟩
        exact classes _ old node between.symm
    exact walk b ((reach_transpose h).2 both.2) .refl

/-- One round of the second search, when nothing else that is unassigned reaches its node. -/
theorem takeComponent_spec {keys : List ℕ} (h : keys.Perm g.nodes) {node : ℕ} {assigned : Finset ℕ}
    {sccs : List (List ℕ)} (ok : SortedClasses g.Edge {x | x ∈ assigned} sccs) (known : assigned ⊆ g.appearing)
    (mine : node ∈ g.appearing)
    (last : ∀ x, x ∉ assigned → ReflTransGen g.Edge x node → Mutual g.Edge x node) :
    ∃ st, (g.transpose keys).takeComponent g.searchDepth (assigned, sccs) node = some st ∧
      SortedClasses g.Edge {x | x ∈ st.1} st.2 ∧ st.1 ⊆ g.appearing ∧ assigned ⊆ st.1 ∧ node ∈ st.1 := by
  unfold takeComponent
  split_ifs with old
  · exact ⟨_, rfl, ok, known, subset_rfl, old⟩
  have closed : ∀ x ∈ g.appearing, ∀ y, (g.transpose keys).Edge x y → y ∈ g.appearing :=
    fun x _ y edge => appearing_of_edge_left ((edge_transpose h).1 edge)
  have enough : (g.appearing \ assigned).card < g.searchDepth :=
    Nat.lt_succ_of_le (Finset.card_le_card Finset.sdiff_subset)
  obtain ⟨s', new, run, coll, here, inside⟩ :=
    dfs2_spec closed g.searchDepth node ⟨assigned, []⟩ mine enough
  have isClass := coll.isClass h old here inside (fun x hx y hxy => ok.mem_of_mutual hx hxy) last
  have component : s'.component = new := coll.component
  refine ⟨(s'.assigned, sccs ++ [sortNodes s'.component]), by rw [run]; rfl, ?_, fun x hx => ?_, coll.grown, here⟩
  · have sorted : (sortNodes s'.component).Pairwise (· < ·) := sortNodes_strict (component ▸ coll.nodup)
    have grown := ok.concat sorted (fun b => by rw [mem_sortNodes, component, isClass b]) old
    have same : {x | x ∈ s'.assigned} = {x | x ∈ assigned} ∪ {b | b ∈ sortNodes s'.component} := by
      ext x
      show x ∈ s'.assigned ↔ x ∈ assigned ∨ x ∈ sortNodes s'.component
      rw [coll.assigned x, mem_sortNodes, component]
    exact same ▸ grown
  · rcases (coll.assigned x).1 hx with hx | hx
    · exact known hx
    · exact mem_of_reach closed mine (coll.reached x hx)

/-- Kosaraju's algorithm returns the classes of mutual reachability of all nodes. -/
theorem kosarajuScc_spec (g : Graph W) {keys : List ℕ} (h : keys.Perm g.nodes) :
    ∃ sccs, g.kosarajuScc keys = some sccs ∧ SortedClasses g.Edge {x | x ∈ g.appearing} sccs := by
  obtain ⟨order, first, nodup, finish, whole⟩ := g.finishingOrder_spec
  obtain ⟨⟨assigned, sccs⟩, second, ok, known, done⟩ := foldlM_ensures
    (f := (g.transpose keys).takeComponent g.searchDepth) (l := order.reverse)
    (s := (∅, [])) (P := fun done st => SortedClasses g.Edge {x | x ∈ st.1} st.2 ∧ st.1 ⊆ g.appearing ∧
      ∀ x ∈ done, x ∈ st.1)
    ⟨by simpa using sortedClasses_nil, Finset.empty_subset _, by simp⟩
    (by
      rintro before node after split ⟨assigned, sccs⟩ ⟨ok, known, done⟩
      dsimp only at ok known done
      have ordered : order = after.reverse ++ node :: before.reverse := by
        have reversed := congrArg List.reverse split
        simpa using reversed
      have mine : node ∈ g.appearing := (whole node).1 (by simp [ordered])
      have last : ∀ x, x ∉ assigned → ReflTransGen g.Edge x node → Mutual g.Edge x node := by
        intro x hx reach
        refine FinishOrder.mutual_of_reach (ordered ▸ finish) (ordered ▸ nodup) (fun y hy => ?_)
          (fun y hy => done y (List.mem_reverse.1 hy)) (fun x hx y hxy => ok.mem_of_mutual hx hxy) hx reach
        rw [← ordered, whole]
        rcases hy.cases_head with rfl | ⟨z, step, -⟩
        · exact mine
        · exact appearing_of_edge_left step
      obtain ⟨st, run, ok', known', grown, here⟩ := takeComponent_spec h ok known mine last
      exact ⟨st, run, ok', known', forall_mem_concat (fun x hx => grown (done x hx)) here⟩)
  refine ⟨sccs, ?_, ?_⟩
  · rw [kosarajuScc, first]
    show Option.bind (order.reverse.foldlM _ _) _ = _
    rw [second]
    rfl
  · have all : {x | x ∈ g.appearing} = {x | x ∈ assigned} := by
      ext x
      exact ⟨fun hx => done x (List.mem_reverse.2 ((whole x).2 hx)), fun hx => known hx⟩
    exact all ▸ ok

end Graph

end TORdex
