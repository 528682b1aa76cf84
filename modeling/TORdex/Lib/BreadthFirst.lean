import Mathlib.Data.Finset.Card
import Mathlib.Data.Nat.Find
import Mathlib.Logic.Relation
import TORdex.Lib.Loops

/-!
# Breadth-first search

A search from several sources lists nodes with their distances.  The list is in the order of the distances,
and the entries of the queue are the end of it; so a node that is listed for the first time is one step
further away than the node whose successor it is.  Entries need not be expanded beyond some distance.
-/

open Relation (ReflTransGen)

namespace BreadthFirst

variable {V : Type*}

/-! ## Distances -/

section Distance

variable {r : V → V → Prop} {sources : Set V} {v : V} {m n : ℕ}

/-- So many steps lead from a source to the node. -/
def Reach (r : V → V → Prop) (sources : Set V) : ℕ → V → Prop
  | 0, v => v ∈ sources
  | n + 1, v => ∃ u, Reach r sources n u ∧ r u v

/-- The least number of steps from a source. -/
structure IsDistance (r : V → V → Prop) (sources : Set V) (v : V) (n : ℕ) : Prop where
  reach : Reach r sources n v
  least : ∀ m, Reach r sources m v → n ≤ m

theorem IsDistance.unique (h : IsDistance r sources v n) (h' : IsDistance r sources v m) : n = m :=
  le_antisymm (h.least m h'.reach) (h'.least n h.reach)

theorem isDistance_source (h : v ∈ sources) : IsDistance r sources v 0 := ⟨h, fun _ _ => Nat.zero_le _⟩

theorem exists_isDistance (h : Reach r sources n v) : ∃ m ≤ n, IsDistance r sources v m := by
  classical
  have some : ∃ n, Reach r sources n v := ⟨n, h⟩
  exact ⟨Nat.find some, Nat.find_min' some h, Nat.find_spec some, fun m hm => Nat.find_min' some hm⟩

theorem exists_reach_iff {a : V} : (∃ n, Reach r {a} n v) ↔ ReflTransGen r a v := by
  constructor
  · rintro ⟨n, h⟩
    induction n generalizing v with
    | zero => exact Set.mem_singleton_iff.1 h ▸ .refl
    | succ n ih =>
      obtain ⟨u, hu, step⟩ := h
      exact (ih hu).tail step
  · intro h
    induction h with
    | refl => exact ⟨0, rfl⟩
    | tail _ step ih =>
      obtain ⟨n, hn⟩ := ih
      exact ⟨n + 1, _, hn, step⟩

end Distance

/-! ## The search -/

/-- Entries are nodes with a distance: those that were taken from the queue, those in it, and those that were
put into it after the sources. -/
structure Search (V : Type*) where
  visited : Finset V
  done : List (V × ℕ)
  queue : List (V × ℕ)
  found : List (V × ℕ)

section Model

variable [DecidableEq V]

/-- The search before its first round. -/
def start (sources : List V) : Search V := ⟨sources.toFinset, [], sources.map (·, 0), []⟩

/-- Take a node up that has not been visited. -/
def Search.discover (d : ℕ) (s : Search V) (v : V) : Search V :=
  if v ∈ s.visited then s
  else { s with
    visited := insert v s.visited
    queue := s.queue ++ [(v, d)]
    found := s.found ++ [(v, d)] }

/-- The successors of a node that was taken from the queue. -/
def Search.expand (next : V → List V) (deeper : ℕ → Bool) (s : Search V) (e : V × ℕ) : Search V :=
  if deeper e.2 then (next e.1).foldl (Search.discover (e.2 + 1)) s else s

/-- Take a node out of the queue and its successors up. -/
def round (next : V → List V) (deeper : ℕ → Bool) (s : Search V) : Option (Search V ⊕ Search V) :=
  match s.queue with
  | [] => some (.inl s)
  | e :: queue => some (.inr ({ s with done := s.done ++ [e], queue }.expand next deeper e))

end Model

/-! ## What holds throughout -/

/-- The entries, and what they say. -/
structure Shape (next : V → List V) (deeper : ℕ → Bool) (sources : List V) (s : Search V) : Prop where
  listed : s.done ++ s.queue = sources.map (·, 0) ++ s.found
  visited : ∀ v, v ∈ s.visited ↔ v ∈ sources ∨ v ∈ s.found.map Prod.fst
  nodup : (s.found.map Prod.fst).Nodup
  fresh : ∀ e ∈ s.found, e.1 ∉ sources
  distance : ∀ e ∈ s.found, IsDistance (fun u v => v ∈ next u) {v | v ∈ sources} e.1 e.2
  deep : ∀ e ∈ s.found, ∃ d, e.2 = d + 1 ∧ deeper d = true
  sorted : ((s.done ++ s.queue).map Prod.snd).Pairwise (· ≤ ·)

/-- While entries at a distance are expanded, those that are listed are at most one step further away, and
those in the queue are not nearer. -/
structure Level (d : ℕ) (s : Search V) : Prop where
  found : ∀ e ∈ s.found, e.2 ≤ d + 1
  queue : ∀ e ∈ s.queue, d ≤ e.2

/-- What was taken from the queue has been expanded. -/
def Expanded (next : V → List V) (deeper : ℕ → Bool) (s : Search V) : Prop :=
  ∀ e ∈ s.done, deeper e.2 = true → ∀ w ∈ next e.1, w ∈ s.visited

variable {next : V → List V} {deeper : ℕ → Bool} {sources : List V} {s : Search V} {v : V} {d : ℕ}

theorem Shape.isDistance (h : Shape next deeper sources s) {e : V × ℕ} (he : e ∈ s.done ++ s.queue) :
    IsDistance (fun u v => v ∈ next u) {v | v ∈ sources} e.1 e.2 := by
  rw [h.listed, List.mem_append] at he
  rcases he with source | found
  · obtain ⟨a, ha, rfl⟩ := List.mem_map.1 source
    exact isDistance_source ha
  · exact h.distance e found

theorem Shape.mem_visited_iff (h : Shape next deeper sources s) :
    v ∈ s.visited ↔ ∃ n, (v, n) ∈ s.done ++ s.queue := by
  simp only [h.visited, h.listed, List.mem_append, exists_or, List.mem_map, Prod.exists, exists_and_right,
    exists_eq_right, Prod.mk.injEq]
  refine or_congr_left ⟨fun hv => ⟨0, v, hv, rfl, rfl⟩, ?_⟩
  rintro ⟨_, _, hv, rfl, -⟩
  exact hv

/-- Finitely many nodes can be reached. -/
theorem Reach.mem {nodes : Set V} (closed : ∀ u ∈ nodes, ∀ w ∈ next u, w ∈ nodes)
    (known : ∀ u ∈ sources, u ∈ nodes) {n : ℕ}
    (h : Reach (fun u v => v ∈ next u) {v | v ∈ sources} n v) : v ∈ nodes := by
  induction n generalizing v with
  | zero => exact known v h
  | succ n ih =>
    obtain ⟨u, hu, step⟩ := h
    exact closed u (ih hu) v step

theorem Shape.visited_subset (h : Shape next deeper sources s) {nodes : Finset V}
    (closed : ∀ u ∈ nodes, ∀ w ∈ next u, w ∈ nodes) (known : ∀ u ∈ sources, u ∈ nodes) :
      s.visited ⊆ nodes := by
  intro v hv
  obtain ⟨n, listed⟩ := h.mem_visited_iff.1 hv
  show v ∈ {v | v ∈ nodes}
  exact (h.isDistance listed).reach.mem closed known

section Steps

variable [DecidableEq V]

theorem shape_start (next : V → List V) (deeper : ℕ → Bool) (sources : List V) :
    Shape next deeper sources (start sources) where
  listed := by simp [start]
  visited := by simp [start]
  nodup := List.nodup_nil
  fresh _ h := absurd h List.not_mem_nil
  distance _ h := absurd h List.not_mem_nil
  deep _ h := absurd h List.not_mem_nil
  sorted := by
    have zeros : ((start sources).done ++ (start sources).queue).map Prod.snd = sources.map fun _ => 0 := by
      simp [start, Function.comp_def]
    rw [zeros, List.pairwise_map]
    exact List.pairwise_of_forall fun _ _ => le_rfl

/-- A new entry at the end. -/
theorem Shape.discover (h : Shape next deeper sources s) (level : Level d s) (deep : deeper d = true)
    (distance : v ∉ s.visited → IsDistance (fun u v => v ∈ next u) {v | v ∈ sources} v (d + 1)) :
    Shape next deeper sources (s.discover (d + 1) v) ∧ Level d (s.discover (d + 1) v) := by
  unfold Search.discover
  split_ifs with old
  · exact ⟨h, level⟩
  obtain ⟨unlisted, unfound⟩ := not_or.1 (mt (h.visited v).2 old)
  refine ⟨⟨?_, fun w => ?_, ?_, ?_, ?_, ?_, ?_⟩, ?_, ?_⟩
  · rw [← List.append_assoc, h.listed, List.append_assoc]
  · rw [Finset.mem_insert, h.visited, List.map_append, List.mem_append, List.map_singleton,
      List.mem_singleton]
    tauto
  · rw [List.map_append, List.nodup_append]
    refine ⟨h.nodup, List.nodup_singleton _, fun a ha b hb same => unfound ?_⟩
    obtain rfl : b = v := List.mem_singleton.1 hb
    exact same ▸ ha
  · simpa [or_imp, forall_and] using ⟨fun a n => h.fresh (a, n), unlisted⟩
  · simpa [or_imp, forall_and] using ⟨fun a n => h.distance (a, n), distance old⟩
  · simpa [or_imp, forall_and] using ⟨fun a n => h.deep (a, n), deep⟩
  · rw [← List.append_assoc, List.map_append, List.pairwise_append]
    refine ⟨h.sorted, List.pairwise_singleton _ _, fun a ha b hb => ?_⟩
    obtain rfl : b = d + 1 := List.mem_singleton.1 hb
    rw [h.listed, List.map_append, List.map_map, List.mem_append] at ha
    rcases ha with source | found
    · obtain ⟨_, _, rfl⟩ := List.mem_map.1 source
      exact Nat.zero_le _
    · obtain ⟨e, he, rfl⟩ := List.mem_map.1 found
      exact level.found e he
  · simpa [or_imp, forall_and] using fun a n => level.found (a, n)
  · simpa [or_imp, forall_and] using fun a n => level.queue (a, n)

/-- The successors of an entry at the distance `d`, which is listed. -/
theorem Shape.foldl_discover (h : Shape next deeper sources s) (level : Level d s) (deep : deeper d = true)
    (ws : List V)
    (distance : ∀ w ∈ ws, w ∉ s.visited → IsDistance (fun u v => v ∈ next u) {v | v ∈ sources} w (d + 1)) :
    Shape next deeper sources (ws.foldl (Search.discover (d + 1)) s) ∧
      Level d (ws.foldl (Search.discover (d + 1)) s) ∧
      (ws.foldl (Search.discover (d + 1)) s).done = s.done ∧
      ∀ w, w ∈ (ws.foldl (Search.discover (d + 1)) s).visited ↔ w ∈ s.visited ∨ w ∈ ws := by
  induction ws generalizing s with
  | nil => exact ⟨h, level, rfl, fun w => by simp⟩
  | cons w ws ih =>
    obtain ⟨shape, near⟩ := h.discover level deep (distance w List.mem_cons_self)
    have visited : ∀ x, x ∈ (s.discover (d + 1) w).visited ↔ x ∈ s.visited ∨ x = w := by
      intro x
      unfold Search.discover
      split_ifs with old
      · refine (or_iff_left_of_imp ?_).symm
        rintro rfl
        exact old
      · rw [Finset.mem_insert, or_comm]
    have done : (s.discover (d + 1) w).done = s.done := by
      unfold Search.discover
      split_ifs <;> rfl
    obtain ⟨shape', near', done', visited'⟩ := ih shape near fun x hx unseen =>
      distance x (List.mem_cons_of_mem _ hx) fun old => unseen ((visited x).2 (.inl old))
    refine ⟨shape', near', done'.trans done, fun x => ?_⟩
    rw [List.foldl_cons, visited', visited, List.mem_cons, or_assoc]

/-- Every visit puts one entry into the queue. -/
theorem length_foldl_discover (s : Search V) (d : ℕ) (ws : List V) :
    (ws.foldl (Search.discover d) s).queue.length + s.visited.card =
      s.queue.length + (ws.foldl (Search.discover d) s).visited.card := by
  induction ws generalizing s with
  | nil => rfl
  | cons w ws ih =>
    have one : (s.discover d w).queue.length + s.visited.card =
        s.queue.length + (s.discover d w).visited.card := by
      unfold Search.discover
      split_ifs with old
      · rfl
      · rw [Finset.card_insert_of_notMem old, List.length_append, List.length_singleton]
        omega
    have rest := ih (s.discover d w)
    rw [List.foldl_cons]
    omega

/-- Where nothing in the queue is nearer, what can be reached within the distance has been visited. -/
theorem Shape.visited_of_reach (h : Shape next deeper sources s) (expanded : Expanded next deeper s)
    (queue : ∀ e ∈ s.queue, d ≤ e.2) {m : ℕ} (within : m ≤ d) (deep : ∀ i < m, deeper i = true)
    (reach : Reach (fun u v => v ∈ next u) {v | v ∈ sources} m v) : v ∈ s.visited := by
  induction m generalizing v with
  | zero => exact (h.visited v).2 (.inl reach)
  | succ m ih =>
    obtain ⟨u, hu, step⟩ := reach
    obtain ⟨n, listed⟩ := h.mem_visited_iff.1 (ih (Nat.le_of_succ_le within)
      (fun i hi => deep i (Nat.lt_succ_of_lt hi)) hu)
    have near : n ≤ m := (h.isDistance listed).least m hu
    rcases List.mem_append.1 listed with done | queued
    · exact expanded _ done (deep n (Nat.lt_succ_of_le near)) v step
    · have := queue _ queued
      dsimp only at this
      omega

/-- What holds between two rounds. -/
structure Inv (next : V → List V) (deeper : ℕ → Bool) (sources : List V) (s : Search V) : Prop where
  shape : Shape next deeper sources s
  expanded : Expanded next deeper s
  near : ∀ e ∈ s.found, ∀ e' ∈ s.queue, e.2 ≤ e'.2 + 1

theorem inv_start (next : V → List V) (deeper : ℕ → Bool) (sources : List V) :
    Inv next deeper sources (start sources) :=
  ⟨shape_start next deeper sources, fun _ h => absurd h List.not_mem_nil, fun _ h =>
    absurd h List.not_mem_nil⟩

/-- A round keeps the invariant.  The node is one of the nearest that are left, so its successors were not in
reach before. -/
theorem Inv.step (inv : Inv next deeper sources s)
    (antitone : ∀ m n, m ≤ n → deeper n = true → deeper m = true)
    {e : V × ℕ} {queue : List (V × ℕ)} (head : s.queue = e :: queue) :
    Inv next deeper sources ({ s with done := s.done ++ [e], queue }.expand next deeper e) := by
  have shape : Shape next deeper sources { s with done := s.done ++ [e], queue } := by
    have same : s.done ++ [e] ++ queue =
      s.done ++ s.queue := by rw [head, List.append_assoc, List.singleton_append]
    exact ⟨same.trans inv.shape.listed, inv.shape.visited, inv.shape.nodup, inv.shape.fresh,
      inv.shape.distance,
      inv.shape.deep, same ▸ inv.shape.sorted⟩
  have least : ∀ e' ∈ s.queue, e.2 ≤ e'.2 := by
    have sorted := inv.shape.sorted
    rw [head, List.map_append, List.pairwise_append, List.map_cons, List.pairwise_cons] at sorted
    intro e' he'
    rw [head] at he'
    rcases List.mem_cons.1 he' with rfl | he'
    · exact le_rfl
    · exact sorted.2.1.1 _ (List.mem_map_of_mem he')
  have level : Level e.2 { s with done := s.done ++ [e], queue } := by
    refine ⟨fun e' he' => inv.near e' he' e (head ▸ List.mem_cons_self), fun e' he' => least e' ?_⟩
    rw [head]
    exact List.mem_cons_of_mem _ he'
  unfold Search.expand
  split_ifs with deep
  · have distance : ∀ w ∈ next e.1, w ∉ s.visited →
        IsDistance (fun u v => v ∈ next u) {v | v ∈ sources} w (e.2 + 1) := by
      intro w hw unseen
      have here : e ∈ s.done ++ s.queue := by simp [head]
      refine ⟨⟨e.1, (inv.shape.isDistance here).reach, hw⟩, fun m reach => Nat.lt_of_not_le fun le =>
        unseen ?_⟩
      exact inv.shape.visited_of_reach inv.expanded least le
        (fun i hi => antitone i e.2 (hi.le.trans le) deep) reach
    obtain ⟨shape', level', done, visited⟩ := shape.foldl_discover level deep (next e.1) distance
    refine ⟨shape', fun e' he' deep' w hw => (visited w).2 ?_, fun a ha b hb => ?_⟩
    · rw [done] at he'
      rcases List.mem_append.1 he' with old | new
      · exact .inl (inv.expanded e' old deep' w hw)
      · obtain rfl := List.mem_singleton.1 new
        exact .inr hw
    · exact (level'.found a ha).trans (Nat.succ_le_succ (level'.queue b hb))
  · refine ⟨shape, fun e' he' deep' w hw => ?_, fun a ha b hb =>
      (level.found a ha).trans (Nat.succ_le_succ (level.queue b hb))⟩
    rcases List.mem_append.1 he' with old | new
    · exact inv.expanded e' old deep' w hw
    · obtain rfl := List.mem_singleton.1 new
      exact absurd deep' deep

/-! ## The end of the search -/

/-- The search ends, and lists the nodes beyond the sources in the order of their distances. -/
theorem search_returns (next : V → List V) (deeper : ℕ → Bool) (sources : List V)
    (antitone : ∀ m n, m ≤ n → deeper n = true → deeper m = true) (nodes : Finset V)
    (closed : ∀ u ∈ nodes, ∀ w ∈ next u, w ∈ nodes) (known : ∀ u ∈ sources, u ∈ nodes) :
    ∃ s, Loops.Returns (round next deeper) (start sources) s ∧ Shape next deeper sources s ∧ s.queue = [] ∧
      ∀ v n, (v, n + 1) ∈ s.found ↔
        IsDistance (fun u v => v ∈ next u) {v | v ∈ sources} v (n + 1) ∧ deeper n = true := by
  have keeps : ∀ s, Inv next deeper sources s → (∃ last, round next deeper s = some (.inl last)) ∨
      ∃ t, round next deeper s = some (.inr t) ∧ Inv next deeper sources t ∧
        t.queue.length + (nodes.card - t.visited.card) < s.queue.length + (nodes.card - s.visited.card) := by
    intro s inv
    unfold round
    cases head : s.queue with
    | nil => exact .inl ⟨s, rfl⟩
    | cons e queue =>
      have inv' := inv.step antitone head
      refine .inr ⟨_, rfl, inv', ?_⟩
      have small := Finset.card_le_card (inv'.shape.visited_subset closed known)
      have small' := Finset.card_le_card (inv.shape.visited_subset closed known)
      rw [List.length_cons]
      unfold Search.expand at small ⊢
      split_ifs at small ⊢
      · have count := length_foldl_discover { s with done := s.done ++ [e], queue } (e.2 + 1) (next e.1)
        dsimp only at count
        omega
      · exact Nat.add_lt_add_right (Nat.lt_succ_self _) _
  obtain ⟨s, last, inv, ends, returns⟩ := Loops.exists_returns
    (measure fun s : Search V => s.queue.length + (nodes.card - s.visited.card)).wf keeps (start sources)
    (inv_start next deeper sources)
  have empty : s.queue = [] ∧ last = s := by
    unfold round at ends
    cases head : s.queue with
    | nil => simpa [head, eq_comm] using ends
    | cons e queue => simp [head] at ends
  obtain ⟨empty, rfl⟩ := empty
  refine ⟨last, returns, inv.shape, empty, fun v n => ⟨fun hv => ⟨inv.shape.distance _ hv, ?_⟩, ?_⟩⟩
  · obtain ⟨d, same, deep⟩ := inv.shape.deep _ hv
    exact Nat.succ.inj same ▸ deep
  · rintro ⟨distance, deep⟩
    have visited := inv.shape.visited_of_reach inv.expanded (d := n + 1) (by simp [empty]) le_rfl
      (fun i hi => antitone i n (Nat.le_of_lt_succ hi) deep) distance.reach
    rcases (inv.shape.visited v).1 visited with source | found
    · exact absurd (distance.unique (isDistance_source source)) (Nat.succ_ne_zero n)
    · obtain ⟨e, he, rfl⟩ := List.mem_map.1 found
      exact distance.unique (inv.shape.distance e he) ▸ he

end Steps

end BreadthFirst
