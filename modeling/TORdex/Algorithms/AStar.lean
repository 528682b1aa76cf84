import TORdex.Algorithms.ShortestPaths
import TORdex.Lib.BestFirst

/-!
# A*

A node may be taken again when a better score was found for it, and entries that are out of date are expanded
with the newest score; nothing more than that it never overestimates is asked of the heuristic.

* `AStar.round`: what a round of the loop does.
* `aStar_shortest`: the cost is the least, and the links lead back along a path of that cost.
* `aStar_any`: with any heuristic the loops end, and the cost is the least exactly if the heuristic favours a
  walk of least cost.
-/

namespace TORdex.Graph

open BestFirst FiniteMap LabelCorrecting WeightedWalks

/-! ## The model -/

/-- The variables of `a_star`. -/
structure AStar where
  openSet : List (ℚ × ℕ)
  gScore : HashMap ℕ ℚ
  cameFrom : HashMap ℕ ℕ

/-- The body of the loop over the neighbours of a node. -/
def AStar.relax (heuristic : ℕ → ℕ → ℚ) (goal current : ℕ) (currentG : ℚ) (s : AStar) (edge : ℕ × ℚ) : AStar :=
  let tentativeG := currentG + edge.2
  let isBetter := match s.gScore.lookup edge.1 with
    | none => true
    | some score => decide (tentativeG < score)
  if isBetter then
    ⟨(tentativeG + heuristic edge.1 goal, edge.1) :: s.openSet, s.gScore.insert edge.1 tentativeG,
      s.cameFrom.insert edge.1 current⟩
  else s

/-- A round of the loop of `a_star`: it ends with the variables when the goal is taken, and with nothing when
the heap is empty.  `g_score[&current]` panics where there is no score. -/
def aStarRound (g : Graph ℚ) (heuristic : ℕ → ℕ → ℚ) (goal : ℕ) (s : AStar) : Option (Option AStar ⊕ AStar) :=
  match pop s.openSet with
  | none => some (.inl none)
  | some ((_, current), openSet) =>
    let s := { s with openSet }
    if current = goal then some (.inl (some s))
    else (s.gScore.lookup current).map fun currentG =>
      .inr ((g.neighbors current).foldl (AStar.relax heuristic goal current currentG) s)

/-- A path of least cost with its cost, if there is one. -/
def aStar (fuel : ℕ) (g : Graph ℚ) (start goal : ℕ) (heuristic : ℕ → ℕ → ℚ) :
    Option (Option (ℚ × List ℕ)) := do
  let init : AStar := ⟨[(heuristic start goal, start)], Finmap.insert start 0 ∅, ∅⟩
  let found ← Loops.run (g.aStarRound heuristic goal) fuel init
  match found with
  | none => return none
  | some s =>
    let path ← Loops.run (backRound s.cameFrom.lookup fun _ => false) fuel (goal, [goal])
    let cost ← s.gScore.lookup goal
    return some (cost, path)

theorem aStar_of_le {fuel fuel' : ℕ} {g : Graph ℚ} {start goal : ℕ} {heuristic : ℕ → ℕ → ℚ}
    {result : Option (ℚ × List ℕ)} (ran : g.aStar fuel start goal heuristic = some result) (le : fuel ≤ fuel') :
    g.aStar fuel' start goal heuristic = some result := by
  unfold aStar at ran ⊢
  obtain ⟨found, ends, rest⟩ := Option.bind_eq_some_iff.1 ran
  simp only [Option.bind_eq_bind, Loops.run_of_le ends le, Option.bind_some]
  cases found with
  | none => exact rest
  | some s =>
    obtain ⟨path, back, rest⟩ := Option.bind_eq_some_iff.1 rest
    simp only [Loops.run_of_le back le, Option.bind_some]
    exact rest

/-! ## The search -/

namespace AStar

/-- The labels, the links and the heap. -/
def search (s : AStar) : Search ℕ ℚ := ⟨s.gScore.lookup, s.cameFrom.lookup, s.openSet⟩

variable {g : Graph ℚ} {heuristic : ℕ → ℕ → ℚ} {start goal current : ℕ} {currentG : ℚ} {s : AStar}

theorem search_start (heuristic : ℕ → ℕ → ℚ) (start goal : ℕ) :
    (AStar.mk [(heuristic start goal, start)] (Finmap.insert start 0 ∅) ∅).search =
      .start (fun node => heuristic node goal) start := by
  unfold search Search.start
  congr 1
  exact (comp_lookup_insert id ∅ start 0).trans (by simp)

theorem search_relax (edge : ℕ × ℚ) : (s.relax heuristic goal current currentG edge).search =
    s.search.relax (fun node => heuristic node goal) current currentG edge := by
  have better : (∀ old ∈ s.search.label edge.1, currentG + edge.2 < old) ↔
      (match s.gScore.lookup edge.1 with
        | none => true
        | some score => decide (currentG + edge.2 < score)) = true := by
    have label : s.search.label edge.1 = s.gScore.lookup edge.1 := rfl
    rw [label]
    cases s.gScore.lookup edge.1 <;> simp
  unfold relax Search.relax
  simp only [better]
  split_ifs
  · unfold search Search.improve
    congr 1
    · exact comp_lookup_insert id s.gScore edge.1 (currentG + edge.2)
    · exact comp_lookup_insert id s.cameFrom edge.1 current
  · rfl

theorem search_foldl (edges : List (ℕ × ℚ)) :
    (edges.foldl (relax heuristic goal current currentG) s).search =
      s.search.expand (fun node => heuristic node goal) current currentG edges := by
  induction edges generalizing s with
  | nil => rfl
  | cons edge edges ih => exact ih.trans (congrArg (Search.expand _ current currentG edges) (search_relax edge))

/-- The invariant of the loop: the goal is never expanded. -/
def Valid (g : Graph ℚ) (heuristic : ℕ → ℕ → ℚ) (start goal : ℕ) (s : AStar) : Prop :=
  Inv g.neighbors (fun node => heuristic node goal) start (· = goal) s.search

theorem valid_start (g : Graph ℚ) (heuristic : ℕ → ℕ → ℚ) (start goal : ℕ) :
    Valid g heuristic start goal ⟨[(heuristic start goal, start)], Finmap.insert start 0 ∅, ∅⟩ := by
  rw [Valid, search_start]
  exact inv_start ..

/-- A round ends the loop when the heap is empty, or when a least entry is one for the goal; else it keeps the
invariant and leads down. -/
theorem round (nonneg : g.NonNegative) (inv : Valid g heuristic start goal s) :
    s.search.heap = 0 ∧ g.aStarRound heuristic goal s = some (.inl none) ∨
    (∃ e ∈ s.search.heap, e.2 = goal ∧ (∀ e' ∈ s.search.heap, toLex e ≤ toLex e') ∧
      ∃ last, g.aStarRound heuristic goal s = some (.inl (some last)) ∧ last.search = s.search.take e) ∨
    ∃ next, g.aStarRound heuristic goal s = some (.inr next) ∧ Valid g heuristic start goal next ∧
      g.Descends next.search s.search := by
  unfold aStarRound
  cases popped : pop s.openSet with
  | none => exact .inl ⟨congrArg _ (pop_eq_none.1 popped), rfl⟩
  | some taken =>
    obtain ⟨⟨key, current⟩, openSet⟩ := taken
    obtain ⟨entry, least, rest⟩ := pop_eq_some popped
    have entry' : (key, current) ∈ s.search.heap := entry
    have take : ({ s with openSet } : AStar).search = s.search.take (key, current) :=
      congrArg (Search.mk s.search.label s.search.parent) rest
    refine .inr ?_
    simp only
    split_ifs with atGoal
    · exact .inl ⟨(key, current), entry', atGoal, least, _, rfl, take⟩
    · obtain ⟨score, labelled, -⟩ := inv.sound.keys _ entry'
      have found : s.gScore.lookup current = some score := labelled
      refine .inr ⟨_, by rw [found, Option.map_some], ?_⟩
      rw [Valid, search_foldl, take]
      exact expand_descends nonneg inv entry' atGoal labelled

end AStar

/-! ## The result -/

section Results

variable {g : Graph ℚ} {heuristic : ℕ → ℕ → ℚ} (start : ℕ) {goal : ℕ}

/-- The loop ends: without a result when the goal is not reached, and else when a least entry is one for it. -/
theorem aStar_ends (nonneg : g.NonNegative) :
    ∃ found, Loops.Returns (g.aStarRound heuristic goal)
        ⟨[(heuristic start goal, start)], Finmap.insert start 0 ∅, ∅⟩ found ∧
      (found = none ∧ (¬∃ x, Walk g.neighbors start goal x) ∨
        ∃ s last, found = some last ∧ AStar.Valid g heuristic start goal s ∧
          ∃ e ∈ s.search.heap, e.2 = goal ∧ (∀ e' ∈ s.search.heap, toLex e ≤ toLex e') ∧
            last.search = s.search.take e) := by
  have keeps : ∀ s, AStar.Valid g heuristic start goal s →
      (∃ found, g.aStarRound heuristic goal s = some (.inl found)) ∨
        ∃ next, g.aStarRound heuristic goal s = some (.inr next) ∧
          AStar.Valid g heuristic start goal next ∧ g.Descends next.search s.search := by
    intro s inv
    rcases AStar.round nonneg inv with ⟨-, ends⟩ | ⟨_, _, _, _, _, ends, -⟩ | goesOn
    · exact .inl ⟨none, ends⟩
    · exact .inl ⟨_, ends⟩
    · exact .inr goesOn
  obtain ⟨s, found, inv, ends, returns⟩ :=
    Loops.exists_returns (wellFounded_descends nonneg AStar.search) keeps _ (AStar.valid_start g heuristic start goal)
  refine ⟨found, returns, ?_⟩
  rcases AStar.round nonneg inv with ⟨empty, ends'⟩ | ⟨e, entry, here, least, last, ends', take⟩ | ⟨_, goesOn, -⟩
  · obtain rfl : none = found := by simpa [ends'] using ends
    exact .inl ⟨rfl, fun ⟨x, walk⟩ => inv.not_walk empty rfl x walk⟩
  · obtain rfl : some _ = found := by simpa [ends'] using ends
    exact .inr ⟨s, last, rfl, inv, e, entry, here, least, take⟩
  · rw [goesOn] at ends
    cases ends

/-- The result has the score of the goal, which is the cost of some walk, and a path of this cost if that is the
distance. -/
theorem aStar_result (nonneg : g.NonNegative) :
    ∃ result, (∃ n, ∀ fuel ≥ n, g.aStar fuel start goal heuristic = some result) ∧
      (result = none ↔ ¬∃ x, Walk g.neighbors start goal x) ∧
      ∀ cost path, result = some (cost, path) →
        (IsDistance g.neighbors start goal cost → PathBetween g.neighbors start goal path cost) ∧
        ∃ s last, Loops.Returns (g.aStarRound heuristic goal)
            ⟨[(heuristic start goal, start)], Finmap.insert start 0 ∅, ∅⟩ (some last) ∧
          AStar.Valid g heuristic start goal s ∧ s.search.label goal = some cost ∧ last.gScore.lookup goal = some cost ∧
            ∃ e ∈ s.search.heap, e.2 = goal ∧ ∀ e' ∈ s.search.heap, toLex e ≤ toLex e' := by
  obtain ⟨found, ⟨n, returns⟩, unreached | ⟨s, last, rfl, inv, e, entry, here, least, take⟩⟩ :=
    @aStar_ends g heuristic start goal nonneg
  · obtain ⟨rfl, noWalk⟩ := unreached
    refine ⟨none, ⟨n, fun fuel enough => ?_⟩, by simp only [noWalk, not_false_iff], nofun⟩
    simp [aStar, returns fuel enough]
  · obtain ⟨cost, labelled, -⟩ := inv.sound.keys e entry
    rw [here] at labelled
    have kept : last.gScore.lookup goal = s.search.label goal := congrFun (congrArg Search.label take) goal
    have sound : Sound g.neighbors (fun node => heuristic node goal) start last.search := by
      rw [take]
      exact inv.sound.take e
    have early : ∀ node : ℕ, (fun _ : ℕ => false) node = true → node = start := by simp
    obtain ⟨path, traced, m, back⟩ := returns_back sound early
      (sound.rooted goal cost (kept.trans labelled)) [goal] (traced_goal (kept.trans labelled))
    have reached : ∃ x, Walk g.neighbors start goal x := ⟨cost, inv.sound.walk goal cost labelled⟩
    refine ⟨some (cost, path), ⟨max n m, fun fuel enough => ?_⟩, by simp only [reached, reduceCtorEq, not_true], ?_⟩
    · have ran := returns fuel ((le_max_left n m).trans enough)
      have led : Loops.run (backRound last.cameFrom.lookup fun _ => false) fuel (goal, [goal]) = some path :=
        back fuel ((le_max_right n m).trans enough)
      simp [aStar, ran, led, kept, labelled]
    · rintro _ _ ⟨⟩
      exact ⟨traced.path sound, s, last, ⟨n, returns⟩, inv, labelled, kept.trans labelled, e, entry, here, least⟩

theorem aStar_shortest (nonneg : g.NonNegative) (nonneg' : ∀ node, 0 ≤ heuristic node goal)
    (admissible : ∀ node x, Walk g.neighbors node goal x → heuristic node goal ≤ x) :
    ∃ result, (∃ n, ∀ fuel ≥ n, g.aStar fuel start goal heuristic = some result) ∧
      (result = none ↔ ¬∃ x, Walk g.neighbors start goal x) ∧
      ∀ cost path, result = some (cost, path) →
        IsDistance g.neighbors start goal cost ∧ PathBetween g.neighbors start goal path cost := by
  obtain ⟨result, returns, unreached, reached⟩ := @aStar_result g heuristic start goal nonneg
  refine ⟨result, returns, unreached, fun cost path found => ?_⟩
  obtain ⟨isPath, s, last, -, inv, labelled, -, e, entry, here, least⟩ := reached cost path found
  have best := inv.isDistance_of_least entry here (fun e' he' => priority_le (least e' he')) (nonneg' goal)
    admissible labelled
  exact ⟨best, isPath best⟩

/-- The entries that the loop takes are least ones. -/
theorem finds_of_run {fuel : ℕ} {s last : AStar} {cost : ℚ}
    (ran : Loops.run (g.aStarRound heuristic goal) fuel s = some (some last))
    (score : last.gScore.lookup goal = some cost) :
    Finds g.neighbors (fun node => heuristic node goal) goal s.search cost := by
  induction fuel generalizing s with
  | zero => cases ran
  | succ fuel ih =>
    unfold Loops.run aStarRound at ran
    cases popped : pop s.openSet with
    | none =>
      rw [popped] at ran
      cases ran
    | some taken =>
      obtain ⟨⟨priority, current⟩, openSet⟩ := taken
      obtain ⟨entry, least, rest⟩ := pop_eq_some popped
      have take : ({ s with openSet } : AStar).search = s.search.take (priority, current) :=
        congrArg (Search.mk s.search.label s.search.parent) rest
      simp only [popped] at ran
      split_ifs at ran with atGoal
      · obtain rfl : ({ s with openSet } : AStar) = last := by simpa using ran
        exact .goal (e := (priority, current)) entry least atGoal score
      · cases labelled : s.gScore.lookup current with
        | none =>
          rw [labelled] at ran
          cases ran
        | some currentG =>
          rw [labelled] at ran
          have later := ih ran
          rw [AStar.search_foldl, take] at later
          exact .expand (e := (priority, current)) entry least atGoal labelled later

/-- Whatever the heuristic is, the loops end; the cost is the least exactly if some walk of least cost comes
before all walks that cost more. -/
theorem aStar_any (nonneg : g.NonNegative) :
    ∃ result, (∃ n, ∀ fuel ≥ n, g.aStar fuel start goal heuristic = some result) ∧
      (result = none ↔ ¬∃ x, Walk g.neighbors start goal x) ∧
      ∀ cost path, result = some (cost, path) →
        (IsDistance g.neighbors start goal cost ↔ Favoured g.neighbors (fun node => heuristic node goal) start goal) ∧
        (IsDistance g.neighbors start goal cost → PathBetween g.neighbors start goal path cost) := by
  obtain ⟨result, returns, unreached, reached⟩ := @aStar_result g heuristic start goal nonneg
  refine ⟨result, returns, unreached, fun cost path found => ?_⟩
  obtain ⟨isPath, s, last, ⟨n, ends⟩, -, -, score, -⟩ := reached cost path found
  have finds := finds_of_run (ends n le_rfl) score
  rw [AStar.search_start] at finds
  exact ⟨finds.isDistance_iff nonneg, isPath⟩

/-- An estimate of the way to 1. -/
def parallelEstimate (node _goal : ℕ) : ℚ := if node = 0 then 1 else 0

theorem parallelEstimate_nonneg (node goal : ℕ) : 0 ≤ parallelEstimate node goal := by
  unfold parallelEstimate
  split_ifs <;> decide

theorem parallelEstimate_admissible (node : ℕ) (x : ℚ) (walk : Walk parallel.neighbors node 1 x) :
    parallelEstimate node 1 ≤ x := by
  unfold parallelEstimate
  split_ifs with zero
  · cases walk with
    | here => cases zero
    | @snoc _ _ y w walk edge =>
      have nonneg : 0 ≤ y := walk.nonneg nonNegative_parallel
      have least : 1 ≤ w := by
        rcases mem_neighbors_parallel.1 edge with ⟨-, eq⟩ | ⟨-, eq⟩ | ⟨-, eq⟩
        · rw [(Prod.mk.inj eq).2]
          decide
        · rw [(Prod.mk.inj eq).2]
        · exact absurd (Prod.mk.inj eq).1 one_ne_zero
      exact le_add_of_nonneg_of_le nonneg least
  · exact walk.nonneg nonNegative_parallel

theorem aStar_shortest_parallel : ∃ cost path,
    (∃ n, ∀ fuel ≥ n, parallel.aStar fuel 0 1 parallelEstimate = some (some (cost, path))) ∧
      IsDistance parallel.neighbors 0 1 cost ∧ PathBetween parallel.neighbors 0 1 path cost := by
  obtain ⟨result, returns, unreached, shortest⟩ := aStar_shortest 0 nonNegative_parallel
    (fun node => parallelEstimate_nonneg node 1) parallelEstimate_admissible
  have walk : ∃ x, Walk parallel.neighbors 0 1 x := ⟨_, .snoc .here (mem_neighbors_parallel.2 (.inl ⟨rfl, rfl⟩))⟩
  cases result with
  | none => exact absurd walk (unreached.1 rfl)
  | some found => exact ⟨found.1, found.2, returns, shortest _ _ rfl⟩

end Results

end TORdex.Graph
