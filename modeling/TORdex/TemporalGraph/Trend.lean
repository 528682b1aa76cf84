import Mathlib.Algebra.BigOperators.Fin
import Mathlib.Data.Finset.SymmDiff
import Mathlib.Data.Rat.Cast.Order
import TORdex.Core.Primitives
import TORdex.Lib.LeastSquares
import TORdex.TemporalGraph.Graph

/-!
# Trends and forecasts

The line of least squares through the counts of a history of snapshots, and what is forecast from it.  Numbers are
exact.
-/

namespace TORdex

/-- The slope is in units for each second, the intercept at the start of the measurement. -/
structure TrendLine where
  slope : ℚ
  intercept : ℚ
  rSquared : ℚ

/-- `f64::EPSILON`. -/
def epsilon : ℚ := 1 / 2 ^ 52

/-- Simple linear regression; both lists are as long. -/
def linearRegression (x y : List ℚ) : TrendLine :=
  let n : ℚ := x.length
  if n < 2 then ⟨0, y.head?.getD 0, 0⟩
  else
    let sumX := x.sum
    let sumY := y.sum
    let sumXY := (List.zipWith (fun a b => a * b) x y).sum
    let sumXX := (x.map fun a => a * a).sum
    let denom := n * sumXX - sumX * sumX
    if |denom| < epsilon then ⟨0, sumY / n, 0⟩
    else
      let slope := (n * sumXY - sumX * sumY) / denom
      let intercept := (sumY - slope * sumX) / n
      let yMean := sumY / n
      let ssTotal := (y.map fun yi => (yi - yMean) ^ 2).sum
      let ssResidual := (List.zipWith (fun xi yi => (yi - (slope * xi + intercept)) ^ 2) x y).sum
      let rSquared := if 0 < ssTotal then 1 - ssResidual / ssTotal else 0
      ⟨slope, intercept, rSquared⟩

/-- How a graph evolved in a period. -/
structure EvolutionSummary where
  period : TimeInterval
  nodeTrend : TrendLine
  edgeTrend : TrendLine
  nodeGrowthRate : ℚ
  edgeGrowthRate : ℚ
  nodeChurnRate : ℚ
  edgeChurnRate : ℚ
  nodeSurvivalRate : ℚ
  edgeSurvivalRate : ℚ

namespace GraphSnapshot

/-- The number of nodes. -/
def nodeCount (s : GraphSnapshot) : ℕ := s.nodes.length

/-- The number of edges. -/
def edgeCount (s : GraphSnapshot) : ℕ := s.edges.length

/-- The ids of the nodes. -/
def nodeIds (s : GraphSnapshot) : Finset String := (s.nodes.map TemporalNode.id).toFinset

/-- The ids of the edges. -/
def edgeIds (s : GraphSnapshot) : Finset String := (s.edges.map TemporalEdge.id).toFinset

end GraphSnapshot

namespace EvolutionAnalyzer

/-- `(s.timestamp - first.timestamp).whole_seconds() as f64`. -/
def secondsSince (start : OffsetDateTime) (s : GraphSnapshot) : ℚ := (wholeSeconds (s.timestamp - start) : ℤ)

/-- The growth of a count per second. -/
def growthRate (count : GraphSnapshot → ℕ) (first last : GraphSnapshot) : ℚ :=
  let durationSecs := secondsSince first.timestamp last
  if 0 < durationSecs then ((count last : ℚ) - count first) / durationSecs else 0

/-- The changes from each snapshot to the next one, for the average number and each snapshot. -/
def churnRate (ids : GraphSnapshot → Finset String) (count : GraphSnapshot → ℕ) (snapshots : List GraphSnapshot) : ℚ :=
  let churn :=
    (List.zipWith (fun before after => (symmDiff (ids before) (ids after)).card) snapshots snapshots.tail).sum
  let average := (snapshots.map fun s => (count s : ℚ)).sum / snapshots.length
  if 0 < average then churn / average / snapshots.length else 0

/-- The share of the first ids that are there in the end. -/
def survivalRate (ids : GraphSnapshot → Finset String) (first last : GraphSnapshot) : ℚ :=
  if ids first = ∅ then 1 else ((ids first ∩ ids last).card : ℚ) / (ids first).card

/-- The line through a count over time. -/
def trend (count : GraphSnapshot → ℕ) (start : OffsetDateTime) (snapshots : List GraphSnapshot) : TrendLine :=
  linearRegression (snapshots.map (secondsSince start)) (snapshots.map fun s => (count s : ℚ))

/-- How the graph evolved over the snapshots, if there are two. -/
def analyze (snapshots : List GraphSnapshot) : Option EvolutionSummary :=
  if snapshots.length < 2 then none
  else do
    let first ← snapshots.head?
    let last ← snapshots.getLast?
    return {
      period := .bounded first.timestamp last.timestamp
      nodeTrend := trend GraphSnapshot.nodeCount first.timestamp snapshots
      edgeTrend := trend GraphSnapshot.edgeCount first.timestamp snapshots
      nodeGrowthRate := growthRate GraphSnapshot.nodeCount first last
      edgeGrowthRate := growthRate GraphSnapshot.edgeCount first last
      nodeChurnRate := churnRate GraphSnapshot.nodeIds GraphSnapshot.nodeCount snapshots
      edgeChurnRate := churnRate GraphSnapshot.edgeIds GraphSnapshot.edgeCount snapshots
      nodeSurvivalRate := survivalRate GraphSnapshot.nodeIds first last
      edgeSurvivalRate := survivalRate GraphSnapshot.edgeIds first last }

end EvolutionAnalyzer

/-- A kind of node with its probability. -/
structure PredictedNode where
  kind : String
  probability : ℚ

/-- A kind of edge with its probability. -/
structure PredictedEdge where
  kind : String
  probability : ℚ

/-- What is predicted for an instant. -/
structure GraphPrediction where
  predictedAt : OffsetDateTime
  targetTime : OffsetDateTime
  confidence : ℚ
  predictedNodeCount : ℚ
  predictedEdgeCount : ℚ
  predictedNewNodes : Multiset PredictedNode
  predictedNewEdges : Multiset PredictedEdge
  nodeUncertainty : ℚ

namespace GraphPredictor

/-- `Confidence::new`. -/
def clampConfidence (raw : ℚ) : ℚ := max 0 (min 1 raw)

/-- The kinds by how often they were observed, in the order of the hash map. -/
def predicted {P : Type} (mk : String → ℚ → P) (frequencies : HashMap String ℕ) : Multiset P :=
  let total := (FiniteMap.values frequencies).sum
  frequencies.entries.map fun e => mk e.1 ((e.2 : ℚ) / (max total 1 : ℕ))

/-- The value of a trend line, and at least zero. -/
def extrapolate (line : TrendLine) (elapsed : ℚ) : ℚ := max (line.slope * elapsed + line.intercept) 0

/-- Predict the graph state at a future time, with the clock's reading. -/
def predict (p : GraphPredictor) (snapshots : List GraphSnapshot) (targetTime now : OffsetDateTime) :
    Option GraphPrediction := do
  let summary ← EvolutionAnalyzer.analyze snapshots
  let last ← snapshots.getLast?
  let timeDelta : ℚ := (wholeSeconds (targetTime - last.timestamp) : ℤ)
  let timeElapsed : ℚ := (wholeSeconds (last.timestamp - summary.period.start) : ℤ)
  let baseUncertainty : ℚ := max (last.nodeCount * (1 / 10)) 1
  let horizonDays := timeDelta / 86400
  return {
    predictedAt := now
    targetTime
    confidence := clampConfidence
      ((max summary.nodeTrend.rSquared 0 * (7 / 10) + max summary.edgeTrend.rSquared 0 * (3 / 10)) *
        (1 / (1 + horizonDays * (1 / 10))))
    predictedNodeCount := extrapolate summary.nodeTrend (timeElapsed + timeDelta)
    predictedEdgeCount := extrapolate summary.edgeTrend (timeElapsed + timeDelta)
    predictedNewNodes := predicted PredictedNode.mk p.nodeTypeFrequencies
    predictedNewEdges := predicted PredictedEdge.mk p.edgeTypeFrequencies
    nodeUncertainty := baseUncertainty * (1 + timeDelta / 86400) }

end GraphPredictor

/-! ## The best line -/

section Regression

open LeastSquares

variable {α : Type} (l : List α) (f g : α → ℚ)

theorem sum_map_eq (h : α → ℚ) : (l.map h).sum = ∑ i : Fin l.length, h l[i] := (Fin.sum_univ_fun_getElem l h).symm

theorem zipWith_map_same (h : ℚ → ℚ → ℚ) : List.zipWith h (l.map f) (l.map g) = l.map fun a => h (f a) (g a) := by
  rw [List.zipWith_map, List.zipWith_self]

theorem linearRegression_eq (two : 2 ≤ l.length) : linearRegression (l.map f) (l.map g) =
    let x := fun i : Fin l.length => f l[i]
    let y := fun i : Fin l.length => g l[i]
    let n : ℚ := (Finset.univ : Finset (Fin l.length)).card
    if |spread Finset.univ x| < epsilon then ⟨0, (∑ i, y i) / n, 0⟩
    else
      let slope := (n * ∑ i, x i * y i - (∑ i, x i) * ∑ i, y i) / spread Finset.univ x
      let intercept := (∑ i, y i - slope * ∑ i, x i) / n
      ⟨slope, intercept,
        if 0 < residual Finset.univ x y 0 ((∑ i, y i) / n) then
          1 - residual Finset.univ x y slope intercept / residual Finset.univ x y 0 ((∑ i, y i) / n)
        else 0⟩ := by
  have many : ¬ (l.length : ℚ) < 2 := by
    rw [not_lt]
    exact_mod_cast two
  unfold linearRegression
  simp only [List.length_map, if_neg many, zipWith_map_same, List.map_map, Function.comp_def, sum_map_eq, spread,
    LeastSquares.residual, zero_mul, zero_add, Finset.card_univ, Fintype.card_fin]

/-- The spread of whole numbers is zero or at least one. -/
theorem spread_eq_zero {x : Fin l.length → ℚ} {z : Fin l.length → ℤ} (whole : ∀ i, x i = z i)
    (small : |spread Finset.univ x| < epsilon) : spread Finset.univ x = 0 := by
  have cast : spread Finset.univ x =
      (((Finset.univ : Finset (Fin l.length)).card * ∑ i, z i * z i - (∑ i, z i) * ∑ i, z i : ℤ) : ℚ) := by
    rw [spread]
    push_cast
    simp only [whole]
  rw [cast] at small ⊢
  have one : |((Finset.univ : Finset (Fin l.length)).card * ∑ i, z i * z i - (∑ i, z i) * ∑ i, z i : ℤ)| < 1 := by
    have tiny : epsilon < 1 := by norm_num [epsilon]
    exact_mod_cast small.trans tiny
  rw [Int.abs_lt_one_iff.1 one, Int.cast_zero]

/-- The line for values of whole numbers is the best one, and explains a part of the deviations. -/
theorem linearRegression_spec (two : 2 ≤ l.length) {z : α → ℤ} (whole : ∀ a, f a = z a) :
    Normal Finset.univ (fun i : Fin l.length => f l[i]) (fun i => g l[i])
        (linearRegression (l.map f) (l.map g)).slope (linearRegression (l.map f) (l.map g)).intercept ∧
      (linearRegression (l.map f) (l.map g)).rSquared ∈ Set.Icc 0 1 := by
  have nonzero : ((Finset.univ : Finset (Fin l.length)).card : ℚ) ≠ 0 := by
    rw [Finset.card_univ, Fintype.card_fin, Nat.cast_ne_zero]
    omega
  rw [linearRegression_eq l f g two]
  dsimp only
  by_cases same : |spread Finset.univ fun i : Fin l.length => f l[i]| < epsilon
  · have none := spread_eq_zero l (z := fun i => z l[i]) (fun i => whole l[i]) same
    rw [if_pos same]
    exact ⟨normal_of_spread_eq_zero none nonzero rfl, by norm_num⟩
  · have apart : spread Finset.univ (fun i : Fin l.length => f l[i]) ≠ 0 := by
      intro none
      rw [none, abs_zero] at same
      exact same (by norm_num [epsilon])
    have normal := normal_of_spread apart nonzero rfl rfl (y := fun i : Fin l.length => g l[i])
    rw [if_neg same]
    refine ⟨normal, ?_⟩
    dsimp only
    split_ifs with varied
    · exact normal.one_sub_mem_Icc _ varied
    · norm_num

end Regression

/-! ## Trends and forecasts -/

open LeastSquares EvolutionAnalyzer

/-- The sum of the squared residuals of a line through the counts of snapshots. -/
def squaredResiduals (count : GraphSnapshot → ℕ) (start : OffsetDateTime) (snapshots : List GraphSnapshot)
    (a b : ℚ) : ℚ :=
  (snapshots.map fun s => ((count s : ℚ) - (a * secondsSince start s + b)) ^ 2).sum

/-- The line has the least squared residuals, and its coefficient is one. -/
structure BestLine (count : GraphSnapshot → ℕ) (start : OffsetDateTime) (snapshots : List GraphSnapshot)
    (line : TrendLine) : Prop where
  least : ∀ a b, squaredResiduals count start snapshots line.slope line.intercept ≤
    squaredResiduals count start snapshots a b
  rSquared : line.rSquared ∈ Set.Icc 0 1

theorem bestLine_trend (count : GraphSnapshot → ℕ) (start : OffsetDateTime) {snapshots : List GraphSnapshot}
    (two : 2 ≤ snapshots.length) : BestLine count start snapshots (trend count start snapshots) := by
  obtain ⟨normal, fit⟩ := linearRegression_spec snapshots (secondsSince start) (fun s => (count s : ℚ)) two
    (z := fun s => wholeSeconds (s.timestamp - start)) fun _ => rfl
  refine ⟨fun a b => ?_, fit⟩
  rw [squaredResiduals, squaredResiduals, sum_map_eq, sum_map_eq]
  exact normal.residual_le a b

/-- A later forecast is less certain. -/
structure Decays (sooner later : GraphPrediction) : Prop where
  confidence : later.confidence ≤ sooner.confidence
  nodeUncertainty : sooner.nodeUncertainty ≤ later.nodeUncertainty
  unit : sooner.confidence ∈ Set.Icc 0 1 ∧ later.confidence ∈ Set.Icc 0 1

theorem wholeSeconds_mono {a b : ℤ} (h : a ≤ b) : wholeSeconds a ≤ wholeSeconds b := Int.tdiv_le_tdiv (by norm_num) h

theorem wholeSeconds_nonneg {a : ℤ} (h : 0 ≤ a) : 0 ≤ wholeSeconds a := Int.tdiv_nonneg h (by norm_num)

theorem clampConfidence_mono {a b : ℚ} (h : a ≤ b) :
    GraphPredictor.clampConfidence a ≤ GraphPredictor.clampConfidence b :=
  max_le_max le_rfl (min_le_min le_rfl h)

theorem clampConfidence_mem_Icc (raw : ℚ) : GraphPredictor.clampConfidence raw ∈ Set.Icc 0 1 :=
  ⟨le_max_left .., max_le zero_le_one (min_le_left ..)⟩

/-- The confidence falls with the horizon. -/
theorem confidence_antitone {weight d₁ d₂ : ℚ} (nonneg : 0 ≤ weight) (h₁ : 0 ≤ d₁) (h : d₁ ≤ d₂) :
    weight * (1 / (1 + d₂ / 86400 * (1 / 10))) ≤ weight * (1 / (1 + d₁ / 86400 * (1 / 10))) := by
  refine mul_le_mul_of_nonneg_left (one_div_le_one_div_of_le ?_ ?_) nonneg
  · positivity
  · gcongr

/-- The trends of a history are lines of least squares, and its forecasts decay. -/
theorem trend_and_forecast (p : GraphPredictor) (snapshots : List GraphSnapshot) (two : 2 ≤ snapshots.length) :
    ∃ first ∈ snapshots.head?, ∃ last ∈ snapshots.getLast?, ∃ summary, analyze snapshots = some summary ∧
      BestLine GraphSnapshot.nodeCount first.timestamp snapshots summary.nodeTrend ∧
      BestLine GraphSnapshot.edgeCount first.timestamp snapshots summary.edgeTrend ∧
      ∀ t₁ t₂ now₁ now₂, last.timestamp ≤ t₁ → t₁ ≤ t₂ → ∃ sooner later,
        p.predict snapshots t₁ now₁ = some sooner ∧ p.predict snapshots t₂ now₂ = some later ∧ Decays sooner later := by
  obtain ⟨first, hfirst⟩ : ∃ first, snapshots.head? = some first := by
    cases snapshots with
    | nil => simp at two
    | cons first rest => exact ⟨first, rfl⟩
  obtain ⟨last, hlast⟩ : ∃ last, snapshots.getLast? = some last := by
    have nonempty : snapshots ≠ [] := List.length_pos_iff.1 (by omega)
    exact ⟨_, List.getLast?_eq_some_getLast nonempty⟩
  refine ⟨first, hfirst, last, hlast, ?_⟩
  simp only [analyze, if_neg (not_lt.2 two), hfirst, hlast, Option.bind_eq_bind, Option.bind_some, Option.pure_def,
    Option.some.injEq, exists_eq_left']
  refine ⟨bestLine_trend _ _ two, bestLine_trend _ _ two, fun t₁ t₂ now₁ now₂ le₁ le₂ => ?_⟩
  simp only [GraphPredictor.predict, analyze, if_neg (not_lt.2 two), hfirst, hlast, Option.bind_eq_bind,
    Option.bind_some, Option.pure_def, Option.some.injEq]
  have start : (0 : ℚ) ≤ (wholeSeconds (t₁ - last.timestamp) : ℤ) := by
    exact_mod_cast wholeSeconds_nonneg (sub_nonneg.2 le₁)
  have later : ((wholeSeconds (t₁ - last.timestamp) : ℤ) : ℚ) ≤ (wholeSeconds (t₂ - last.timestamp) : ℤ) := by
    exact_mod_cast wholeSeconds_mono (Int.sub_le_sub_right le₂ _)
  refine ⟨_, _, rfl, rfl, ?_, ?_, clampConfidence_mem_Icc _, clampConfidence_mem_Icc _⟩
  · refine clampConfidence_mono (confidence_antitone ?_ start later)
    positivity
  · refine mul_le_mul_of_nonneg_left ?_ (zero_le_one.trans (le_max_right ..))
    gcongr

/-- Snapshots on three days, with nothing, one node and one node. -/
def threeDays : List GraphSnapshot :=
  let node : TemporalNode := ⟨"n1", "entity", "n1", .startingAt 0, ∅⟩
  [⟨0, [], []⟩, ⟨86400 * 10 ^ 9, [node], []⟩, ⟨2 * 86400 * 10 ^ 9, [node], []⟩]

theorem trend_and_forecast_threeDays :
    ∃ first ∈ threeDays.head?, ∃ last ∈ threeDays.getLast?, ∃ summary, analyze threeDays = some summary ∧
      BestLine GraphSnapshot.nodeCount first.timestamp threeDays summary.nodeTrend ∧
      BestLine GraphSnapshot.edgeCount first.timestamp threeDays summary.edgeTrend ∧
      ∀ t₁ t₂ now₁ now₂, last.timestamp ≤ t₁ → t₁ ≤ t₂ → ∃ sooner later,
        GraphPredictor.new.predict threeDays t₁ now₁ = some sooner ∧
          GraphPredictor.new.predict threeDays t₂ now₂ = some later ∧ Decays sooner later :=
  trend_and_forecast .new threeDays (by decide)

end TORdex
