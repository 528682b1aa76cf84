import Mathlib.Algebra.BigOperators.Field
import Mathlib.Algebra.Order.BigOperators.Ring.Finset
import Mathlib.Algebra.Order.Field.Basic
import Mathlib.Tactic.FieldSimp
import Mathlib.Tactic.LinearCombination

/-!
# The line of least squares

A line is the best for finitely many points exactly if its residuals sum to zero, by themselves and weighted by the
abscissas.
-/

namespace LeastSquares

variable {ι K : Type*} [Field K] (s : Finset ι) (x y : ι → K)

/-- The sum of the squared residuals of the line with this slope and this intercept. -/
def residual (a b : K) : K := ∑ i ∈ s, (y i - (a * x i + b)) ^ 2

/-- How far the abscissas are apart: their number times their squared deviations. -/
def spread : K := s.card * ∑ i ∈ s, x i * x i - (∑ i ∈ s, x i) * ∑ i ∈ s, x i

/-- The line solves the normal equations. -/
structure Normal (p q : K) : Prop where
  total : ∑ i ∈ s, y i = p * ∑ i ∈ s, x i + s.card * q
  weighted : ∑ i ∈ s, x i * y i = p * ∑ i ∈ s, x i * x i + q * ∑ i ∈ s, x i

variable {s x y} {p q : K}

theorem residual_eq (a b : K) : residual s x y a b =
    ∑ i ∈ s, y i * y i - 2 * a * ∑ i ∈ s, x i * y i - 2 * b * ∑ i ∈ s, y i + a * a * ∑ i ∈ s, x i * x i +
      2 * a * b * ∑ i ∈ s, x i + s.card * (b * b) := by
  have point (i : ι) : (y i - (a * x i + b)) ^ 2 = y i * y i - 2 * a * (x i * y i) - 2 * b * y i + a * a * (x i * x i) +
      2 * a * b * x i + b * b := by ring
  simp only [residual, point, Finset.sum_add_distrib, Finset.sum_sub_distrib, ← Finset.mul_sum, Finset.sum_const,
    nsmul_eq_mul]
  ring

/-- Another line adds the squares of its distances. -/
theorem Normal.residual_eq_add (normal : Normal s x y p q) (a b : K) :
    residual s x y a b = residual s x y p q + ∑ i ∈ s, ((p - a) * x i + (q - b)) ^ 2 := by
  have apart : ∑ i ∈ s, ((p - a) * x i + (q - b)) ^ 2 = (p - a) * (p - a) * ∑ i ∈ s, x i * x i +
      2 * (p - a) * (q - b) * ∑ i ∈ s, x i + s.card * ((q - b) * (q - b)) := by
    have point (i : ι) : ((p - a) * x i + (q - b)) ^ 2 =
        (p - a) * (p - a) * (x i * x i) + 2 * (p - a) * (q - b) * x i + (q - b) * (q - b) := by ring
    simp only [point, Finset.sum_add_distrib, ← Finset.mul_sum, Finset.sum_const, nsmul_eq_mul]
    ring
  rw [residual_eq, residual_eq, apart]
  linear_combination 2 * (p - a) * normal.weighted + 2 * (q - b) * normal.total

theorem card_mul_spread : s.card * spread s x = ∑ i ∈ s, (s.card * x i - ∑ j ∈ s, x j) ^ 2 := by
  have point (i : ι) : (s.card * x i - ∑ j ∈ s, x j) ^ 2 =
      (s.card : K) * s.card * (x i * x i) - 2 * s.card * (∑ j ∈ s, x j) * x i +
        (∑ j ∈ s, x j) * ∑ j ∈ s, x j := by ring
  simp only [point, Finset.sum_add_distrib, Finset.sum_sub_distrib, ← Finset.mul_sum, Finset.sum_const, nsmul_eq_mul,
    spread]
  ring

theorem normal_of_spread (apart : spread s x ≠ 0) (card : (s.card : K) ≠ 0)
    (slope : p = (s.card * ∑ i ∈ s, x i * y i - (∑ i ∈ s, x i) * ∑ i ∈ s, y i) / spread s x)
    (intercept : q = (∑ i ∈ s, y i - p * ∑ i ∈ s, x i) / s.card) : Normal s x y p q := by
  have hq : s.card * q = ∑ i ∈ s, y i - p * ∑ i ∈ s, x i := by rw [intercept, mul_div_cancel₀ _ card]
  have hp : p * spread s x = s.card * ∑ i ∈ s, x i * y i - (∑ i ∈ s, x i) * ∑ i ∈ s, y i := by
    rw [slope, div_mul_cancel₀ _ apart]
  refine ⟨by linear_combination -hq, ?_⟩
  refine mul_left_cancel₀ card ?_
  rw [spread] at hp
  linear_combination -hp - (∑ i ∈ s, x i) * hq

section Order

variable [LinearOrder K] [IsStrictOrderedRing K]

variable (s x y) in
theorem residual_nonneg (a b : K) : 0 ≤ residual s x y a b := Finset.sum_nonneg fun _ _ => sq_nonneg _

theorem Normal.residual_le (normal : Normal s x y p q) (a b : K) : residual s x y p q ≤ residual s x y a b := by
  rw [normal.residual_eq_add a b]
  exact le_add_of_nonneg_right (Finset.sum_nonneg fun _ _ => sq_nonneg _)

/-- The part of the squared deviations that the line explains. -/
theorem Normal.one_sub_mem_Icc (normal : Normal s x y p q) (mean : K) (pos : 0 < residual s x y 0 mean) :
    1 - residual s x y p q / residual s x y 0 mean ∈ Set.Icc 0 1 := by
  have least := normal.residual_le 0 mean
  constructor
  · rw [sub_nonneg]
    exact (div_le_one pos).2 least
  · exact sub_le_self 1 (div_nonneg (residual_nonneg ..) pos.le)

/-- Without spread all abscissas are the same. -/
theorem eq_of_spread_eq_zero (none : spread s x = 0) {i : ι} (hi : i ∈ s) : s.card * x i = ∑ j ∈ s, x j := by
  have zero : ∑ i ∈ s, (s.card * x i - ∑ j ∈ s, x j) ^ 2 = 0 := by rw [← card_mul_spread, none, mul_zero]
  have each := (Finset.sum_eq_zero_iff_of_nonneg fun _ _ => sq_nonneg _).1 zero i hi
  exact sub_eq_zero.1 (pow_eq_zero_iff two_ne_zero |>.1 each)

/-- Without spread the mean is a best line. -/
theorem normal_of_spread_eq_zero (none : spread s x = 0) (card : (s.card : K) ≠ 0)
    (intercept : q = (∑ i ∈ s, y i) / s.card) : Normal s x y 0 q := by
  have hq : s.card * q = ∑ i ∈ s, y i := by rw [intercept, mul_div_cancel₀ _ card]
  refine ⟨by rw [zero_mul, zero_add, hq], ?_⟩
  refine mul_left_cancel₀ card ?_
  rw [zero_mul, zero_add, Finset.mul_sum]
  have each (i : ι) (hi : i ∈ s) : s.card * (x i * y i) = (∑ j ∈ s, x j) * y i := by
    rw [← mul_assoc, eq_of_spread_eq_zero none hi]
  rw [Finset.sum_congr rfl each, ← Finset.mul_sum]
  linear_combination -(∑ i ∈ s, x i) * hq

end Order

end LeastSquares
