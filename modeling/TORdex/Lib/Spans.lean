import Mathlib.Data.Set.Basic
import Mathlib.Order.MinMax
import Mathlib.Order.WithBot

/-! Spans: the points from a start on, up to an end if there is one. -/

namespace Spans

variable {α : Type*} [LinearOrder α] {s s' : α} {e e' : WithTop α}

/-- What is from the start on and before the end. -/
def span (s : α) (e : WithTop α) : Set α := {x | s ≤ x ∧ (x : WithTop α) < e}

theorem span_inter (s s' : α) (e e' : WithTop α) : span s e ∩ span s' e' = span (max s s') (min e e') := by
  ext x
  simp only [span, Set.mem_inter_iff, Set.mem_ofPred_eq, max_le_iff, lt_min_iff]
  exact and_and_and_comm

theorem span_nonempty_iff : (span s e).Nonempty ↔ (s : WithTop α) < e :=
  ⟨fun ⟨_, from_start, before_end⟩ => (WithTop.coe_le_coe.2 from_start).trans_lt before_end, fun h => ⟨s, le_rfl, h⟩⟩

/-- The end of a span that is not empty is determined by its points. -/
theorem span_eq_iff (h : (s : WithTop α) < e) : span s e = span s e' ↔ e = e' := by
  refine ⟨fun same => ?_, fun same => same ▸ rfl⟩
  have h' : (s : WithTop α) < e' := span_nonempty_iff.1 (same ▸ span_nonempty_iff.2 h)
  have shorter {a b : WithTop α} (first : (s : WithTop α) < a) (sub : span s b ⊆ span s a) : b ≤ a := by
    by_contra less
    rw [not_le] at less
    obtain ⟨x, rfl⟩ := WithTop.ne_top_iff_exists.1 less.ne_top
    have mem : x ∈ span s b := ⟨WithTop.coe_le_coe.1 first.le, less⟩
    exact lt_irrefl _ (sub mem).2
  exact le_antisymm (shorter h' same.subset) (shorter h same.superset)

/-- Two spans that are not empty meet if each starts before the end of the other. -/
theorem max_lt_min_iff (h : (s : WithTop α) < e) (h' : (s' : WithTop α) < e') :
    ((max s s' : α) : WithTop α) < min e e' ↔ (s : WithTop α) < e' ∧ (s' : WithTop α) < e := by
  rw [WithTop.coe_max, max_lt_iff, lt_min_iff, lt_min_iff]
  exact ⟨fun ⟨first, second⟩ => ⟨first.2, second.1⟩, fun ⟨first, second⟩ => ⟨⟨h, first⟩, second, h'⟩⟩

end Spans
