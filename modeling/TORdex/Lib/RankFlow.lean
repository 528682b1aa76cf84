import Mathlib.Algebra.BigOperators.Field
import Mathlib.Algebra.BigOperators.Group.Finset.Sigma

/-!
# Ranks that flow along edges

Every node of a finite set passes its rank on in equal parts along its edges, and a node without edges to all
nodes; a part of all ranks is spread evenly instead.  No rank is lost where the edges stay in the set.
-/

namespace RankFlow

variable {V F : Type*} [DecidableEq V] [Field F] {nodes : Finset V} {out : V → List V}

/-- What comes along the edges to a node. -/
def inflow (nodes : Finset V) (out : V → List V) (rank : V → F) (v : V) : F :=
  ∑ u ∈ nodes, (out u).count v * (rank u / (out u).length)

/-- The ranks of the nodes without edges. -/
def dangling (nodes : Finset V) (out : V → List V) (rank : V → F) : F := ∑ u ∈ nodes with out u = [], rank u

/-- The rank of a node after an iteration. -/
def step (nodes : Finset V) (out : V → List V) (damping : F) (rank : V → F) (v : V) : F :=
  (1 - damping) / nodes.card + damping * (inflow nodes out rank v + dangling nodes out rank / nodes.card)

theorem sum_count {l : List V} (inside : ∀ v ∈ l, v ∈ nodes) : ∑ v ∈ nodes, l.count v = l.length := by
  have subset : l.toFinset ⊆ nodes := fun v hv => inside v (List.mem_toFinset.1 hv)
  rw [← List.sum_toFinset_count_eq_length l]
  refine (Finset.sum_subset subset fun v _ absent => List.count_eq_zero.2 fun hv => ?_).symm
  exact absent (List.mem_toFinset.2 hv)

variable [CharZero F]

/-- Along the edges goes what is not left dangling. -/
theorem sum_inflow (closed : ∀ u ∈ nodes, ∀ v ∈ out u, v ∈ nodes) (rank : V → F) :
    ∑ v ∈ nodes, inflow nodes out rank v + dangling nodes out rank = ∑ u ∈ nodes, rank u := by
  unfold inflow dangling
  rw [Finset.sum_comm, Finset.sum_filter, ← Finset.sum_add_distrib]
  refine Finset.sum_congr rfl fun u hu => ?_
  rw [← Finset.sum_mul, ← Nat.cast_sum, sum_count (closed u hu)]
  by_cases empty : out u = []
  · simp [empty]
  · have degree : ((out u).length : F) ≠ 0 := Nat.cast_ne_zero.2 (mt List.length_eq_zero_iff.1 empty)
    rw [if_neg empty, add_zero, mul_div_cancel₀ _ degree]

/-- A step keeps the sum of the ranks when it is one. -/
theorem sum_step (closed : ∀ u ∈ nodes, ∀ v ∈ out u, v ∈ nodes) (nonempty : nodes.Nonempty) (damping : F)
    {rank : V → F} (sum : ∑ u ∈ nodes, rank u = 1) : ∑ v ∈ nodes, step nodes out damping rank v = 1 := by
  have card : (nodes.card : F) ≠ 0 := Nat.cast_ne_zero.2 nonempty.card_ne_zero
  have spread : ∀ x : F, ∑ _v ∈ nodes, x / nodes.card = x := fun x => by
    rw [Finset.sum_const, nsmul_eq_mul, mul_div_cancel₀ _ card]
  have flow := sum_inflow closed rank
  calc ∑ v ∈ nodes, step nodes out damping rank v
      = (1 - damping) + damping * (∑ v ∈ nodes, inflow nodes out rank v + dangling nodes out rank) := by
        unfold step
        rw [Finset.sum_add_distrib, spread, ← Finset.mul_sum, Finset.sum_add_distrib, spread]
    _ = 1 := by rw [flow, sum, mul_one, sub_add_cancel]

end RankFlow
