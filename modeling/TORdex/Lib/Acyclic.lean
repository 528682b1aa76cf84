import Mathlib.Algebra.BigOperators.Group.List.Basic
import Mathlib.Algebra.Order.Monoid.Defs
import Mathlib.Data.List.Chain
import Mathlib.Data.Set.Finite.Basic
import Mathlib.Logic.Relation
import Mathlib.Order.Bounds.Basic
import Mathlib.Order.WellFounded

/-! Relations without cycles: when another pair closes one, minimal members of finite sets, and recursion
along them. -/

section

open Relation (ReflTransGen TransGen)

variable {V : Type*} {r : V → V → Prop} {a b x y : V}

/-- No element is related to itself by way of others. -/
def Acyclic (r : V → V → Prop) : Prop := ∀ a, ¬TransGen r a a

namespace Acyclic

/-- The relation with another pair. -/
def WithPair (r : V → V → Prop) (a b x y : V) : Prop := r x y ∨ x = a ∧ y = b

theorem withPair_reach (h : TransGen (WithPair r a b) x y) :
    TransGen r x y ∨ ReflTransGen r x a ∧ ReflTransGen r b y := by
  induction h with
  | single step =>
    rcases step with step | ⟨rfl, rfl⟩
    · exact .inl (.single step)
    · exact .inr ⟨.refl, .refl⟩
  | tail _ step ih =>
    rcases step with step | ⟨rfl, rfl⟩
    · exact ih.imp (·.tail step) fun ⟨before, after⟩ => ⟨before, after.tail step⟩
    · exact .inr ⟨ih.elim TransGen.to_reflTransGen And.left, .refl⟩

/-- A pair closes a cycle exactly if its end reaches its start. -/
theorem withPair_iff (acyclic : Acyclic r) : Acyclic (WithPair r a b) ↔ ¬ReflTransGen r b a := by
  constructor
  · intro h reach
    have back : ReflTransGen (WithPair r a b) b a := ReflTransGen.mono (fun _ _ => .inl) _ _ reach
    exact h a (.head' (.inr ⟨rfl, rfl⟩) back)
  · intro h x cycle
    rcases withPair_reach cycle with cycle | ⟨before, after⟩
    · exact acyclic x cycle
    · exact h (after.trans before)

/-- A finite set has a member that is related to none of the set. -/
theorem exists_last (acyclic : Acyclic r) {s : Finset V} (nonempty : s.Nonempty) :
    ∃ a ∈ s, ∀ b ∈ s, ¬r a b := by
  suffices ∃ a ∈ s, ∀ b ∈ s, ¬TransGen r a b by
    obtain ⟨a, mem, last⟩ := this
    exact ⟨a, mem, fun b hb step => last b hb (.single step)⟩
  induction nonempty using Finset.Nonempty.cons_induction with
  | singleton a =>
    refine ⟨a, Finset.mem_singleton_self a, fun b hb path => acyclic a ?_⟩
    rwa [Finset.mem_singleton.1 hb] at path
  | cons c s _ _ ih =>
    obtain ⟨a, mem, last⟩ := ih
    by_cases toward : TransGen r a c
    · refine ⟨c, Finset.mem_cons_self c s, fun b hb path => ?_⟩
      rcases Finset.mem_cons.1 hb with rfl | hb
      · exact acyclic b path
      · exact last b hb (toward.trans path)
    · refine ⟨a, Finset.mem_cons_of_mem mem, fun b hb path => ?_⟩
      rcases Finset.mem_cons.1 hb with rfl | hb
      · exact toward path
      · exact last b hb path

/-- Going from one element to the next ends, when finitely many have a next one. -/
theorem wellFounded (acyclic : Acyclic r) (finite : {a | ∃ b, r a b}.Finite) :
    WellFounded (Function.swap r) := by
  refine WellFounded.wellFounded_iff_has_min.2 fun s nonempty => ?_
  by_contra others
  have next : ∀ a ∈ s, ∃ b ∈ s, r a b := by
    intro a mem
    by_contra none
    exact others ⟨a, mem, fun b hb step => none ⟨b, hb, step⟩⟩
  have finite' : s.Finite := finite.subset fun a mem => (next a mem).imp fun _ => And.right
  obtain ⟨a, mem, last⟩ := acyclic.exists_last (finite'.toFinset_nonempty.2 nonempty)
  obtain ⟨b, hb, step⟩ := next a (finite'.mem_toFinset.1 mem)
  exact last b (finite'.mem_toFinset.2 hb) step

end Acyclic

end

/-!
# Costliest chains

Each element of a chain is related to the next one, and a chain costs what its elements cost together.  The
costliest chain from an element goes on with the costliest one from some successor, or ends there.
-/

namespace Chains

variable {V α : Type*} [AddCommMonoid α]

/-- The cost of a list. -/
def total (cost : V → α) (l : List V) : α := (l.map cost).sum

/-- The costs of the chains whose first element is one of these.  The empty chain is always among them. -/
def costs (r : V → V → Prop) (cost : V → α) (starts : Set V) : Set α :=
  {t | ∃ l : List V, (∀ v ∈ l.head?, v ∈ starts) ∧ l.IsChain r ∧ total cost l = t}

variable {r : V → V → Prop} {cost : V → α} {v : V} {c m : α} {starts : Set V}

theorem total_cons (v : V) (l : List V) : total cost (v :: l) = cost v + total cost l := List.sum_cons

variable [LinearOrder α]

/-- The cost of the costliest chain from the element. -/
def Best (r : V → V → Prop) (cost : V → α) (v : V) (c : α) : Prop :=
  IsGreatest {t | ∃ l, (v :: l).IsChain r ∧ total cost (v :: l) = t} c

theorem Best.unique {c' : α} (h : Best r cost v c) (h' : Best r cost v c') : c = c' := IsGreatest.unique h h'

/-- The costliest of the chains with one of these starts, or none if all of them cost less. -/
theorem isGreatest_costs (best : ∀ v ∈ starts, ∃ c, Best r cost v c)
    (greatest : IsGreatest (insert 0 {c | ∃ v ∈ starts, Best r cost v c}) m) :
    IsGreatest (costs r cost starts) m := by
  constructor
  · rcases greatest.1 with rfl | ⟨v, mem, hv⟩
    · exact ⟨[], by simp, .nil, rfl⟩
    · obtain ⟨l, chain, sum⟩ := hv.1
      refine ⟨v :: l, ?_, chain, sum⟩
      rintro w ⟨⟩
      exact mem
  · rintro t ⟨l, first, chain, rfl⟩
    cases l with
    | nil => exact greatest.2 (Set.mem_insert _ _)
    | cons v l =>
      have mem : v ∈ starts := first v rfl
      obtain ⟨c, hc⟩ := best v mem
      calc total cost (v :: l) ≤ c := hc.2 ⟨l, chain, rfl⟩
        _ ≤ m := greatest.2 (.inr ⟨v, mem, hc⟩)

/-- The costliest from another start. -/
theorem isGreatest_concat {before : List V} (best : Best r cost v c)
    (greatest : IsGreatest (insert 0 {c | ∃ w ∈ before, Best r cost w c}) m) :
    IsGreatest (insert 0 {c | ∃ w ∈ before ++ [v], Best r cost w c}) (max m c) := by
  have another : insert 0 {c | ∃ w ∈ before ++ [v], Best r cost w c} =
      insert c (insert 0 {c | ∃ w ∈ before, Best r cost w c}) := by
    have only (t : α) : Best r cost v t ↔ t = c := ⟨fun h => h.unique best, fun h => h ▸ best⟩
    ext t
    simp only [List.mem_append, List.mem_singleton, or_and_right, exists_or, exists_eq_left, only,
      Set.mem_insert_iff, Set.mem_ofPred_eq]
    exact or_rotate.symm
  rw [another, max_comm]
  exact greatest.insert c

/-- A chain from an element goes on with a chain from one of its successors. -/
theorem best_add [IsOrderedAddMonoid α] (greatest : IsGreatest (costs r cost {w | r v w}) m) :
    Best r cost v (cost v + m) := by
  constructor
  · obtain ⟨l, first, chain, sum⟩ := greatest.1
    exact ⟨l, List.isChain_cons.2 ⟨first, chain⟩, by rw [total_cons, sum]⟩
  · rintro t ⟨l, chain, rfl⟩
    obtain ⟨first, chain⟩ := List.isChain_cons.1 chain
    rw [total_cons]
    exact add_le_add_right (greatest.2 ⟨l, first, chain, rfl⟩) (cost v)

end Chains
