import Mathlib.Order.Bounds.Defs
import Mathlib.Data.Set.Basic

/-! Derivations from given facts by rules with finitely many premises, and their rounds. -/

namespace ForwardChaining

variable {F : Type*} {infers : List F → F → Prop} {given : Set F}

/-- The facts that have a derivation of a height at most `n`. -/
inductive Derivable (infers : List F → F → Prop) (given : Set F) : ℕ → F → Prop where
  | given {n : ℕ} {f : F} (mem : f ∈ given) : Derivable infers given n f
  | infer {n : ℕ} {premises : List F} {f : F} (applies : infers premises f)
      (derived : ∀ p ∈ premises, Derivable infers given n p) : Derivable infers given (n + 1) f

/-- Whatever can be inferred from the facts is one of them. -/
def Closed (infers : List F → F → Prop) (known : Set F) : Prop :=
  ∀ premises f, infers premises f → (∀ p ∈ premises, p ∈ known) → f ∈ known

theorem Derivable.succ {n : ℕ} {f : F} (h : Derivable infers given n f) : Derivable infers given (n + 1) f := by
  induction h with
  | given mem => exact .given mem
  | infer applies _ ih => exact .infer applies ih

theorem derivable_succ {n : ℕ} {f : F} : Derivable infers given (n + 1) f ↔
    Derivable infers given n f ∨
      ∃ premises, infers premises f ∧ ∀ p ∈ premises, Derivable infers given n p := by
  constructor
  · intro h
    cases h with
    | given mem => exact .inl (.given mem)
    | infer applies derived => exact .inr ⟨_, applies, derived⟩
  · rintro (h | ⟨premises, applies, derived⟩)
    · exact h.succ
    · exact .infer applies derived

/-- Rounds that each add what can be inferred from the round before give the derivations by their heights. -/
theorem derivable_iff_of_rounds {known : ℕ → Set F} (first : known 0 = given)
    (next : ∀ n f, f ∈ known (n + 1) ↔
      f ∈ known n ∨ ∃ premises, infers premises f ∧ ∀ p ∈ premises, p ∈ known n)
    {n : ℕ} {f : F} : f ∈ known n ↔ Derivable infers given n f := by
  induction n generalizing f with
  | zero =>
    rw [first]
    exact ⟨.given, fun h => by cases h; assumption⟩
  | succ n ih =>
    rw [next, derivable_succ, ih]
    simp only [ih]

/-- A closed set that has the given facts has all that can be derived. -/
theorem Closed.mem_of_derivable {known : Set F} (closed : Closed infers known) (sub : given ⊆ known) {n : ℕ}
    {f : F} (h : Derivable infers given n f) : f ∈ known := by
  induction h with
  | given mem => exact sub mem
  | infer applies _ ih => exact closed _ _ applies ih

/-- Derivable facts that are closed under the rules are the closure of the given ones. -/
theorem isLeast_of_closed {known : Set F} (sub : given ⊆ known) (closed : Closed infers known)
    (derivable : ∀ f ∈ known, ∃ n, Derivable infers given n f) :
    IsLeast {s | given ⊆ s ∧ Closed infers s} known := by
  refine ⟨⟨sub, closed⟩, fun s ⟨sub, closed⟩ f mem => ?_⟩
  obtain ⟨n, h⟩ := derivable f mem
  exact closed.mem_of_derivable sub h

end ForwardChaining
