import Mathlib.Order.WellFounded

/-!
# Loops with fuel

A round of a loop ends it with a result, leads to the next state, or fails.  Where the rounds lead down
a well-founded relation the loop ends, and any fuel from some amount on gives its result.
-/

namespace Loops

variable {S R : Type*}

/-- So many rounds at most; there is no result when a round fails, or the fuel is used up. -/
def run (round : S → Option (R ⊕ S)) : ℕ → S → Option R
  | 0, _ => none
  | fuel + 1, s =>
    match round s with
    | none => none
    | some (.inl result) => some result
    | some (.inr next) => run round fuel next

/-- The loop returns this result, with any fuel from some amount on. -/
def Returns (round : S → Option (R ⊕ S)) (s : S) (result : R) : Prop :=
  ∃ n, ∀ fuel ≥ n, run round fuel s = some result

section Returns

variable {round : S → Option (R ⊕ S)} {s next : S} {result : R}

theorem returns_of_inl (h : round s = some (.inl result)) : Returns round s result := by
  refine ⟨1, fun fuel enough => ?_⟩
  obtain ⟨fuel, rfl⟩ := Nat.exists_eq_add_of_le' enough
  simp only [run, h]

theorem Returns.of_inr (h : round s = some (.inr next)) (later : Returns round next result) :
    Returns round s result := by
  obtain ⟨n, later⟩ := later
  refine ⟨n + 1, fun fuel enough => ?_⟩
  obtain ⟨fuel, rfl⟩ := Nat.exists_eq_add_of_le' (Nat.le_of_add_left_le enough)
  simp only [run, h]
  exact later fuel (by omega)

/-- More fuel changes nothing. -/
theorem run_of_le {fuel fuel' : ℕ} (ran : run round fuel s = some result) (le : fuel ≤ fuel') :
    run round fuel' s = some result := by
  induction fuel generalizing s fuel' with
  | zero => cases ran
  | succ fuel ih =>
    obtain ⟨more, rfl⟩ := Nat.exists_eq_add_of_le' (Nat.le_of_add_left_le le)
    unfold run at ran ⊢
    cases outcome : round s with
    | none =>
      rw [outcome] at ran
      cases ran
    | some outcome' =>
      rw [outcome] at ran
      cases outcome' with
      | inl _ => exact ran
      | inr next => exact ih ran (Nat.le_of_succ_le_succ le)

/-- Where an invariant holds, rounds do not fail and lead down: the loop returns, from a state in which the
invariant holds. -/
theorem exists_returns {P : S → Prop} {down : S → S → Prop} (wf : WellFounded down)
    (keeps : ∀ s, P s → (∃ result, round s = some (.inl result)) ∨
      ∃ next, round s = some (.inr next) ∧ P next ∧ down next s) (s : S) (holds : P s) :
    ∃ last result, P last ∧ round last = some (.inl result) ∧ Returns round s result := by
  induction s using wf.induction with
  | h s ih =>
    rcases keeps s holds with ⟨result, ends⟩ | ⟨next, goesOn, holds', lower⟩
    · exact ⟨s, result, holds, ends, returns_of_inl ends⟩
    · obtain ⟨last, result, final, ends, returns⟩ := ih next lower holds'
      exact ⟨last, result, final, ends, returns.of_inr goesOn⟩

end Returns

/-! ## Loops that do the same -/

section Map

variable {S' R' : Type*} {round : S → Option (R ⊕ S)} {round' : S' → Option (R' ⊕ S')} {f : S → S'} {g : R → R'}

/-- The rounds of one loop are those of another one, seen through a function on its states. -/
theorem run_map (same : ∀ s, round' (f s) = (round s).map (Sum.map g f)) (fuel : ℕ) (s : S) :
    run round' fuel (f s) = (run round fuel s).map g := by
  induction fuel generalizing s with
  | zero => rfl
  | succ fuel ih =>
    unfold run
    rw [same]
    cases round s with
    | none => rfl
    | some outcome =>
      cases outcome with
      | inl result => rfl
      | inr next => exact ih next

theorem Returns.map (same : ∀ s, round' (f s) = (round s).map (Sum.map g f)) {s : S} {result : R}
    (h : Returns round s result) : Returns round' (f s) (g result) := by
  obtain ⟨n, returns⟩ := h
  exact ⟨n, fun fuel enough => by rw [run_map same, returns fuel enough, Option.map_some]⟩

end Map

end Loops
