import Mathlib.Tactic.TypeStar

/-!
# Runs of stateful code that can stop early

A condition on what a run returns and leaves, and one on why it stops.
-/

namespace TORdex

section Ensures

variable {σ ε α β : Type} {m : StateT σ (Except ε) α} {f : α → StateT σ (Except ε) β} {s : σ}
  {Q : α → σ → Prop} {R : β → σ → Prop} {E : ε → Prop}

/-- From `s`, `m` returns with `Q` or stops with `E`. -/
def Ensures (m : StateT σ (Except ε) α) (s : σ) (Q : α → σ → Prop) (E : ε → Prop) : Prop :=
  match m s with
  | .ok (a, s') => Q a s'
  | .error e => E e

theorem Ensures.bind (h : Ensures m s Q E) (next : ∀ a s', Q a s' → Ensures (f a) s' R E) :
    Ensures (m >>= f) s R E := by
  unfold Ensures at h ⊢
  show match Except.bind (m s) fun r => f r.1 r.2 with
    | .ok (b, s') => R b s'
    | .error e => E e
  cases hm : m s with
  | ok r =>
    rw [hm] at h
    exact next r.1 r.2 h
  | error e =>
    rw [hm] at h
    exact h

theorem Ensures.mono {Q' : α → σ → Prop} (h : Ensures m s Q E) (weaker : ∀ a s', Q a s' → Q' a s') :
    Ensures m s Q' E := by
  unfold Ensures at h ⊢
  cases hm : m s with
  | ok r =>
    rw [hm] at h
    exact weaker _ _ h
  | error e =>
    rw [hm] at h
    exact h

theorem Ensures.of_ok {a : α} {s' : σ} (h : Ensures m s Q E) (run : m s = .ok (a, s')) : Q a s' := by
  unfold Ensures at h
  rwa [run] at h

theorem Ensures.of_error {e : ε} (h : Ensures m s Q E) (run : m s = .error e) : E e := by
  unfold Ensures at h
  rwa [run] at h

theorem ensures_pure {a : α} (h : Q a s) : Ensures (pure a) s Q E := h

end Ensures

/-- What holds of the elements that are done, and of the next one. -/
theorem forall_mem_concat {α : Type*} {l : List α} {a : α} {P : α → Prop} (h : ∀ x ∈ l, P x) (ha : P a) :
    ∀ x ∈ l ++ [a], P x := by
  intro x hx
  rcases List.mem_append.1 hx with hx | hx
  · exact h x hx
  · exact List.mem_singleton.1 hx ▸ ha

/-- A loop whose body never fails from a state with the invariant.  The invariant may speak of the elements
that are done. -/
theorem foldlM_ensures {α σ : Type*} {f : σ → α → Option σ} {P : List α → σ → Prop} {l : List α} {s : σ}
    (first : P [] s)
    (step : ∀ before x after, l = before ++ x :: after → ∀ s, P before s →
      ∃ s', f s x = some s' ∧ P (before ++ [x]) s') :
    ∃ s', l.foldlM f s = some s' ∧ P l s' := by
  have rest : ∀ before after s, l = before ++ after → P before s →
      ∃ s', after.foldlM f s = some s' ∧ P l s' := by
    intro before after
    induction after generalizing before with
    | nil =>
      intro s split h
      rw [List.append_nil] at split
      exact ⟨s, rfl, split ▸ h⟩
    | cons x after ih =>
      intro s split h
      obtain ⟨s', hf, hs'⟩ := step before x after split s h
      obtain ⟨last, hl, h⟩ := ih (before ++ [x]) s' (by simpa using split) hs'
      exact ⟨last, by rw [List.foldlM_cons, hf]; exact hl, h⟩
  exact rest [] l s rfl first

/-- The steps of one loop are those of another one, seen through a function on its states. -/
theorem foldlM_map {α σ τ : Type*} {f : σ → α → Option σ} {f' : τ → α → Option τ} {φ : σ → τ}
    (same : ∀ s a, f' (φ s) a = (f s a).map φ) (l : List α) (s : σ) :
    l.foldlM f' (φ s) = (l.foldlM f s).map φ := by
  induction l generalizing s with
  | nil => rfl
  | cons a l ih =>
    rw [List.foldlM_cons, List.foldlM_cons, same]
    cases f s a with
    | none => rfl
    | some s' => exact ih s'

/-- A loop whose body gives results wherever that of another one does. -/
theorem foldlM_mono {α σ : Type*} {f f' : σ → α → Option σ} (more : ∀ s a t, f s a = some t → f' s a = some t)
    {l : List α} {s t : σ} (h : l.foldlM f s = some t) : l.foldlM f' s = some t := by
  induction l generalizing s with
  | nil => exact h
  | cons a l ih =>
    obtain ⟨s', first, rest⟩ := Option.bind_eq_some_iff.1 h
    rw [List.foldlM_cons, more s a s' first]
    exact ih rest

end TORdex
