import Mathlib.Data.Finset.Lattice.Fold
import Mathlib.Data.List.Infix
import Mathlib.Logic.Relation

/-!
# Runs

Runs of a system whose steps are actions, with a condition on the actions that a state allows, and runs that only
take joins.
-/

namespace TORdex

variable {S A : Type*} {step : S → A → S} {allowed : S → A → Prop} {first s : S}

/-- The state is reached from the first one by allowed actions. -/
def Reached (step : S → A → S) (allowed : S → A → Prop) : S → S → Prop :=
  Relation.ReflTransGen fun s s' => ∃ a, allowed s a ∧ step s a = s'

namespace Reached

theorem start (step : S → A → S) (allowed : S → A → Prop) (first : S) : Reached step allowed first first := .refl

theorem next (h : Reached step allowed first s) {a : A} (ha : allowed s a) :
    Reached step allowed first (step s a) := h.tail ⟨a, ha, rfl⟩

/-- What holds at first and is kept by every allowed action holds in every state reached. -/
theorem invariant {P : S → Prop} (h : Reached step allowed first s) (holds : P first)
    (keeps : ∀ s a, P s → allowed s a → P (step s a)) : P s := by
  induction h with
  | refl => exact holds
  | tail _ last ih =>
    obtain ⟨a, ha, rfl⟩ := last
    exact keeps _ a ih ha

end Reached

/-- Each of the actions is allowed where it is taken. -/
def Along (step : S → A → S) (allowed : S → A → Prop) : S → List A → Prop
  | _, [] => True
  | s, a :: actions => allowed s a ∧ Along step allowed (step s a) actions

theorem Along.reached {actions : List A} (h : Along step allowed first actions) :
    Reached step allowed first (actions.foldl step first) := by
  induction actions generalizing first with
  | nil => exact .start ..
  | cons a actions ih => exact (ih h.2).head ⟨a, h.1, rfl⟩

theorem along_of_forall {allowed : A → Prop} {actions : List A} (h : ∀ a ∈ actions, allowed a) :
    Along step (fun _ a => allowed a) first actions := by
  induction actions generalizing first with
  | nil => trivial
  | cons a actions ih => exact ⟨h a List.mem_cons_self, ih fun b hb => h b (List.mem_cons_of_mem _ hb)⟩

theorem reached_foldl (step : S → A → S) (first : S) (actions : List A) :
    Reached step (fun _ _ => True) first (actions.foldl step first) :=
  Along.reached (along_of_forall fun _ _ => trivial)

/-- A property of histories that an action keeps exactly under a condition holds all along a history exactly
when the condition holds at each of its actions. -/
theorem forall_isPrefix_iff {P : List A → Prop} {Q : List A → A → Prop} (first : P [])
    (next : ∀ l a, (∀ earlier, earlier <+: l → P earlier) → (P (l ++ [a]) ↔ Q l a)) (l : List A) :
    (∀ earlier, earlier <+: l → P earlier) ↔ ∀ earlier a, earlier ++ [a] <+: l → Q earlier a := by
  induction l using List.reverseRecOn with
  | nil =>
    refine iff_of_true (fun earlier before => ?_) fun earlier a before => ?_
    · rwa [List.prefix_nil.1 before]
    · simp at before
  | append_singleton l a ih =>
    constructor
    · intro holds
      have before := fun earlier h => holds earlier (List.IsPrefix.trans h (List.prefix_append l [a]))
      intro earlier b h
      rcases List.prefix_concat_iff.1 h with whole | inside
      · obtain ⟨rfl, last⟩ := List.append_inj' whole rfl
        obtain rfl : b = a := by simpa using last
        exact (next _ _ before).1 (holds _ List.prefix_rfl)
      · exact ih.1 before earlier b inside
    · intro holds earlier h
      have before := ih.2 fun earlier b inside => holds earlier b (inside.trans (List.prefix_append l [a]))
      rcases List.prefix_concat_iff.1 h with rfl | inside
      · exact (next l a before).2 (holds l a List.prefix_rfl)
      · exact before earlier inside

end TORdex

/-! ## States that only take joins

Every input joins a value of its own to what is seen of the state.  Then the order and the repetitions of the
inputs do not matter, and inputs may be split over several states whose views are joined afterwards.
-/

namespace Joins

variable {S A L : Type*} [DecidableEq A] [SemilatticeSup L] [OrderBot L] {step : S → A → Option S}
    {P : S → Prop}
  {view : S → L} {f : A → L} {s : S}

/-- A run is the join of its distinct inputs. -/
theorem exists_run (joins : ∀ s a, P s → ∃ t, step s a = some t ∧ P t ∧ view t = view s ⊔ f a) (l : List A)
    (h : P s) : ∃ t, l.foldlM step s = some t ∧ P t ∧ view t = view s ⊔ l.toFinset.sup f := by
  induction l generalizing s with
  | nil => exact ⟨s, rfl, h, by simp⟩
  | cons a l ih =>
    obtain ⟨t, ran, next, seen⟩ := joins s a h
    obtain ⟨u, rest, last, seen'⟩ := ih next
    refine ⟨u, ?_, last, ?_⟩
    · rw [List.foldlM_cons, ran]
      exact rest
    · rw [seen', seen, List.toFinset_cons, Finset.sup_insert, sup_assoc]

end Joins
