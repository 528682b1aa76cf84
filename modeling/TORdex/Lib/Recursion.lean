import Mathlib.Data.Set.Finite.Basic
import Mathlib.Logic.Relation
import Mathlib.Order.WellFounded

/-!
# Recursion with fuel

A body computes a result from the results of its calls, and has none as long as one of them has none.  A call
returns exactly if no chain of calls leads from it into a cycle, when the calls with calls of their own are
finitely many.
-/

open Relation

namespace Recursion

variable {A R : Type*}

/-- At most so many calls inside one another. -/
def run (body : (A → Option R) → A → Option R) : ℕ → A → Option R
  | 0, _ => none
  | fuel + 1, a => body (run body fuel) a

/-- The call returns this result, with any fuel from some amount on. -/
def Returns (body : (A → Option R) → A → Option R) (a : A) (result : R) : Prop :=
  ∃ n, ∀ fuel ≥ n, run body fuel a = some result

/-- A result stays what it is when more calls have one. -/
def Mono (body : (A → Option R) → A → Option R) : Prop :=
  ∀ call call' : A → Option R, (∀ a r, call a = some r → call' a = some r) →
    ∀ a r, body call a = some r → body call' a = some r

variable {body : (A → Option R) → A → Option R} {a b : A} {r r' : R} {m n : ℕ}

theorem run_mono (mono : Mono body) (le : m ≤ n) (h : run body m a = some r) : run body n a = some r := by
  induction m generalizing n a r with
  | zero => cases h
  | succ m ih =>
    obtain ⟨n, rfl⟩ := Nat.exists_eq_add_of_le' le
    exact mono _ _ (fun b s => ih (Nat.le_add_left m n)) a r h

theorem returns_iff (mono : Mono body) : Returns body a r ↔ ∃ n, run body n a = some r :=
  ⟨fun ⟨n, h⟩ => ⟨n, h n le_rfl⟩, fun ⟨n, h⟩ => ⟨n, fun _ le => run_mono mono le h⟩⟩

theorem exists_returns_iff (mono : Mono body) : (∃ r, Returns body a r) ↔ ∃ n, (run body n a).isSome := by
  simp only [returns_iff mono, Option.isSome_iff_exists]
  exact exists_comm

theorem Returns.unique (h : Returns body a r) (h' : Returns body a r') : r = r' := by
  obtain ⟨n, h⟩ := h
  obtain ⟨n', h'⟩ := h'
  exact Option.some.inj ((h _ (le_max_left n n')).symm.trans (h' _ (le_max_right n n')))

/-- Finitely many elements have the property with the same fuel, if more fuel is as good. -/
theorem exists_forall_of_mono {P : ℕ → A → Prop} (mono : ∀ {m n a}, m ≤ n → P m a → P n a) {l : List A}
    (h : ∀ a ∈ l, ∃ n, P n a) : ∃ n, ∀ a ∈ l, P n a := by
  induction l with
  | nil => exact ⟨0, List.forall_mem_nil _⟩
  | cons b l ih =>
    obtain ⟨n, rest⟩ := ih fun a ha => h a (List.mem_cons_of_mem _ ha)
    obtain ⟨m, first⟩ := h b List.mem_cons_self
    exact ⟨max m n, List.forall_mem_cons.2
      ⟨mono (le_max_left m n) first, fun a ha => mono (le_max_right m n) (rest a ha)⟩⟩

/-! ## Cycles of calls -/

section Calls

variable {calls : A → List A}

/-- One call is made by another one. -/
def Makes (calls : A → List A) (a b : A) : Prop := b ∈ calls a

/-- A call returns with some more fuel exactly if the calls that it makes return. -/
def Needs (body : (A → Option R) → A → Option R) (calls : A → List A) (a : A) : Prop :=
  ∀ n, (run body (n + 1) a).isSome ↔ ∀ b ∈ calls a, (run body n b).isSome

variable (needs : ∀ b, ReflTransGen (Makes calls) a b → Needs body calls b)

include needs

/-- What is called returns with less fuel. -/
theorem exists_lt_of_transGen (reach : ReflTransGen (Makes calls) a b) (h : (run body n b).isSome) {c : A}
    (path : TransGen (Makes calls) b c) : ∃ m < n, (run body m c).isSome := by
  have step {x y : A} {k : ℕ} (reach : ReflTransGen (Makes calls) a x) (hx : (run body k x).isSome)
      (makes : Makes calls x y) : ∃ m < k, (run body m y).isSome := by
    cases k with
    | zero => cases hx
    | succ k => exact ⟨k, k.lt_succ_self, (needs x reach k).1 hx y makes⟩
  induction path with
  | single makes => exact step reach h makes
  | tail path makes ih =>
    obtain ⟨m, less, hm⟩ := ih
    obtain ⟨k, less', hk⟩ := step (reach.trans path.to_reflTransGen) hm makes
    exact ⟨k, less'.trans less, hk⟩

theorem exists_run_of_reach (reach : ReflTransGen (Makes calls) a b) (h : (run body n a).isSome) :
    ∃ m, (run body m b).isSome := by
  rcases reflTransGen_iff_eq_or_transGen.1 reach with rfl | path
  · exact ⟨n, h⟩
  · obtain ⟨m, -, hm⟩ := exists_lt_of_transGen needs .refl h path
    exact ⟨m, hm⟩

theorem not_cycle_of_run (h : (run body n a).isSome) (reach : ReflTransGen (Makes calls) a b) :
    ¬TransGen (Makes calls) b b := by
  obtain ⟨m, hm⟩ := exists_run_of_reach needs reach h
  intro cycle
  induction m using Nat.strong_induction_on with
  | h m ih =>
    obtain ⟨k, less, hk⟩ := exists_lt_of_transGen needs reach hm cycle
    exact ih k less hk

omit needs in
/-- Finitely many calls that return do so with the same fuel. -/
theorem exists_common (mono : Mono body) {l : List A} (h : ∀ b ∈ l, ∃ n, (run body n b).isSome) :
    ∃ n, ∀ b ∈ l, (run body n b).isSome := by
  refine exists_forall_of_mono (fun le hb => ?_) h
  obtain ⟨r, hr⟩ := Option.isSome_iff_exists.1 hb
  exact Option.isSome_iff_exists.2 ⟨r, run_mono mono le hr⟩

theorem exists_run_of_no_cycle (mono : Mono body)
    (finite : {b | ReflTransGen (Makes calls) a b ∧ calls b ≠ []}.Finite)
    (acyclic : ∀ b, ReflTransGen (Makes calls) a b → ¬TransGen (Makes calls) b b) :
    ∃ n, (run body n a).isSome := by
  -- the calls with calls of their own, those further down first
  have := finite.to_subtype
  let below : {b | ReflTransGen (Makes calls) a b ∧ calls b ≠ []} →
      {b | ReflTransGen (Makes calls) a b ∧ calls b ≠ []} →
    Prop := fun c b => TransGen (Makes calls) b.1 c.1
  have : IsTrans _ below := ⟨fun _ _ _ first second => second.trans first⟩
  have : Std.Irrefl below := ⟨fun b => acyclic b.1 b.2.1⟩
  have leaf {b : A} (reach : ReflTransGen (Makes calls) a b) (none : calls b = []) :
      ∃ n, (run body n b).isSome :=
    ⟨1, (needs b reach 0).2 fun c hc => by rw [none] at hc; cases hc⟩
  have inner (b : {b | ReflTransGen (Makes calls) a b ∧ calls b ≠ []}) : ∃ n, (run body n b.1).isSome := by
    induction b using (Finite.wellFounded_of_trans_of_irrefl below).induction with
    | h b ih =>
      have called : ∀ c ∈ calls b.1, ∃ n, (run body n c).isSome := by
        intro c hc
        by_cases none : calls c = []
        · exact leaf (b.2.1.tail hc) none
        · exact ih ⟨c, b.2.1.tail hc, none⟩ (.single hc)
      obtain ⟨n, all⟩ := exists_common mono called
      exact ⟨n + 1, (needs b.1 b.2.1 n).2 all⟩
  by_cases none : calls a = []
  · exact leaf .refl none
  · exact inner ⟨a, .refl, none⟩

end Calls

end Recursion
