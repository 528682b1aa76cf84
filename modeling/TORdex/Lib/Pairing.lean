import Mathlib.Data.List.Basic
import Mathlib.Tactic.Cases

/-!
# Pairing rounds

The entries of a list are joined two by two, and a last one without a partner stays; rounds of this
end with one entry.
-/

namespace Pairing

variable {α β : Type*} {f : α → α → α}

/-- One round. -/
def pairUp (f : α → α → α) : List α → List α
  | a :: b :: rest => f a b :: pairUp f rest
  | [a] => [a]
  | [] => []

/-- The entries that a round joins. -/
def pairs : List α → List (α × α)
  | a :: b :: rest => (a, b) :: pairs rest
  | [_] => []
  | [] => []

attribute [grind =] pairUp pairs

theorem length_pairUp (f : α → α → α) (l : List α) : (pairUp f l).length = (l.length + 1) / 2 := by
  induction l using pairUp.induct with
  | case1 a b rest ih =>
    rw [pairUp, List.length_cons, ih]
    simp only [List.length_cons]
    omega
  | case2 a => simp [pairUp]
  | case3 => simp [pairUp]

/-- What a round puts in a place. -/
theorem getElem?_pairUp (f : α → α → α) (l : List α) (i : ℕ) :
    (pairUp f l)[i]? = l[2 * i]?.map fun a => (l[2 * i + 1]?.map (f a)).getD a := by
  induction l using pairUp.induct generalizing i with
  | case1 a b rest ih =>
    cases i with
    | zero => rfl
    | succ i =>
      rw [pairUp, List.getElem?_cons_succ, ih]
      rfl
  | case2 a =>
    cases i with
    | zero => rfl
    | succ i => rfl
  | case3 => rfl

theorem map_pairUp {g : α → β} {f' : β → β → β} (hom : ∀ a b, g (f a b) = f' (g a) (g b)) (l : List α) :
    (pairUp f l).map g = pairUp f' (l.map g) := by
  induction l using pairUp.induct with
  | case1 a b rest ih => simp only [pairUp, List.map_cons, hom, ih]
  | case2 a => rfl
  | case3 => rfl

theorem map_pairs (g : α → β) (l : List α) : pairs (l.map g) = (pairs l).map (Prod.map g g) := by
  induction l using pairs.induct with
  | case1 a b rest ih => simp only [pairs, List.map_cons, ih, Prod.map]
  | case2 a => rfl
  | case3 => rfl

/-- A joined entry comes from a pair; the others are as before. -/
theorem mem_pairUp {l : List α} {x : α} (h : x ∈ pairUp f l) : x ∈ l ∨ ∃ p ∈ pairs l, x = f p.1 p.2 := by
  induction l using pairUp.induct with
  | case1 a b rest ih =>
    rcases List.mem_cons.1 h with rfl | h
    · exact .inr ⟨(a, b), List.mem_cons_self, rfl⟩
    · rcases ih h with old | ⟨p, hp, rfl⟩
      · exact .inl (List.mem_cons_of_mem _ (List.mem_cons_of_mem _ old))
      · exact .inr ⟨p, List.mem_cons_of_mem _ hp, rfl⟩
  | case2 a => exact .inl h
  | case3 => cases h

theorem mem_of_mem_pairs {l : List α} {p : α × α} (h : p ∈ pairs l) : p.1 ∈ l ∧ p.2 ∈ l := by
  induction l using pairs.induct with
  | case1 a b rest ih =>
    rcases List.mem_cons.1 h with rfl | h
    · exact ⟨List.mem_cons_self, List.mem_cons_of_mem _ List.mem_cons_self⟩
    · exact ⟨List.mem_cons_of_mem _ (List.mem_cons_of_mem _ (ih h).1),
        List.mem_cons_of_mem _ (List.mem_cons_of_mem _ (ih h).2)⟩
  | case2 a => cases h
  | case3 => cases h

/-- The lists from round to round, until one entry is left. -/
def ladder (f : α → α → α) (l : List α) : List (List α) :=
  if 1 < l.length then l :: ladder f (pairUp f l) else [l]
termination_by l.length
decreasing_by
  rw [length_pairUp]
  omega

attribute [grind =] ladder

theorem ladder_of_lt {l : List α} (h : 1 < l.length) : ladder f l = l :: ladder f (pairUp f l) := by
  rw [ladder, if_pos h]

theorem ladder_of_not_lt {l : List α} (h : ¬1 < l.length) : ladder f l = [l] := by
  rw [ladder, if_neg h]

theorem ladder_ne_nil (f : α → α → α) (l : List α) : ladder f l ≠ [] := by
  unfold ladder
  split_ifs <;> exact List.cons_ne_nil _ _

/-- The last list of a ladder that goes on is the last one after the round. -/
theorem getLast?_ladder {l : List α} (h : 1 < l.length) :
    (ladder f l).getLast? = (ladder f (pairUp f l)).getLast? := by
  obtain ⟨next, rest, eq⟩ := List.exists_cons_of_ne_nil (ladder_ne_nil f (pairUp f l))
  rw [ladder_of_lt h, eq, List.getLast?_cons_cons]

theorem map_ladder {g : α → β} {f' : β → β → β} (hom : ∀ a b, g (f a b) = f' (g a) (g b)) (l : List α) :
    (ladder f l).map (List.map g) = ladder f' (l.map g) := by
  induction l using ladder.induct f with
  | case1 l long ih =>
    have long' : 1 < (l.map g).length := by rwa [List.length_map]
    rw [ladder_of_lt long, ladder_of_lt long', List.map_cons, ih, map_pairUp hom]
  | case2 l short =>
    have short' : ¬1 < (l.map g).length := by rwa [List.length_map]
    rw [ladder_of_not_lt short, ladder_of_not_lt short']
    rfl

/-- The entry that is left; there is none when there was none at first. -/
def last (f : α → α → α) (l : List α) : Option α := (ladder f l).getLast?.bind List.head?

theorem last_of_lt {l : List α} (h : 1 < l.length) : last f l = last f (pairUp f l) := by
  rw [last, getLast?_ladder h, last]

theorem map_last {g : α → β} {f' : β → β → β} (hom : ∀ a b, g (f a b) = f' (g a) (g b)) (l : List α) :
    (last f l).map g = last f' (l.map g) := by
  rw [last, last, ← map_ladder hom, List.getLast?_map, Option.map_bind, Option.bind_map]
  congr 1
  funext level
  exact (List.head?_map).symm

theorem last_singleton (f : α → α → α) (a : α) : last f [a] = some a := by
  rw [last, ladder_of_not_lt (by simp)]
  rfl

theorem last_nil (f : α → α → α) : last f [] = none := by
  rw [last, ladder_of_not_lt (by simp)]
  rfl

end Pairing
