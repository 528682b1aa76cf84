import Mathlib.Data.List.Basic

/-!
# Encodings that tell where they end

A code word is *read* from a text when the text determines the word and what follows it.  Words that are read can
be put in a row up to a stop letter, with or without separators, and the row is read too.
-/

namespace Delimiters

variable {α β : Type*}

/-- A text that begins with the word of `a` begins with no other word, if what follows the word is as `follow`
says. -/
def Reads (enc : α → List β) (valid : α → Prop) (follow : List β → Prop) (a : α) : Prop :=
  ∀ b s t, valid b → follow s → follow t → enc a ++ s = enc b ++ t → a = b ∧ s = t

/-- The word has a first letter, which is not the stop. -/
def Opens (enc : α → List β) (stop : β) (a : α) : Prop := ∃ c rest, enc a = c :: rest ∧ c ≠ stop

/-- Words with a separator between them. -/
def joined (enc : α → List β) (sep : β) : List α → List β
  | [] => []
  | [x] => enc x
  | x :: xs => enc x ++ sep :: joined enc sep xs

section Rows

variable {enc : α → List β} {valid : α → Prop} {follow : List β → Prop} {stop sep : β}

/-- A row of words up to a stop. -/
theorem flatMap_stop {xs ys : List α} (reads : ∀ x ∈ xs, Reads enc valid (fun _ => True) x)
    (opens : ∀ a, valid a → Opens enc stop a) (hx : ∀ x ∈ xs, valid x) (hy : ∀ y ∈ ys, valid y) {s t : List β}
    (h : xs.flatMap enc ++ stop :: s = ys.flatMap enc ++ stop :: t) : xs = ys ∧ s = t := by
  induction xs generalizing ys with
  | nil =>
    cases ys with
    | nil => exact ⟨rfl, (List.cons_eq_cons.1 h).2⟩
    | cons y ys =>
      obtain ⟨c, rest, word, other⟩ := opens y (hy y List.mem_cons_self)
      rw [List.flatMap_cons, word] at h
      exact absurd (List.cons_eq_cons.1 h).1.symm other
  | cons x xs ih =>
    cases ys with
    | nil =>
      obtain ⟨c, rest, word, other⟩ := opens x (hx x List.mem_cons_self)
      rw [List.flatMap_cons, word] at h
      exact absurd (List.cons_eq_cons.1 h).1 other
    | cons y ys =>
      rw [List.flatMap_cons, List.flatMap_cons, List.append_assoc, List.append_assoc] at h
      obtain ⟨rfl, rest⟩ := reads x List.mem_cons_self y _ _ (hy y List.mem_cons_self) trivial trivial h
      obtain ⟨rfl, rfl⟩ := ih (fun z hz => reads z (List.mem_cons_of_mem _ hz))
        (fun z hz => hx z (List.mem_cons_of_mem _ hz)) (fun z hz => hy z (List.mem_cons_of_mem _ hz)) rest
      exact ⟨rfl, rfl⟩

/-- What follows the first of the joined words. -/
def joinedTail (enc : α → List β) (sep stop : β) (s : List β) : List α → List β
  | [] => stop :: s
  | xs => sep :: (joined enc sep xs ++ stop :: s)

theorem joined_cons (x : α) (xs : List α) (s : List β) :
    joined enc sep (x :: xs) ++ stop :: s = enc x ++ joinedTail enc sep stop s xs := by
  cases xs with
  | nil => rfl
  | cons y ys =>
    rw [joined, List.append_assoc, List.cons_append]
    · rfl
    · exact List.cons_ne_nil y ys

/-- Joined words up to a stop. -/
theorem joined_stop {xs ys : List α} (apart : sep ≠ stop) (afterSep : ∀ s, follow (sep :: s))
    (afterStop : ∀ s, follow (stop :: s)) (reads : ∀ x ∈ xs, Reads enc valid follow x)
    (opens : ∀ a, valid a → Opens enc stop a) (hx : ∀ x ∈ xs, valid x) (hy : ∀ y ∈ ys, valid y) {s t : List β}
    (h : joined enc sep xs ++ stop :: s = joined enc sep ys ++ stop :: t) : xs = ys ∧ s = t := by
  have followTail : ∀ (s : List β) (xs : List α), follow (joinedTail enc sep stop s xs) := fun s xs => by
    cases xs with
    | nil => exact afterStop s
    | cons x xs => exact afterSep _
  induction xs generalizing ys with
  | nil =>
    cases ys with
    | nil => exact ⟨rfl, (List.cons_eq_cons.1 h).2⟩
    | cons y ys =>
      obtain ⟨c, rest, word, other⟩ := opens y (hy y List.mem_cons_self)
      rw [joined_cons, word] at h
      exact absurd (List.cons_eq_cons.1 h).1.symm other
  | cons x xs ih =>
    cases ys with
    | nil =>
      obtain ⟨c, rest, word, other⟩ := opens x (hx x List.mem_cons_self)
      rw [joined_cons, word] at h
      exact absurd (List.cons_eq_cons.1 h).1 other
    | cons y ys =>
      rw [joined_cons, joined_cons] at h
      obtain ⟨rfl, rest⟩ := reads x List.mem_cons_self y _ _ (hy y List.mem_cons_self) (followTail s xs)
        (followTail t ys) h
      have ih := fun zs => @ih zs (fun z hz => reads z (List.mem_cons_of_mem _ hz))
        (fun z hz => hx z (List.mem_cons_of_mem _ hz))
      cases xs with
      | nil =>
        cases ys with
        | nil => exact ⟨rfl, (List.cons_eq_cons.1 rest).2⟩
        | cons z zs => exact absurd (List.cons_eq_cons.1 rest).1.symm apart
      | cons w ws =>
        cases ys with
        | nil => exact absurd (List.cons_eq_cons.1 rest).1 apart
        | cons z zs =>
          obtain ⟨same, rfl⟩ := ih (z :: zs) (fun a ha => hy a (List.mem_cons_of_mem _ ha))
            (List.cons_eq_cons.1 rest).2
          exact ⟨congrArg (x :: ·) same, rfl⟩

end Rows

/-! ## Words over an alphabet of their own -/

section Runs

variable {letter : β → Bool} {a b s t : List β}

/-- The text is empty or goes on with a letter of another alphabet. -/
def Leaves (letter : β → Bool) (s : List β) : Prop := ∀ c ∈ s.head?, letter c = false

/-- A word over an alphabet ends where the text leaves the alphabet. -/
theorem append_of_leaves (ha : ∀ c ∈ a, letter c = true) (hb : ∀ c ∈ b, letter c = true) (hs : Leaves letter s)
    (ht : Leaves letter t) (h : a ++ s = b ++ t) : a = b ∧ s = t := by
  have run : ∀ {a s : List β}, (∀ c ∈ a, letter c = true) → Leaves letter s → (a ++ s).takeWhile letter = a := by
    intro a s ha hs
    rw [List.takeWhile_append_of_pos ha]
    cases s with
    | nil => simp
    | cons c s => simp [hs c rfl]
  have same : a = b := by rw [← run ha hs, h, run hb ht]
  subst same
  exact ⟨rfl, List.append_cancel_left h⟩

end Runs

end Delimiters
