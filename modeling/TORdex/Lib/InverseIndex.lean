import Mathlib.Logic.Basic
import Mathlib.Data.Set.Basic

/-!
# Inverse indexes

Names hold values, and an index gives for a value one of the names that hold it.  Writing the values of one
name into the index, or taking them out of it, keeps the index right only under conditions on the other names
and on the values that the name had before.
-/

namespace InverseIndex

variable {K V : Type*}

/-- The index has the values that are held, and names a holder for each. -/
structure Represents (holds : K → Set V) (index : V → Option K) : Prop where
  sound : ∀ {v k}, index v = some k → v ∈ holds k
  complete : ∀ {k v}, v ∈ holds k → (index v).isSome

variable {holds holds' : K → Set V} {index index' : V → Option K} {k : K}

/-- A name gets new values, which are written into the index: the index must not have named it for a value
that it no longer holds. -/
theorem represents_assign_iff {vs : Set V} (h : Represents holds index) (own : holds' k = vs)
    (others : ∀ k', k' ≠ k → holds' k' = holds k') (new : ∀ v ∈ vs, index' v = some k)
    (kept : ∀ v ∉ vs, index' v = index v) :
    Represents holds' index' ↔ ∀ v, index v = some k → v ∈ vs := by
  constructor
  · intro right v found
    by_contra absent
    exact absent (own ▸ right.sound ((kept v absent).trans found))
  · intro named
    constructor
    · intro v k' found
      by_cases inside : v ∈ vs
      · rw [new v inside, Option.some.injEq] at found
        rw [← found, own]
        exact inside
      · rw [kept v inside] at found
        have ne : k' ≠ k := fun same => inside (named v (same ▸ found))
        rw [others k' ne]
        exact h.sound found
    · intro k' v held
      by_cases inside : v ∈ vs
      · rw [new v inside]
        rfl
      · have ne : k' ≠ k := fun same => inside (own ▸ same ▸ held)
        rw [kept v inside]
        exact h.complete (others k' ne ▸ held)

/-- A name is taken away, and its values are taken out of the index: none of them may have another holder. -/
theorem represents_retract_iff (h : Represents holds index) (own : holds' k = ∅)
    (others : ∀ k', k' ≠ k → holds' k' = holds k') (gone : ∀ v ∈ holds k, index' v = none)
    (kept : ∀ v ∉ holds k, index' v = index v) :
    Represents holds' index' ↔ ∀ k', k' ≠ k → ∀ v ∈ holds k, v ∉ holds k' := by
  constructor
  · intro right k' ne v held held'
    have found := right.complete (others k' ne ▸ held')
    rw [gone v held] at found
    cases found
  · intro apart
    constructor
    · intro v k' found
      by_cases held : v ∈ holds k
      · rw [gone v held] at found
        cases found
      · rw [kept v held] at found
        have ne : k' ≠ k := fun same => held (same ▸ h.sound found)
        rw [others k' ne]
        exact h.sound found
    · intro k' v held
      have ne : k' ≠ k := by
        rintro rfl
        rw [own] at held
        exact held
      rw [others k' ne] at held
      rw [kept v fun own => apart k' ne v own held]
      exact h.complete held

end InverseIndex
