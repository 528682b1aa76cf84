import TORdex.Lib.FiniteMap

/-!
# Differences of finite maps

The entries that one map has and the other one has not, the keys that are gone, and the changes under the keys
of both maps, each in no order.  The differences from one map to two others tell how far these agree.
-/

namespace MapDiff

variable {K V C : Type*} [DecidableEq K] {m n : Finmap fun _ : K => V} {k : K} {x y z : V}

/-- The values under new keys. -/
def added (m n : Finmap fun _ : K => V) : Multiset V :=
  n.entries.filterMap fun e =>
    match m.lookup e.1 with
    | none => some e.2
    | some _ => none

/-- The keys that are gone. -/
def removed (m n : Finmap fun _ : K => V) : Multiset K :=
  m.entries.filterMap fun e =>
    match n.lookup e.1 with
    | none => some e.1
    | some _ => none

/-- The changes under the keys of both maps. -/
def modified (change : K → V → V → Option C) (m n : Finmap fun _ : K => V) : Multiset C :=
  n.entries.filterMap fun e => (m.lookup e.1).bind fun old => change e.1 old e.2

theorem mem_added : x ∈ added m n ↔ ∃ k, m.lookup k = none ∧ n.lookup k = some x := by
  simp only [added, Multiset.mem_filterMap, Sigma.exists, ← Finmap.lookup_eq_some_iff]
  constructor
  · rintro ⟨k, y, found, new⟩
    split at new
    · rename_i absent
      exact ⟨k, absent, Option.some.inj new ▸ found⟩
    · cases new
  · rintro ⟨k, absent, found⟩
    exact ⟨k, x, found, by rw [absent]⟩

theorem mem_removed : k ∈ removed m n ↔ (m.lookup k).isSome ∧ n.lookup k = none := by
  simp only [removed, Multiset.mem_filterMap, Sigma.exists, ← Finmap.lookup_eq_some_iff,
    Option.isSome_iff_exists]
  constructor
  · rintro ⟨k', x, found, gone⟩
    split at gone
    · rename_i absent
      cases gone
      exact ⟨⟨x, found⟩, absent⟩
    · cases gone
  · rintro ⟨⟨x, found⟩, absent⟩
    exact ⟨k, x, found, by rw [absent]⟩

variable {change : K → V → V → Option C} {c : C}

theorem mem_modified : c ∈ modified change m n ↔
    ∃ k x y, m.lookup k = some x ∧ n.lookup k = some y ∧ change k x y = some c := by
  simp only [modified, Multiset.mem_filterMap, Sigma.exists, ← Finmap.lookup_eq_some_iff,
    Option.bind_eq_some_iff]
  constructor
  · rintro ⟨k, y, found, x, old, changed⟩
    exact ⟨k, x, y, old, found, changed⟩
  · rintro ⟨k, x, y, old, found, changed⟩
    exact ⟨k, y, found, x, old, changed⟩

/-- Nothing is added, removed or modified exactly if the maps have the same keys, and no change under any of
them. -/
theorem no_difference_iff : (added m n = 0 ∧ removed m n = 0 ∧ modified change m n = 0) ↔
    ∀ k, (m.lookup k).isSome = (n.lookup k).isSome ∧
      ∀ x y, m.lookup k = some x → n.lookup k = some y → change k x y = none := by
  simp only [Multiset.eq_zero_iff_forall_notMem, mem_added, mem_removed, mem_modified]
  constructor
  · rintro ⟨noneAdded, noneRemoved, noneModified⟩ k
    refine ⟨?_, fun x y old new => Option.eq_none_iff_forall_ne_some.2 fun c changed =>
      noneModified c ⟨k, x, y, old, new, changed⟩⟩
    cases old : m.lookup k with
    | none =>
      cases new : n.lookup k with
      | none => rfl
      | some y => exact absurd ⟨k, old, new⟩ (noneAdded y)
    | some x =>
      cases new : n.lookup k with
      | none => exact absurd ⟨by rw [old]; rfl, new⟩ (noneRemoved k)
      | some y => rfl
  · intro same
    refine ⟨?_, ?_, ?_⟩
    · rintro y ⟨k, old, new⟩
      have keys := (same k).1
      rw [old, new] at keys
      cases keys
    · rintro k ⟨old, new⟩
      rw [(same k).1, new] at old
      cases old
    · rintro c ⟨k, x, y, old, new, changed⟩
      rw [(same k).2 x y old new] at changed
      cases changed

/-! ## Two differences from one map -/

section Determined

variable {n' : Finmap fun _ : K => V}

/-- Under a new key the values agree, when the values tell their keys. -/
theorem lookup_eq_of_added {key : V → K} (keyed : ∀ k x, n.lookup k = some x → key x = k)
    (keyed' : ∀ k x, n'.lookup k = some x → key x = k) (same : added m n = added m n')
    (new : m.lookup k = none) :
    n.lookup k = n'.lookup k := by
  have half {p q : Finmap fun _ : K => V} (keyedP : ∀ k x, p.lookup k = some x → key x = k)
      (keyedQ : ∀ k x, q.lookup k = some x → key x = k) (same : added m p = added m q) (x : V)
      (found : p.lookup k = some x) : q.lookup k = some x := by
    have mem : x ∈ added m q := same ▸ mem_added.2 ⟨k, new, found⟩
    obtain ⟨k', -, found'⟩ := mem_added.1 mem
    rwa [← keyedP k x found, keyedQ k' x found']
  exact Option.ext fun x => ⟨half keyed keyed' same x, half keyed' keyed same.symm x⟩

theorem isSome_eq_of_removed (same : removed m n = removed m n') (old : m.lookup k = some x) :
    (n.lookup k).isSome = (n'.lookup k).isSome := by
  have gone : n.lookup k = none ↔ n'.lookup k = none := by
    have member {p : Finmap fun _ : K => V} : k ∈ removed m p ↔ p.lookup k = none := by
      rw [mem_removed, old]
      exact and_iff_right rfl
    rw [← member, ← member, same]
  rw [Bool.eq_iff_iff, ← not_iff_not, Bool.not_eq_true, Bool.not_eq_true, Option.isSome_eq_false_iff,
    Option.isSome_eq_false_iff, Option.isNone_iff_eq_none, Option.isNone_iff_eq_none]
  exact gone

/-- Under an old key the changes agree, when the changes tell their keys. -/
theorem change_eq_of_modified (key : C → K) (keyed : ∀ k x y c, change k x y = some c → key c = k)
    (same : modified change m n = modified change m n') (old : m.lookup k = some x)
    (new : n.lookup k = some y)
    (new' : n'.lookup k = some z) : change k x y = change k x z := by
  have half {p q : Finmap fun _ : K => V} {y z : V} (same : modified change m p = modified change m q)
      (new : p.lookup k = some y) (new' : q.lookup k = some z) (c : C) (changed : change k x y = some c) :
      change k x z = some c := by
    have mem : c ∈ modified change m q := same ▸ mem_modified.2 ⟨k, x, y, old, new, changed⟩
    obtain ⟨k', x', z', old', new'', changed'⟩ := mem_modified.1 mem
    obtain rfl : k' = k := (keyed k' x' z' c changed').symm.trans (keyed k x y c changed)
    obtain rfl := Option.some.inj (old.symm.trans old')
    obtain rfl := Option.some.inj (new'.symm.trans new'')
    exact changed'
  exact Option.ext fun c => ⟨half same new new' c, half same.symm new' new c⟩

end Determined

end MapDiff
