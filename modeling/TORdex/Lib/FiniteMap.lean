import Mathlib.Data.Finmap
import Mathlib.Data.Set.Card
import Mathlib.Logic.Function.Basic

/-!
# Finite maps

The values of a map and the part of it with some of them; the values, what is found and the number of entries
after an insertion or an erasure; a map and a list of its entries; what insertion and erasure keep of a
property of all entries, and of the agreement of two maps under corresponding keys.
-/

namespace FiniteMap

variable {K V : Type*} [DecidableEq K] {m : Finmap fun _ : K => V} {k : K} {v : V}

/-- The values of a map, in no order. -/
def values (m : Finmap fun _ : K => V) : Multiset V := m.entries.map Sigma.snd

theorem mem_values : v ∈ values m ↔ ∃ k, m.lookup k = some v := by
  simp only [values, Multiset.mem_map, Finmap.lookup_eq_some_iff]
  constructor
  · rintro ⟨⟨k, v⟩, h, rfl⟩
    exact ⟨k, h⟩
  · rintro ⟨k, h⟩
    exact ⟨⟨k, v⟩, h, rfl⟩

/-- The values of a map whose entries are given by a function. -/
theorem values_eq_map {f : K → V} (h : ∀ k v, m.lookup k = some v → v = f k) :
    values m = m.keys.val.map f := by
  have keys : m.keys.val.map f = m.entries.map fun e => f e.1 := Multiset.map_map _ _ _
  rw [values, keys]
  exact Multiset.map_congr rfl fun e he => h e.1 e.2 (Finmap.lookup_eq_some_iff.2 he)

/-- An insertion replaces the value under its key, if there is one. -/
theorem insert_erase (m : Finmap fun _ : K => V) (k : K) (v : V) : (m.erase k).insert k v = m.insert k v := by
  refine Finmap.ext_lookup fun k' => ?_
  by_cases same : k' = k
  · rw [same, Finmap.lookup_insert, Finmap.lookup_insert]
  · rw [Finmap.lookup_insert_of_ne _ same, Finmap.lookup_insert_of_ne _ same, Finmap.lookup_erase_ne same]

theorem values_insert (m : Finmap fun _ : K => V) (k : K) (v : V) :
    values (m.insert k v) = v ::ₘ values (m.erase k) := by
  rw [← insert_erase, values, Finmap.entries_insert_of_notMem Finmap.notMem_erase_self, Multiset.map_cons]
  rfl

theorem erase_of_lookup_eq_none (h : m.lookup k = none) : m.erase k = m := by
  refine Finmap.ext_lookup fun k' => ?_
  by_cases same : k' = k
  · rw [same, Finmap.lookup_erase, h]
  · rw [Finmap.lookup_erase_ne same]

theorem values_of_lookup (h : m.lookup k = some v) : values m = v ::ₘ values (m.erase k) := by
  have again : m.insert k v = m := by
    refine Finmap.ext_lookup fun k' => ?_
    by_cases same : k' = k
    · rw [same, Finmap.lookup_insert, h]
    · rw [Finmap.lookup_insert_of_ne _ same]
  rw [← values_insert, again]

theorem card_insert (m : Finmap fun _ : K => V) (k : K) (v : V) :
    (m.insert k v).entries.card = (m.erase k).entries.card + 1 := by
  rw [← insert_erase, Finmap.entries_insert_of_notMem Finmap.notMem_erase_self, Multiset.card_cons]

theorem card_of_lookup (h : m.lookup k = some v) : m.entries.card = (m.erase k).entries.card + 1 := by
  have values := congrArg Multiset.card (values_of_lookup h)
  rwa [Multiset.card_cons, FiniteMap.values, FiniteMap.values, Multiset.card_map, Multiset.card_map] at values

theorem card_erase_le (m : Finmap fun _ : K => V) (k : K) : (m.erase k).entries.card ≤ m.entries.card := by
  cases found : m.lookup k with
  | none => rw [erase_of_lookup_eq_none found]
  | some v => exact (Nat.le_succ _).trans_eq (card_of_lookup found).symm

/-- Insertion updates every function of what is found. -/
theorem comp_lookup_insert {R : Type*} (f : Option V → R) (m : Finmap fun _ : K => V) (k : K) (v : V) :
    (fun k' => f ((m.insert k v).lookup k')) =
      Function.update (fun k' => f (m.lookup k')) k (f (some v)) := by
  funext k'
  by_cases same : k' = k
  · rw [same, Finmap.lookup_insert, Function.update_self]
  · rw [Finmap.lookup_insert_of_ne _ same, Function.update_of_ne same]

variable (p : V → Prop) [DecidablePred p]

/-- The entries whose values satisfy a condition. -/
def filter (m : Finmap fun _ : K => V) : Finmap fun _ : K => V where
  entries := m.entries.filter fun e => p e.2
  nodupKeys := by
    rw [← Multiset.nodup_keys]
    exact Multiset.nodup_of_le (Multiset.map_le_map (Multiset.filter_le _ _))
      (Multiset.nodup_keys.2 m.nodupKeys)

theorem lookup_filter (m : Finmap fun _ : K => V) (k : K) :
    (filter p m).lookup k = (m.lookup k).filter fun v => p v := by
  apply Option.ext
  intro v
  rw [Finmap.lookup_eq_some_iff, Option.filter_eq_some_iff, Finmap.lookup_eq_some_iff]
  simp [filter]

/-- The number of values with a property is the number of keys with such a value. -/
theorem card_filter_values (m : Finmap fun _ : K => V) :
    ((values m).filter p).card = {k | ∃ v, m.lookup k = some v ∧ p v}.ncard := by
  have keys : {k | ∃ v, m.lookup k = some v ∧ p v} = ((filter p m).keys : Set K) := by
    ext k
    rw [Finset.mem_coe, Finmap.mem_keys, ← Finmap.lookup_isSome, lookup_filter]
    cases found : m.lookup k <;> simp [found]
  have entries : ((filter p m).keys : Finset K).card = (m.entries.filter fun e => p e.2).card :=
    Multiset.card_map _ _
  rw [keys, Set.ncard_coe_finset, entries, values, Multiset.filter_map, Multiset.card_map]
  rfl

theorem filter_insert_of_pos {p : V → Prop} [DecidablePred p] (h : p v) :
    filter p (m.insert k v) = (filter p (m.erase k)).insert k v := by
  refine Finmap.ext_lookup fun k' => ?_
  by_cases same : k' = k
  · rw [same, lookup_filter, Finmap.lookup_insert, Finmap.lookup_insert]
    exact Option.filter_some_pos (decide_eq_true h)
  · rw [lookup_filter, Finmap.lookup_insert_of_ne _ same, Finmap.lookup_insert_of_ne _ same, lookup_filter,
      Finmap.lookup_erase_ne same]

/-! ## Collecting a list of entries -/

/-- The map of some entries, the last one under each key. -/
def collect (l : List (Σ _ : K, V)) : Finmap fun _ : K => V := l.foldl (fun m e => m.insert e.1 e.2) ∅

theorem entries_collect {l : List (Σ _ : K, V)} (nodup : (l.map Sigma.fst).Nodup) :
    (collect l).entries = l := by
  suffices ∀ m : Finmap fun _ : K => V, (∀ e ∈ l, e.1 ∉ m) →
      (l.foldl (fun m e => m.insert e.1 e.2) m).entries = (l : Multiset (Σ _ : K, V)) + m.entries by
    exact (this ∅ fun _ _ => Finmap.notMem_empty).trans (add_zero _)
  induction l with
  | nil => exact fun m _ => (zero_add _).symm
  | cons e l ih =>
    intro m fresh
    obtain ⟨first, later⟩ := List.nodup_cons.1 nodup
    have fresh' : ∀ e' ∈ l, e'.1 ∉ m.insert e.1 e.2 := by
      intro e' mem inside
      rcases Finmap.mem_insert.1 inside with same | old
      · exact first (List.mem_map.2 ⟨e', mem, same⟩)
      · exact fresh e' (List.mem_cons_of_mem _ mem) old
    rw [List.foldl_cons, ih later _ fresh', Finmap.entries_insert_of_notMem (fresh e List.mem_cons_self),
      ← Multiset.cons_coe, Multiset.add_cons, Multiset.cons_add]

/-- The entries of a map, found under its keys in any order of these. -/
theorem filterMap_lookup {l : List K} (keys : (l : Multiset K) = m.keys.val) :
    ((l.filterMap fun k => (m.lookup k).map fun v => (⟨k, v⟩ : Σ _ : K, V)) : Multiset (Σ _ : K, V)) =
      m.entries := by
  have found : ∀ e ∈ m.entries, ((m.lookup e.1).map fun v => (⟨e.1, v⟩ : Σ _ : K, V)) = some e := by
    intro e mem
    rw [Finmap.lookup_eq_some_iff.2 mem]
    rfl
  rw [← Multiset.filterMap_coe, keys]
  change Multiset.filterMap _ (m.entries.map Sigma.fst) = _
  rw [Multiset.filterMap_map]
  revert found
  refine Quotient.inductionOn m.entries fun l found => ?_
  exact congrArg Multiset.ofList ((List.filterMap_congr found).trans List.filterMap_some)

/-! ## Inserting one value under the entries of another map -/

section InsertAll

variable {A B : Type*} {m : Finmap fun _ : A × B => V}

theorem insert_insert_comm (m : Finmap fun _ : K => V) (k k' : K) (v : V) :
    (m.insert k v).insert k' v = (m.insert k' v).insert k v := by
  by_cases same : k = k'
  · rw [same]
  · exact Finmap.insert_insert_of_ne m same

variable [DecidableEq A] [DecidableEq B]

/-- The value is inserted under each entry, in any order. -/
def insertAll (m : Finmap fun _ : A × B => V) (keys : Finmap fun _ : A => B) (v : V) :
    Finmap fun _ : A × B => V :=
  keys.foldl (fun m a b => m.insert (a, b) v) (fun m _ _ _ _ => insert_insert_comm m _ _ v) m

theorem lookup_insertAll (keys : Finmap fun _ : A => B) (v : V) (k : A × B) :
    (insertAll m keys v).lookup k = if keys.lookup k.1 = some k.2 then some v else m.lookup k := by
  have listed : ∀ (l : List (Σ _ : A, B)) (m : Finmap fun _ : A × B => V),
      (l.foldl (fun m e => m.insert (e.1, e.2) v) m).lookup k =
        if ⟨k.1, k.2⟩ ∈ l then some v else m.lookup k := by
    intro l
    induction l with
    | nil => exact fun m => (if_neg List.not_mem_nil).symm
    | cons e l ih =>
      intro m
      rw [List.foldl_cons, ih]
      by_cases same : k = (e.1, e.2)
      · subst same
        simp
      · have other : (⟨k.1, k.2⟩ : Σ _ : A, B) ≠ e := by
          rintro rfl
          exact same rfl
        simp only [List.mem_cons, other, false_or, Finmap.lookup_insert_of_ne _ same]
  have folded : (insertAll m keys v).lookup k =
      if ⟨k.1, k.2⟩ ∈ keys.entries then some v else m.lookup k := by
    rw [insertAll, Finmap.foldl]
    refine Quotient.inductionOn keys.entries fun l => ?_
    exact listed l m
  simp only [folded, Finmap.lookup_eq_some_iff]

end InsertAll

/-! ## What insertion and erasure keep -/

section Entries

variable {P : K → V → Prop} {k' : K}

theorem forall_insert (h : ∀ k v, m.lookup k = some v → P k v) (new : P k v) :
    ∀ k' v', (m.insert k v).lookup k' = some v' → P k' v' := by
  intro k' v' found
  by_cases same : k' = k
  · subst same
    rw [Finmap.lookup_insert, Option.some.injEq] at found
    exact found ▸ new
  · rw [Finmap.lookup_insert_of_ne _ same] at found
    exact h k' v' found

theorem forall_erase (h : ∀ k v, m.lookup k = some v → P k v) (k : K) :
    ∀ k' v', (m.erase k).lookup k' = some v' → P k' v' := by
  intro k' v' found
  by_cases same : k' = k
  · rw [same, Finmap.lookup_erase] at found
    cases found
  · rw [Finmap.lookup_erase_ne same] at found
    exact h k' v' found

theorem isSome_insert (h : (m.lookup k').isSome) : ((m.insert k v).lookup k').isSome :=
  Finmap.lookup_isSome.2 (Finmap.mem_insert.2 (.inr (Finmap.lookup_isSome.1 h)))

end Entries

/-! ## Two maps under corresponding keys -/

section Agree

variable {L W C : Type*} [DecidableEq L] {name : K → L} {f : V → C} {g : W → C} {t : Finmap fun _ : L => W}
  {w : W}

/-- The entries under corresponding keys have the same content. -/
def Agree (name : K → L) (f : V → C) (g : W → C) (m : Finmap fun _ : K => V) (t : Finmap fun _ : L => W) :
    Prop :=
  ∀ k, (m.lookup k).map f = (t.lookup (name k)).map g

theorem Agree.isSome (h : Agree name f g m t) (k : K) : (t.lookup (name k)).isSome = (m.lookup k).isSome := by
  have same := congrArg Option.isSome (h k)
  rw [Option.isSome_map, Option.isSome_map] at same
  exact same.symm

theorem Agree.lookup_eq_none (h : Agree name f g m t) (absent : m.lookup k = none) :
    t.lookup (name k) = none := by
  have same := h.isSome k
  rwa [absent, Option.isSome_none, Option.isSome_eq_false_iff, Option.isNone_iff_eq_none] at same

theorem Agree.insert (h : Agree name f g m t) (inj : Function.Injective name) (same : f v = g w) :
    Agree name f g (m.insert k v) (t.insert (name k) w) := by
  intro other
  by_cases eq : other = k
  · rw [eq, Finmap.lookup_insert, Finmap.lookup_insert, Option.map_some, Option.map_some, same]
  · rw [Finmap.lookup_insert_of_ne _ eq, Finmap.lookup_insert_of_ne _ fun e => eq (inj e)]
    exact h other

theorem Agree.erase (h : Agree name f g m t) (inj : Function.Injective name) (k : K) :
    Agree name f g (m.erase k) (t.erase (name k)) := by
  intro other
  by_cases eq : other = k
  · rw [eq, Finmap.lookup_erase, Finmap.lookup_erase]
    rfl
  · rw [Finmap.lookup_erase_ne eq, Finmap.lookup_erase_ne fun e => eq (inj e)]
    exact h other

end Agree

end FiniteMap
