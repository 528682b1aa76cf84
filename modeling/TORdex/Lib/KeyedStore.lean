import Mathlib.Data.Finmap
import Mathlib.Data.List.Basic

/-!
# Stores in which every operation acts on one key

An operation has a key and changes only the value at it.  A run of operations is then the
independent run of each key's own operations (`run_eq_ok_iff`), so reordering operations with
different keys changes nothing (`run_groups`).  A run whose operations overwrite, update or remove
their value gives the same result when it is repeated on its own result (`runAt_again`).
-/

namespace KeyedStore

variable {K V ε O : Type*} [DecidableEq K]

/-- Put a value at a key, or take it out. -/
def set (s : Finmap fun _ : K => V) (k : K) : Option V → Finmap fun _ : K => V
  | some v => s.insert k v
  | none => s.erase k

@[simp] theorem lookup_set_self (s : Finmap fun _ : K => V) (k : K) (v : Option V) :
    (set s k v).lookup k = v := by
  cases v with
  | none => exact Finmap.lookup_erase k s
  | some v => exact Finmap.lookup_insert s

theorem lookup_set_of_ne (s : Finmap fun _ : K => V) {k k' : K} (h : k' ≠ k) (v : Option V) :
    (set s k v).lookup k' = s.lookup k' := by
  cases v with
  | none => exact Finmap.lookup_erase_ne h
  | some v => exact Finmap.lookup_insert_of_ne s h

variable (key : O → K) (act : O → Option V → Except ε (Option V))

/-- One operation, on the value at its key. -/
def apply (o : O) (s : Finmap fun _ : K => V) : Except ε (Finmap fun _ : K => V) :=
  (act o (s.lookup (key o))).map (set s (key o))

/-- A run stops at the first operation that fails. -/
def run : List O → (Finmap fun _ : K => V) → Except ε (Finmap fun _ : K => V)
  | [], s => .ok s
  | o :: ops, s => (apply key act o s).bind (run ops)

/-- The operations of one key on its value. -/
def runAt : List O → Option V → Except ε (Option V)
  | [], v => .ok v
  | o :: ops, v => (act o v).bind (runAt ops)

theorem bind_eq_ok {α β : Type*} {x : Except ε α} {f : α → Except ε β} {b : β} :
    x.bind f = .ok b ↔ ∃ a, x = .ok a ∧ f a = .ok b := by
  cases x <;> simp [Except.bind]

theorem map_eq_ok {α β : Type*} {x : Except ε α} {f : α → β} {b : β} :
    x.map f = .ok b ↔ ∃ a, x = .ok a ∧ f a = b := by
  cases x <;> simp [Except.map]

theorem runAt_cons_ok {o : O} {ops : List O} {v w : Option V} :
    runAt act (o :: ops) v = .ok w ↔ ∃ u, act o v = .ok u ∧ runAt act ops u = .ok w :=
  bind_eq_ok

theorem runAt_append_ok {ops ops' : List O} {v w : Option V} :
    runAt act (ops ++ ops') v = .ok w ↔
      ∃ u, runAt act ops v = .ok u ∧ runAt act ops' u = .ok w := by
  induction ops generalizing v with
  | nil => simp [runAt]
  | cons o ops ih =>
    rw [List.cons_append, runAt_cons_ok]
    simp only [runAt_cons_ok, ih]
    constructor
    · rintro ⟨x, hx, u, hu, hw⟩
      exact ⟨u, ⟨x, hx, hu⟩, hw⟩
    · rintro ⟨u, ⟨x, hx, hu⟩, hw⟩
      exact ⟨x, hx, u, hu, hw⟩

theorem runAt_concat_ok {ops : List O} {o : O} {v w : Option V} :
    runAt act (ops ++ [o]) v = .ok w ↔ ∃ u, runAt act ops v = .ok u ∧ act o u = .ok w := by
  have last : ∀ u, runAt act [o] u = act o u := fun u => by
    rw [runAt]
    cases act o u <;> rfl
  simp only [runAt_append_ok, last]

/-- Every operation of a run that succeeds was applied to something. -/
theorem runAt_ok_mem {ops : List O} {v w : Option V} (h : runAt act ops v = .ok w) :
    ∀ o ∈ ops, ∃ u u', act o u = .ok u' := by
  induction ops generalizing v with
  | nil => exact fun o ho => absurd ho List.not_mem_nil
  | cons o ops ih =>
    obtain ⟨u, hu, h⟩ := (runAt_cons_ok act).1 h
    exact List.forall_mem_cons.2 ⟨⟨v, u, hu⟩, ih h⟩

/-- A run is the run of each key's own operations. -/
theorem run_eq_ok_iff {ops : List O} {s s' : Finmap fun _ : K => V} :
    run key act ops s = .ok s' ↔
      ∀ k, runAt act (ops.filter fun o => key o = k) (s.lookup k) = .ok (s'.lookup k) := by
  induction ops generalizing s with
  | nil =>
    simp only [run, List.filter_nil, runAt, Except.ok.injEq]
    exact ⟨fun h k => by rw [h], fun h => Finmap.ext_lookup h⟩
  | cons o ops ih =>
    have others : ∀ (u : Option V) {k : K}, k ≠ key o →
        (set s (key o) u).lookup k = s.lookup k := fun u _ hk => lookup_set_of_ne s hk u
    simp only [run, bind_eq_ok, apply, map_eq_ok]
    constructor
    · rintro ⟨_, ⟨u, hu, rfl⟩, hrun⟩ k
      have later := ih.1 hrun k
      by_cases hk : key o = k
      · subst hk
        rw [lookup_set_self] at later
        simpa only [List.filter_cons, decide_true, if_true, runAt_cons_ok] using ⟨u, hu, later⟩
      · rw [others u (Ne.symm hk)] at later
        simpa only [List.filter_cons, hk, decide_false, Bool.false_eq_true, if_false] using later
    · intro h
      have own := h (key o)
      simp only [List.filter_cons, decide_true, if_true, runAt_cons_ok] at own
      obtain ⟨u, hu, later⟩ := own
      refine ⟨_, ⟨u, hu, rfl⟩, ih.2 fun k => ?_⟩
      by_cases hk : k = key o
      · subst hk
        rw [lookup_set_self]
        exact later
      · have := h k
        rw [List.filter_cons, if_neg (by simpa using Ne.symm hk)] at this
        rw [others u hk]
        exact this

section Groups

variable {G : Type*} [DecidableEq G] (label : O → G)

/-- Grouping by a label that operations of one key share does not reorder the operations of a
key. -/
theorem filter_groups {groups : List G} {ops : List O} (nodup : groups.Nodup)
    (listed : ∀ o ∈ ops, label o ∈ groups)
    (shared : ∀ o ∈ ops, ∀ o' ∈ ops, key o = key o' → label o = label o') (k : K) :
    (groups.flatMap fun g => ops.filter fun o => label o = g).filter (fun o => key o = k) =
      ops.filter fun o => key o = k := by
  have only : ∀ o ∈ ops, key o = k → ∀ g, (ops.filter fun o => label o = g).filter
      (fun o => key o = k) = if label o = g then ops.filter fun o => key o = k else [] := by
    intro o ho hk g
    rw [List.filter_filter]
    split_ifs with hg
    · refine List.filter_congr fun x hx => ?_
      by_cases hx' : key x = k
      · have := shared x hx o ho (hx'.trans hk.symm)
        simp [hx', this, hg]
      · simp [hx']
    · rw [List.filter_eq_nil_iff]
      intro x hx hxk
      simp only [Bool.and_eq_true, decide_eq_true_eq] at hxk
      exact hg ((shared o ho x hx (hk.trans hxk.1.symm)).trans hxk.2)
  rw [List.filter_flatMap]
  by_cases some : ∃ o ∈ ops, key o = k
  · obtain ⟨o, ho, hk⟩ := some
    simp only [only o ho hk]
    have there := listed o ho
    clear listed
    induction groups with
    | nil => exact absurd there List.not_mem_nil
    | cons g groups ih =>
      obtain ⟨fresh, nodup⟩ := List.nodup_cons.1 nodup
      rw [List.flatMap_cons]
      rcases List.mem_cons.1 there with rfl | there
      · have rest : (groups.flatMap fun g => if label o = g then
            ops.filter fun o => key o = k else []) = [] := by
          rw [List.flatMap_eq_nil_iff]
          intro g hg
          rw [if_neg]
          rintro rfl
          exact fresh hg
        rw [rest, if_pos rfl, List.append_nil]
      · have skip : label o ≠ g := fun h => fresh (h ▸ there)
        rw [if_neg skip, List.nil_append]
        exact ih nodup there
  · push Not at some
    have none : ops.filter (fun o => key o = k) = [] :=
      List.filter_eq_nil_iff.2 fun o ho hk => some o ho (by simpa using hk)
    rw [none, List.flatMap_eq_nil_iff]
    intro g _
    rw [List.filter_eq_nil_iff]
    intro o ho hk
    exact some o (List.mem_filter.1 ho).1 (by simpa using hk)

theorem length_filter_or {p q : O → Bool} (ops : List O) (disjoint : ∀ o, p o → q o = false) :
    (ops.filter fun o => p o || q o).length = (ops.filter p).length + (ops.filter q).length := by
  induction ops with
  | nil => rfl
  | cons o ops ih =>
    have apart := disjoint o
    cases hp : p o with
    | true => simp only [List.filter_cons, hp, apart hp, Bool.true_or, if_true, List.length_cons,
        Bool.false_eq_true, if_false, ih, Nat.add_right_comm]
    | false =>
      cases hq : q o <;> simp [hp, hq, ih, Nat.add_assoc]

/-- The groups hold the operations that have one of their labels. -/
theorem length_groups {groups : List G} (nodup : groups.Nodup) (ops : List O) :
    (groups.flatMap fun g => ops.filter fun o => label o = g).length =
      (ops.filter fun o => label o ∈ groups).length := by
  induction groups with
  | nil => simp
  | cons g groups ih =>
    obtain ⟨fresh, nodup⟩ := List.nodup_cons.1 nodup
    rw [List.flatMap_cons, List.length_append, ih nodup, ← length_filter_or]
    · simp only [List.mem_cons, Bool.decide_or]
    · intro o ho
      rw [of_decide_eq_true ho]
      exact decide_eq_false fresh

/-- A grouped run gives what the run in the original order gives. -/
theorem run_groups {groups : List G} {ops : List O} (nodup : groups.Nodup)
    (listed : ∀ o ∈ ops, label o ∈ groups)
    (shared : ∀ o ∈ ops, ∀ o' ∈ ops, key o = key o' → label o = label o')
    {s s' : Finmap fun _ : K => V} :
    run key act (groups.flatMap fun g => ops.filter fun o => label o = g) s = .ok s' ↔
      run key act ops s = .ok s' := by
  simp only [run_eq_ok_iff, filter_groups key label nodup listed shared]

end Groups

/-! ## Repeating a run -/

section Again

/-- The operation puts the same value whatever was there. -/
def Overwrites (good : V → Prop) (o : O) : Prop := ∃ x, good x ∧ ∀ v, act o v = .ok (some x)

/-- The operation changes a value that is there. -/
def Updates (good : V → Prop) (o : O) : Prop :=
  act o none = .ok none ∧ ∀ x, good x → ∃ y, good y ∧ act o (some x) = .ok (some y)

/-- The operation takes a value out and fails where there is none. -/
def Removes (o : O) : Prop :=
  (∀ v, act o none ≠ .ok v) ∧ ∀ x, act o (some x) = .ok none

variable {act} {good : V → Prop}

/-- Every value of a run of such operations is good. -/
theorem runAt_good {ops : List O}
    (kinds : ∀ o ∈ ops, Overwrites act good o ∨ Updates act good o ∨ Removes act o)
    {v w : Option V} (hv : ∀ x ∈ v, good x) (h : runAt act ops v = .ok w) : ∀ x ∈ w, good x := by
  induction ops generalizing v with
  | nil =>
    cases h
    exact hv
  | cons o ops ih =>
    obtain ⟨u, hu, h⟩ := (runAt_cons_ok act).1 h
    refine ih (fun o ho => kinds o (List.mem_cons_of_mem _ ho)) (fun x hx => ?_) h
    rcases kinds o List.mem_cons_self with ⟨y, hy, ho⟩ | ⟨none, some⟩ | ⟨none, some⟩
    · rw [ho] at hu
      cases hu
      cases hx
      exact hy
    · cases v with
      | none =>
        rw [none] at hu
        cases hu
        cases hx
      | some x' =>
        obtain ⟨y, hy, he⟩ := some x' (hv x' rfl)
        rw [he] at hu
        cases hu
        cases hx
        exact hy
    · cases v with
      | none => exact absurd hu (none u)
      | some x' =>
        rw [some] at hu
        cases hu
        cases hx

/-- Updates of a good value succeed. -/
theorem runAt_updates {ops : List O} (kinds : ∀ o ∈ ops, Updates act good o) {v : Option V}
    (hv : ∀ x ∈ v, good x) : ∃ w, runAt act ops v = .ok w := by
  induction ops generalizing v with
  | nil => exact ⟨v, rfl⟩
  | cons o ops ih =>
    have later := fun {v : Option V} (hv : ∀ x ∈ v, good x) =>
      ih (fun o ho => kinds o (List.mem_cons_of_mem _ ho)) hv
    obtain ⟨none, some⟩ := kinds o List.mem_cons_self
    cases v with
    | none =>
      obtain ⟨w, hw⟩ := later hv
      exact ⟨w, (runAt_cons_ok act).2 ⟨_, none, hw⟩⟩
    | some x =>
      obtain ⟨y, hy, he⟩ := some x (hv x rfl)
      have good' : ∀ z ∈ Option.some y, good z := by
        rintro z ⟨⟩
        exact hy
      obtain ⟨w, hw⟩ := later good'
      exact ⟨w, (runAt_cons_ok act).2 ⟨_, he, hw⟩⟩

/-- What comes before the first overwrite of a run from nothing are updates of nothing. -/
theorem runAt_from_none {ops : List O}
    (kinds : ∀ o ∈ ops, Overwrites act good o ∨ Updates act good o ∨ Removes act o)
    {w : Option V} (h : runAt act ops none = .ok w) :
    (w = none ∧ ∀ o ∈ ops, Updates act good o) ∨
    ∃ before o after, ops = before ++ o :: after ∧ (∀ o ∈ before, Updates act good o) ∧
      Overwrites act good o := by
  induction ops with
  | nil =>
    cases h
    exact .inl ⟨rfl, fun o ho => absurd ho List.not_mem_nil⟩
  | cons o ops ih =>
    obtain ⟨u, hu, h⟩ := (runAt_cons_ok act).1 h
    rcases kinds o List.mem_cons_self with overwrites | updates | ⟨fails, -⟩
    · exact .inr ⟨[], o, ops, rfl, fun o ho => absurd ho List.not_mem_nil, overwrites⟩
    · rw [updates.1] at hu
      cases hu
      rcases ih (fun o ho => kinds o (List.mem_cons_of_mem _ ho)) h with
        ⟨hw, all⟩ | ⟨before, o', after, rfl, all, overwrites⟩
      · exact .inl ⟨hw, List.forall_mem_cons.2 ⟨updates, all⟩⟩
      · exact .inr ⟨o :: before, o', after, rfl, List.forall_mem_cons.2 ⟨updates, all⟩,
          overwrites⟩
    · exact absurd hu (fails u)

/-- A run from nothing, repeated on its result, gives the same result. -/
theorem runAt_again {ops : List O}
    (kinds : ∀ o ∈ ops, Overwrites act good o ∨ Updates act good o ∨ Removes act o)
    {w : Option V} (h : runAt act ops none = .ok w) : runAt act ops w = .ok w := by
  have hw := runAt_good kinds (fun x hx => by cases hx) h
  rcases runAt_from_none kinds h with ⟨rfl, -⟩ | ⟨before, o, after, rfl, updates, x, hx, ho⟩
  · exact h
  · obtain ⟨u, -, h⟩ := (runAt_append_ok act).1 h
    obtain ⟨y, hy, h⟩ := (runAt_cons_ok act).1 h
    rw [ho] at hy
    cases hy
    obtain ⟨u', hu'⟩ := runAt_updates updates hw
    exact (runAt_append_ok act).2 ⟨u', hu', (runAt_cons_ok act).2 ⟨_, ho u', h⟩⟩

end Again

end KeyedStore
