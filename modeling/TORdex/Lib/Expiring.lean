import Mathlib.Algebra.Order.Ring.Nat
import Mathlib.Data.Finmap

/-!
# Stores whose values expire

A value is set at a key for a time and is gone when the time is over.  What a key holds is decided by the
last action that wrote to it (`get_replay_eq_some_iff`).  The actions are of any type, and histories begin with the
latest action.
-/

namespace Expiring

variable {K V A : Type*} [DecidableEq K]

/-- What an action does to a store. -/
inductive Effect (K V : Type*) where
  | set (key : K) (value : V) (ttl : ℕ)
  | delete (key : K)
  | wait (time : ℕ)
  | none

/-- The values with the times at which they are gone. -/
structure Store (K V : Type*) where
  now : ℕ
  entries : Finmap fun _ : K => V × ℕ

namespace Store

/-- Without values. -/
def empty : Store K V := ⟨0, ∅⟩

/-- The value of a key, if its time is not over. -/
def get (s : Store K V) (key : K) : Option V :=
  (s.entries.lookup key).bind fun entry => if s.now < entry.2 then some entry.1 else .none

/-- The store after an effect. -/
def apply (s : Store K V) : Effect K V → Store K V
  | .set key value ttl => ⟨s.now, s.entries.insert key (value, s.now + ttl)⟩
  | .delete key => ⟨s.now, s.entries.erase key⟩
  | .wait time => ⟨s.now + time, s.entries⟩
  | .none => s

end Store

namespace Effect

/-- The effect sets or deletes the key. -/
def Writes (key : K) : Effect K V → Prop
  | set key' _ _ => key' = key
  | delete key' => key' = key
  | _ => False

/-- The time that passes. -/
def time : Effect K V → ℕ
  | wait time => time
  | _ => 0

end Effect

variable (effect : A → Effect K V)

/-- The store after a history. -/
def replay (history : List A) : Store K V := history.foldr (fun a s => s.apply (effect a)) .empty

/-- The time that passes in a history. -/
def elapsed (history : List A) : ℕ := (history.map fun a => (effect a).time).sum

/-- Nothing in the history writes to the key. -/
def Untouched (key : K) (history : List A) : Prop := ∀ a ∈ history, ¬(effect a).Writes key

/-- The last action of the history that writes to the key sets it to the value for the time. -/
def LastSet (key : K) (value : V) (ttl : ℕ) (history : List A) (age : ℕ) : Prop :=
  ∃ later a before, history = later ++ a :: before ∧ effect a = .set key value ttl ∧ Untouched effect key later ∧
    age = elapsed effect later

variable {effect} {key : K} {value : V} {ttl age : ℕ} {history : List A} {a : A}

theorem now_apply (s : Store K V) (e : Effect K V) : (s.apply e).now = s.now + e.time := by
  cases e <;> rfl

theorem now_replay (history : List A) : (replay effect history).now = elapsed effect history := by
  induction history with
  | nil => rfl
  | cons a history ih =>
    show ((replay effect history).apply (effect a)).now = _
    rw [now_apply, ih, elapsed, elapsed, List.map_cons, List.sum_cons, Nat.add_comm]

theorem lookup_apply_of_not_writes {s : Store K V} {e : Effect K V} (h : ¬e.Writes key) :
    (s.apply e).entries.lookup key = s.entries.lookup key := by
  cases e with
  | set key' value ttl => exact Finmap.lookup_insert_of_ne _ (Ne.symm h)
  | delete key' => exact Finmap.lookup_erase_ne (Ne.symm h)
  | wait time => rfl
  | none => rfl

omit [DecidableEq K] in
/-- One more action that does not write to the key only makes the value older. -/
theorem lastSet_cons_of_not_writes (h : ¬(effect a).Writes key) :
    LastSet effect key value ttl (a :: history) age ↔
      ∃ age', LastSet effect key value ttl history age' ∧ age = age' + (effect a).time := by
  constructor
  · rintro ⟨later, b, before, split, set, untouched, rfl⟩
    cases later with
    | nil =>
      obtain ⟨rfl, rfl⟩ := List.cons.inj split
      exact absurd (set ▸ rfl) h
    | cons c later =>
      obtain ⟨rfl, rfl⟩ := List.cons.inj split
      refine ⟨_, ⟨later, b, before, rfl, set, fun d hd => untouched d (List.mem_cons_of_mem _ hd), rfl⟩, ?_⟩
      rw [elapsed, List.map_cons, List.sum_cons, Nat.add_comm]
      rfl
  · rintro ⟨age', ⟨later, b, before, rfl, set, untouched, rfl⟩, rfl⟩
    refine ⟨a :: later, b, before, rfl, set, List.forall_mem_cons.2 ⟨h, untouched⟩, ?_⟩
    rw [elapsed, elapsed, List.map_cons, List.sum_cons, Nat.add_comm]

omit [DecidableEq K] in
/-- After an action that writes to the key the last write is this one. -/
theorem lastSet_cons_of_writes (h : (effect a).Writes key) :
    LastSet effect key value ttl (a :: history) age ↔ effect a = .set key value ttl ∧ age = 0 := by
  constructor
  · rintro ⟨later, b, before, split, set, untouched, rfl⟩
    cases later with
    | nil =>
      obtain ⟨rfl, rfl⟩ := List.cons.inj split
      exact ⟨set, rfl⟩
    | cons c later =>
      obtain ⟨rfl, rfl⟩ := List.cons.inj split
      exact absurd h (untouched a List.mem_cons_self)
  · rintro ⟨set, rfl⟩
    exact ⟨[], a, history, rfl, set, fun b hb => absurd hb List.not_mem_nil, rfl⟩

omit [DecidableEq K] in
theorem LastSet.of_append {later : List A} (quiet : Untouched effect key later)
    (last : LastSet effect key value ttl (later ++ history) age) :
    ∃ age', LastSet effect key value ttl history age' ∧ age = age' + elapsed effect later := by
  induction later generalizing age with
  | nil => exact ⟨age, last, rfl⟩
  | cons a later ih =>
    obtain ⟨here, quiet⟩ := List.forall_mem_cons.1 quiet
    obtain ⟨age₁, last₁, rfl⟩ := (lastSet_cons_of_not_writes here).1 last
    obtain ⟨age₂, last₂, rfl⟩ := ih quiet last₁
    refine ⟨age₂, last₂, ?_⟩
    rw [elapsed, elapsed, List.map_cons, List.sum_cons]
    omega

omit [DecidableEq K] in
theorem LastSet.append {later : List A} (last : LastSet effect key value ttl history age)
    (quiet : Untouched effect key later) :
    LastSet effect key value ttl (later ++ history) (age + elapsed effect later) := by
  obtain ⟨later', a, before, rfl, set, untouched, rfl⟩ := last
  refine ⟨later ++ later', a, before, by simp, set, fun b mem => ?_, ?_⟩
  · exact (List.mem_append.1 mem).elim (quiet b) (untouched b)
  · simp only [elapsed, List.map_append, List.sum_append]
    exact Nat.add_comm _ _

theorem lookup_replay (history : List A) (key : K) (entry : V × ℕ) :
    (replay effect history).entries.lookup key = some entry ↔
      ∃ ttl age, LastSet effect key entry.1 ttl history age ∧ entry.2 + age = elapsed effect history + ttl := by
  induction history with
  | nil =>
    refine iff_of_false (by simp [replay, Store.empty]) ?_
    rintro ⟨ttl, age, ⟨later, a, before, split, -⟩, -⟩
    simp at split
  | cons a history ih =>
    have step : replay effect (a :: history) = (replay effect history).apply (effect a) := rfl
    have clock : elapsed effect (a :: history) = elapsed effect history + (effect a).time := by
      rw [elapsed, List.map_cons, List.sum_cons, Nat.add_comm]
      rfl
    rw [step, clock]
    by_cases writes : (effect a).Writes key
    · simp only [lastSet_cons_of_writes writes]
      cases effect_a : effect a with
      | set key' value ttl =>
        obtain rfl : key' = key := by simpa [effect_a, Effect.Writes] using writes
        have time : (Effect.set key' value ttl : Effect K V).time = 0 := rfl
        rw [Store.apply, Finmap.lookup_insert, Option.some_inj, now_replay, time]
        constructor
        · rintro rfl
          exact ⟨ttl, 0, ⟨rfl, rfl⟩, rfl⟩
        · rintro ⟨ttl', age, ⟨same, rfl⟩, total⟩
          obtain ⟨-, rfl, rfl⟩ := Effect.set.inj same
          exact Prod.ext rfl total.symm
      | delete key' =>
        obtain rfl : key' = key := by simpa [effect_a, Effect.Writes] using writes
        rw [Store.apply, Finmap.lookup_erase]
        simp
      | wait time => simp [effect_a, Effect.Writes] at writes
      | none => simp [effect_a, Effect.Writes] at writes
    · simp only [lookup_apply_of_not_writes writes, ih, lastSet_cons_of_not_writes writes]
      constructor
      · rintro ⟨ttl, age, last, total⟩
        exact ⟨ttl, _, ⟨age, last, rfl⟩, by omega⟩
      · rintro ⟨ttl, _, ⟨age, last, rfl⟩, total⟩
        exact ⟨ttl, age, last, by omega⟩

/-- **A key holds a value exactly when the last write to it set the value and its time is not over.** -/
theorem get_replay_eq_some_iff :
    (replay effect history).get key = some value ↔
      ∃ ttl age, LastSet effect key value ttl history age ∧ age < ttl := by
  rw [Store.get, Option.bind_eq_some_iff, now_replay]
  constructor
  · rintro ⟨⟨value', deadline⟩, found, unexpired⟩
    obtain ⟨ttl, age, last, total⟩ := (lookup_replay history key _).1 found
    by_cases alive : elapsed effect history < deadline
    · rw [if_pos alive, Option.some_inj] at unexpired
      subst unexpired
      exact ⟨ttl, age, last, by dsimp only at total; omega⟩
    · rw [if_neg alive] at unexpired
      cases unexpired
  · rintro ⟨ttl, age, last, young⟩
    have old : age ≤ elapsed effect history := by
      obtain ⟨later, a, before, rfl, -, -, rfl⟩ := last
      simp only [elapsed, List.map_append, List.sum_append]
      exact Nat.le_add_right _ _
    refine ⟨(value, elapsed effect history + ttl - age), (lookup_replay history key _).2 ⟨ttl, age, last, ?_⟩, ?_⟩
    · dsimp only
      omega
    · exact if_pos (by dsimp only; omega)

end Expiring
