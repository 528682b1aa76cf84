import Mathlib.Data.Int.ConditionallyCompleteOrder
import Mathlib.Order.ConditionallyCompleteLattice.Basic
import TORdex.Core.Json
import TORdex.Lib.Spans

/-!
# Time intervals

An end that is missing is replaced by an instant far behind the present one, which is read from the clock
again for every end and for the comparison of the result.
-/

namespace TORdex

/-- The end of an interval is exclusive; there may be none. -/
structure TimeInterval where
  start : OffsetDateTime
  stop : Option OffsetDateTime
  deriving DecidableEq, Repr

/-- `time::Duration::days(365_000)`. -/
def farFuture : ℤ := 365000 * 86400 * 10 ^ 9

/-- `9999-12-31T23:59:59.999999999`, the latest `OffsetDateTime`. -/
def latestDateTime : OffsetDateTime := 253402300799999999999

/-- `OffsetDateTime::now_utc() + FAR_FUTURE`, which panics behind the latest instant. -/
def farFrom (now : OffsetDateTime) : Option OffsetDateTime :=
  if now + farFuture ≤ latestDateTime then some (now + farFuture) else none

namespace TimeInterval

/-- An interval without an end. -/
def startingAt (start : OffsetDateTime) : TimeInterval := ⟨start, none⟩

/-- An interval with an end. -/
def bounded (start stop : OffsetDateTime) : TimeInterval := ⟨start, some stop⟩

/-- The instant is in the interval; the end is not. -/
def contains (i : TimeInterval) (t : OffsetDateTime) : Bool := i.start ≤ t && i.stop.all (t < ·)

theorem contains_bounded_iff {start stop t : OffsetDateTime} :
    (bounded start stop).contains t ↔ start ≤ t ∧ t < stop := by
  rw [contains, Bool.and_eq_true, decide_eq_true_iff]
  simp [bounded]

/-- The end, or an instant far ahead. -/
def endOrFar (now : OffsetDateTime) (i : TimeInterval) : Option OffsetDateTime :=
  match i.stop with
  | some stop => some stop
  | none => farFrom now

/-- The clock is read for the ends of the two intervals. -/
def overlaps (now now' : OffsetDateTime) (i other : TimeInterval) : Option Bool := do
  let selfEnd ← i.endOrFar now
  let otherEnd ← other.endOrFar now'
  return i.start < otherEnd && other.start < selfEnd

/-- The clock is read for the ends of the two intervals, and for the end of the result. -/
def intersection (now now' later : OffsetDateTime) (i other : TimeInterval) :
    Option (Option TimeInterval) := do
  let start := max i.start other.start
  let selfEnd ← i.endOrFar now
  let otherEnd ← other.endOrFar now'
  let stop := min selfEnd otherEnd
  let far ← farFrom later
  return if start < stop then some ⟨start, if stop ≥ far then none else some stop⟩ else none

/-- The interval ends before the other starts. -/
def before (i other : TimeInterval) : Bool := i.stop.any (other.start ≥ ·)

end TimeInterval

end TORdex

/-!
## The algebra of time intervals

Instants of intervals are spans, with spans for intersections.  What the code does with a missing end is right
as long as the readings of the clock are far enough behind the ends they are compared with.
-/

namespace TORdex.TimeInterval

open Spans

variable {a b i : TimeInterval}

/-- The end of an interval. -/
def ending (i : TimeInterval) : WithTop OffsetDateTime :=
  match i.stop with
  | some stop => stop
  | none => ⊤

/-- The interval starts before it ends. -/
def Proper (i : TimeInterval) : Prop := (i.start : WithTop OffsetDateTime) < i.ending

/-- The readings of the clock, for the ends of two intervals and of their intersection, and again for the ends
when it is asked whether they overlap. -/
structure Readings where
  first : OffsetDateTime
  second : OffsetDateTime
  third : OffsetDateTime
  overlapFirst : OffsetDateTime
  overlapSecond : OffsetDateTime

/-- The laws of intersection, overlap and order, with these readings of the clock. -/
def Laws (a b : TimeInterval) (clock : Readings) : Prop :=
  ∃ common overlap, a.intersection clock.first clock.second clock.third b = some common ∧
    a.overlaps clock.overlapFirst clock.overlapSecond b = some overlap ∧
    (common.isSome ↔ ∃ t, a.contains t ∧ b.contains t) ∧
    (∀ i, common = some i → ∀ t, i.contains t ↔ a.contains t ∧ b.contains t) ∧
    (overlap ↔ common.isSome) ∧ [a.before b, b.before a, overlap].count true = 1

theorem contains_iff (i : TimeInterval) (t : OffsetDateTime) : i.contains t ↔ t ∈ span i.start i.ending := by
  unfold contains ending span
  cases i.stop with
  | none => simp
  | some stop => simp

theorem before_iff (a b : TimeInterval) : a.before b ↔ a.ending ≤ b.start := by
  unfold before ending
  cases a.stop with
  | none => simp
  | some stop => simp

/-- The sentinel for a missing end is an end. -/
theorem endOrFar_le {now stop : OffsetDateTime} (h : i.endOrFar now = some stop) :
    (stop : WithTop OffsetDateTime) ≤ i.ending := by
  unfold endOrFar at h
  unfold ending
  cases found : i.stop with
  | none => exact le_top
  | some e =>
    rw [found] at h
    rw [Option.some.inj h]

section Code

variable {start x far : OffsetDateTime} {m : WithTop OffsetDateTime}

/-- The interval up to an instant, or without an end if the instant is far. -/
def upTo (start x far : OffsetDateTime) : TimeInterval := ⟨start, if x ≥ far then none else some x⟩

/-- What `intersection` returns, for the smaller one of the two ends. -/
def common (start x far : OffsetDateTime) : Option TimeInterval :=
  if start < x then some (upTo start x far) else none

/-- The result is right if it has the end of the true intersection, and there is one whenever the intervals
meet. -/
theorem common_right_iff (start far : OffsetDateTime) (h : (x : WithTop OffsetDateTime) ≤ m) :
    (((common start x far).isSome ↔ ∃ t, t ∈ span start m) ∧
      ∀ i, common start x far = some i → ∀ t, i.contains t ↔ t ∈ span start m) ↔
    ((start : WithTop OffsetDateTime) < m → start < x ∧ (upTo start x far).ending = m) := by
  have meets : (∃ t, t ∈ span start m) ↔ (start : WithTop OffsetDateTime) < m := span_nonempty_iff
  rw [meets]
  unfold common
  by_cases less : start < x
  · have before : (start : WithTop OffsetDateTime) < m := (WithTop.coe_lt_coe.2 less).trans_le h
    have proper : (start : WithTop OffsetDateTime) < (upTo start x far).ending := by
      unfold upTo ending
      split_ifs
      · exact WithTop.coe_lt_top start
      · exact WithTop.coe_lt_coe.2 less
    have points : (∀ t, (upTo start x far).contains t ↔ t ∈ span start m) ↔
        (upTo start x far).ending = m := by
      simp only [contains_iff]
      rw [← span_eq_iff proper]
      exact Set.ext_iff.symm
    rw [if_pos less]
    simp only [Option.isSome_some, Option.some.injEq, forall_eq', before, less, true_and, true_imp_iff,
      points]
  · rw [if_neg less]
    simp [less]

end Code

section Meeting

variable {x y x' y' far : OffsetDateTime} {clock : Readings}

/-- Each of two intervals starts before the end of the other. -/
def Meets (a b : TimeInterval) : Prop :=
  (a.start : WithTop OffsetDateTime) < b.ending ∧ (b.start : WithTop OffsetDateTime) < a.ending

theorem contains_both_iff (a b : TimeInterval) (t : OffsetDateTime) :
    a.contains t ∧ b.contains t ↔ t ∈ span (max a.start b.start) (min a.ending b.ending) := by
  rw [← span_inter, Set.mem_inter_iff, contains_iff, contains_iff]

/-- One of two intervals is before the other exactly if they do not meet. -/
theorem count_iff (ha : a.Proper) (hb : b.Proper) {overlap : Bool} (sound : overlap → Meets a b) :
    [a.before b, b.before a, overlap].count true = 1 ↔ (Meets a b → overlap) := by
  have first : a.before b ↔ ¬(b.start : WithTop OffsetDateTime) < a.ending :=
    (before_iff a b).trans not_lt.symm
  have second : b.before a ↔ ¬(a.start : WithTop OffsetDateTime) < b.ending :=
    (before_iff b a).trans not_lt.symm
  have ordered : ¬(a.before b ∧ b.before a) := by
    rintro ⟨ab, ba⟩
    have round : a.ending ≤ a.start := ((before_iff a b).1 ab).trans (hb.le.trans ((before_iff b a).1 ba))
    exact absurd ha round.not_gt
  have meets : Meets a b ↔ ¬a.before b ∧ ¬b.before a := by
    rw [first, second, not_not, not_not]
    exact and_comm
  rw [meets] at sound ⊢
  revert sound ordered
  cases a.before b <;> cases b.before a <;> cases overlap <;> decide

/-- The laws, for the instants that replace the ends. -/
theorem laws_iff_ends (ha : a.Proper) (hb : b.Proper) (hx : a.endOrFar clock.first = some x)
    (hy : b.endOrFar clock.second = some y) (hfar : farFrom clock.third = some far)
    (hx' : a.endOrFar clock.overlapFirst = some x') (hy' : b.endOrFar clock.overlapSecond = some y') :
    Laws a b clock ↔ (Meets a b → max a.start b.start < min x y ∧
      (upTo (max a.start b.start) (min x y) far).ending = min a.ending b.ending ∧ a.start < y' ∧
        b.start < x') := by
  have inter : a.intersection clock.first clock.second clock.third b =
      some (common (max a.start b.start) (min x y) far) := by
    simp only [intersection, hx, hy, hfar]
    rfl
  have overlap : a.overlaps clock.overlapFirst clock.overlapSecond b =
      some (decide (a.start < y') && decide (b.start < x')) := by
    simp only [overlaps, hx', hy']
    rfl
  have small : ((min x y : OffsetDateTime) : WithTop OffsetDateTime) ≤ min a.ending b.ending := by
    rw [WithTop.coe_min]
    exact min_le_min (endOrFar_le hx) (endOrFar_le hy)
  have both : (decide (a.start < y') && decide (b.start < x') : Bool) ↔ a.start < y' ∧ b.start < x' := by
    rw [Bool.and_eq_true, decide_eq_true_iff, decide_eq_true_iff]
  have sound (h : a.start < y' ∧ b.start < x') : Meets a b :=
    ⟨(WithTop.coe_lt_coe.2 h.1).trans_le (endOrFar_le hy'),
      (WithTop.coe_lt_coe.2 h.2).trans_le (endOrFar_le hx')⟩
  have meets : (∃ t, t ∈ span (max a.start b.start) (min a.ending b.ending)) ↔ Meets a b :=
    span_nonempty_iff.trans (max_lt_min_iff ha hb)
  have right := common_right_iff (max a.start b.start) far small
  rw [max_lt_min_iff ha hb, meets] at right
  unfold Laws
  simp only [contains_both_iff, inter, overlap, Option.some.injEq, exists_and_left, exists_eq_left',
    count_iff ha hb fun h => sound (both.1 h), both, meets]
  constructor
  · rintro ⟨exist, points, -, ordered⟩ meet
    obtain ⟨less, ends⟩ := right.1 ⟨exist, points⟩ meet
    exact ⟨less, ends, ordered meet⟩
  · intro h
    obtain ⟨exist, points⟩ := right.2 fun meet => ⟨(h meet).1, (h meet).2.1⟩
    exact ⟨exist, points, ⟨fun o => exist.2 (sound o), fun found => (h (exist.1 found)).2.2⟩,
      fun meet => (h meet).2.2⟩

end Meeting

section Clock

variable {clock : Readings}

/-- There are instants so far behind the readings that are used. -/
def InRange (a b : TimeInterval) (clock : Readings) : Prop :=
  clock.third + farFuture ≤ latestDateTime ∧
    (a.stop = none → clock.first + farFuture ≤ latestDateTime ∧
      clock.overlapFirst + farFuture ≤ latestDateTime) ∧
    (b.stop = none → clock.second + farFuture ≤ latestDateTime ∧
      clock.overlapSecond + farFuture ≤ latestDateTime)

/-- The ends and starts of two intervals are before the instants that stand for missing ends. -/
def FarEnough (a b : TimeInterval) (clock : Readings) : Prop :=
  match a.stop, b.stop with
  | some stop, some stop' => a.start < stop' → b.start < stop → min stop stop' < clock.third + farFuture
  | some stop, none => b.start < stop →
    stop ≤ clock.second + farFuture ∧ stop < clock.third + farFuture ∧
      a.start < clock.overlapSecond + farFuture
  | none, some stop' => a.start < stop' →
    stop' ≤ clock.first + farFuture ∧ stop' < clock.third + farFuture ∧
      b.start < clock.overlapFirst + farFuture
  | none, none =>
    max a.start b.start < min clock.first clock.second + farFuture ∧
      clock.third ≤ min clock.first clock.second ∧
      a.start < clock.overlapSecond + farFuture ∧ b.start < clock.overlapFirst + farFuture

theorem farFrom_eq_some_iff {now t : OffsetDateTime} :
    farFrom now = some t ↔ now + farFuture ≤ latestDateTime ∧ t = now + farFuture := by
  unfold farFrom
  split_ifs with inside
  · simp [inside, eq_comm]
  · simp [inside]

theorem exists_endOrFar_iff {now now' : OffsetDateTime} :
    ((∃ x, i.endOrFar now = some x) ∧ ∃ x, i.endOrFar now' = some x) ↔
      (i.stop = none → now + farFuture ≤ latestDateTime ∧ now' + farFuture ≤ latestDateTime) := by
  unfold endOrFar
  cases i.stop with
  | none => simp [farFrom_eq_some_iff]
  | some stop => simp

theorem ending_upTo {start x far : OffsetDateTime} :
    (upTo start x far).ending = if x ≥ far then ⊤ else (x : WithTop ℤ) := by
  unfold upTo ending
  split_ifs
  · rfl
  · rfl

theorem capped_eq_coe_iff {x far m : OffsetDateTime} :
    (if x ≥ far then ⊤ else (x : WithTop OffsetDateTime)) = m ↔ x < far ∧ x = m := by
  split_ifs with beyond
  · exact iff_of_false WithTop.top_ne_coe fun h => absurd h.1 (not_lt.2 beyond)
  · rw [WithTop.coe_inj, and_iff_right (not_le.1 beyond)]

theorem capped_eq_top_iff {x far : OffsetDateTime} :
    (if x ≥ far then ⊤ else (x : WithTop OffsetDateTime)) = ⊤ ↔ far ≤ x := by
  split_ifs with beyond
  · exact iff_of_true rfl beyond
  · exact iff_of_false WithTop.coe_ne_top beyond

theorem inRange_of_laws (laws : Laws a b clock) : InRange a b clock := by
  obtain ⟨common, overlap, inter, overlapped, -⟩ := laws
  unfold intersection at inter
  unfold overlaps at overlapped
  simp only [Option.bind_eq_bind, Option.bind_eq_some_iff] at inter overlapped
  obtain ⟨x, hx, y, hy, far, hfar, -⟩ := inter
  obtain ⟨x', hx', y', hy', -⟩ := overlapped
  exact ⟨(farFrom_eq_some_iff.1 hfar).1, exists_endOrFar_iff.1 ⟨⟨x, hx⟩, x', hx'⟩,
    exists_endOrFar_iff.1 ⟨⟨y, hy⟩, y', hy'⟩⟩

/-- What is asked of the instants that replace the ends, as a condition on the readings. -/
theorem farEnough_iff {x y x' y' far : OffsetDateTime} (ha : a.Proper) (hb : b.Proper)
    (hx : a.endOrFar clock.first = some x) (hy : b.endOrFar clock.second = some y)
    (hfar : farFrom clock.third = some far)
    (hx' : a.endOrFar clock.overlapFirst = some x') (hy' : b.endOrFar clock.overlapSecond = some y') :
    (Meets a b → max a.start b.start < min x y ∧
      (upTo (max a.start b.start) (min x y) far).ending = min a.ending b.ending ∧ a.start < y' ∧
        b.start < x') ↔
    FarEnough a b clock := by
  obtain ⟨start, stop⟩ := a
  obtain ⟨start', stop'⟩ := b
  obtain ⟨-, rfl⟩ := farFrom_eq_some_iff.1 hfar
  rw [ending_upTo]
  unfold Proper at ha hb
  unfold Meets FarEnough
  cases stop with
  | some stop =>
    obtain rfl := Option.some.inj hx
    obtain rfl := Option.some.inj hx'
    cases stop' with
    | some stop' =>
      obtain rfl := Option.some.inj hy
      obtain rfl := Option.some.inj hy'
      simp only [ending, ← WithTop.coe_min, WithTop.coe_lt_coe, capped_eq_coe_iff] at ha hb ⊢
      grind
    | none =>
      obtain ⟨-, rfl⟩ := farFrom_eq_some_iff.1 hy
      obtain ⟨-, rfl⟩ := farFrom_eq_some_iff.1 hy'
      simp only [ending, min_top_right, WithTop.coe_lt_coe, WithTop.coe_lt_top, capped_eq_coe_iff] at ha ⊢
      grind
  | none =>
    obtain ⟨-, rfl⟩ := farFrom_eq_some_iff.1 hx
    obtain ⟨-, rfl⟩ := farFrom_eq_some_iff.1 hx'
    cases stop' with
    | some stop' =>
      obtain rfl := Option.some.inj hy
      obtain rfl := Option.some.inj hy'
      simp only [ending, min_top_left, WithTop.coe_lt_coe, WithTop.coe_lt_top, capped_eq_coe_iff] at hb ⊢
      grind
    | none =>
      obtain ⟨-, rfl⟩ := farFrom_eq_some_iff.1 hy
      obtain ⟨-, rfl⟩ := farFrom_eq_some_iff.1 hy'
      simp only [ending, min_top_left, WithTop.coe_lt_top, capped_eq_top_iff]
      grind

/-- **The laws hold exactly if the clock is far enough behind the ends.** -/
theorem laws_iff (ha : a.Proper) (hb : b.Proper) (clock : Readings) :
    Laws a b clock ↔ InRange a b clock ∧ FarEnough a b clock := by
  have ends (range : InRange a b clock) : Laws a b clock ↔ FarEnough a b clock := by
    obtain ⟨third, first, second⟩ := range
    obtain ⟨⟨x, hx⟩, x', hx'⟩ := exists_endOrFar_iff.2 first
    obtain ⟨⟨y, hy⟩, y', hy'⟩ := exists_endOrFar_iff.2 second
    have hfar := farFrom_eq_some_iff.2 ⟨third, rfl⟩
    exact (laws_iff_ends ha hb hx hy hfar hx' hy').trans (farEnough_iff ha hb hx hy hfar hx' hy')
  constructor
  · intro laws
    exact ⟨inRange_of_laws laws, (ends (inRange_of_laws laws)).1 laws⟩
  · rintro ⟨range, far⟩
    exact (ends range).2 far

theorem laws_iff_bounded : Laws (bounded 0 10) (startingAt 5) ⟨0, 1, 2, 3, 4⟩ := by
  have first : (bounded 0 10).Proper := WithTop.coe_lt_coe.2 (by decide)
  have second : (startingAt 5).Proper := WithTop.coe_lt_top _
  refine (laws_iff first second _).2 ⟨⟨by decide, ?_, ?_⟩, ?_⟩
  · exact fun endless => by cases endless
  · decide
  · exact fun _ => ⟨by decide, by decide, by decide⟩

/-- Two intervals without an end have an intersection with an end, when the clock goes on between its
readings. -/
theorem not_laws : ¬Laws (startingAt 0) (startingAt 0) ⟨0, 1, 2, 3, 4⟩ := by
  rintro ⟨common, overlap, inter, -, -, points, -⟩
  have found : (startingAt 0).intersection 0 1 2 (startingAt 0) =
      some (some (bounded 0 farFuture)) := by decide
  obtain rfl := Option.some.inj (inter.symm.trans found)
  exact absurd ((points _ rfl farFuture).2 (by decide)) (by decide)

end Clock

end TORdex.TimeInterval
