import TORdex.TemporalGraph.Graph

/-!
# Past states

The search from the end of the history finds the latest snapshot that was appended, not the one with the
latest timestamp.
-/

namespace TORdex.TemporalGraph

variable {g : TemporalGraph} {times : List OffsetDateTime}

/-- Snapshots with these timestamps were taken of a graph, whose state may change between them. -/
inductive Taken : List OffsetDateTime → TemporalGraph → Prop where
  | new : Taken [] new
  | change {times : List OffsetDateTime} {g : TemporalGraph} (h : Taken times g) (state : GraphState) :
    Taken times { g with state }
  | snapshot {times : List OffsetDateTime} {g : TemporalGraph} (h : Taken times g) (l : g.state.Listing)
    (t : OffsetDateTime) : Taken (times ++ [t]) (g.snapshot l t)

theorem Taken.timestamps (h : Taken times g) : g.history.snapshots.map GraphSnapshot.timestamp = times := by
  induction h with
  | new => rfl
  | change _ _ ih => exact ih
  | snapshot _ l t ih => exact List.map_append.trans (congrArg (· ++ [t]) ih)

/-- The answer for a past state is a snapshot with the greatest timestamp that is not after the given one, if
there is one. -/
def AnswersAt (g : TemporalGraph) (t : OffsetDateTime) : Prop :=
  (g.stateAt t = none ↔ ∀ s ∈ g.history.snapshots, t < s.timestamp) ∧
    ∀ s, g.stateAt t = some s → s ∈ g.history.snapshots ∧ s.timestamp ≤ t ∧
      ∀ s' ∈ g.history.snapshots, s'.timestamp ≤ t → s'.timestamp ≤ s.timestamp

/-- A time that is followed by an earlier one comes again behind it. -/
def ComesAgain (times : List OffsetDateTime) : Prop :=
  ∀ (i j : ℕ) (x y : OffsetDateTime), times[i]? = some x → times[j]? = some y → i < j → y < x →
    ∃ k > j, times[k]? = some x

theorem stateAt_eq_none_iff (g : TemporalGraph) (t : OffsetDateTime) :
    g.stateAt t = none ↔ ∀ s ∈ g.history.snapshots, t < s.timestamp := by
  simp [stateAt, GraphHistory.stateAt]

/-- A search from the end finds the last entry that satisfies a condition. -/
theorem find?_reverse_eq_some_iff {α : Type*} {l : List α} {p : α → Bool} {a : α} :
    l.reverse.find? p = some a ↔
      ∃ i : ℕ, l[i]? = some a ∧ p a ∧ ∀ j > i, ∀ b, l[j]? = some b → ¬p b := by
  rw [List.find?_eq_some_iff_append]
  constructor
  · rintro ⟨sat, after, before, split, none⟩
    have split : l = before.reverse ++ a :: after.reverse := by
      rw [← List.reverse_reverse l, split, List.reverse_append, List.reverse_cons, List.append_assoc,
        List.singleton_append]
    refine ⟨before.reverse.length, by simp [split], sat, fun j behind b hb => ?_⟩
    obtain ⟨k, rfl⟩ := Nat.exists_eq_add_of_lt behind
    rw [split, List.getElem?_append_right (by omega), Nat.add_assoc, Nat.add_sub_cancel_left,
      List.getElem?_cons_succ] at hb
    simpa using none b (List.mem_reverse.1 (List.mem_of_getElem? hb))
  · rintro ⟨i, hi, sat, none⟩
    have split : l = l.take i ++ a :: l.drop (i + 1) := by
      obtain ⟨inside, rfl⟩ := List.getElem?_eq_some_iff.1 hi
      rw [← List.drop_eq_getElem_cons, List.take_append_drop]
    refine ⟨sat, (l.drop (i + 1)).reverse, (l.take i).reverse, ?_, fun b hb => ?_⟩
    · calc l.reverse = (l.take i ++ a :: l.drop (i + 1)).reverse := congrArg List.reverse split
        _ = (l.drop (i + 1)).reverse ++ a :: (l.take i).reverse := by simp
    · obtain ⟨k, hk⟩ := List.getElem?_of_mem (List.mem_reverse.1 hb)
      rw [List.getElem?_drop] at hk
      simpa using none _ (by omega) b hk

/-- The answer is the last one of the snapshots that are not after the timestamp. -/
theorem stateAt_eq_some_iff {t : OffsetDateTime} {s : GraphSnapshot} : g.stateAt t = some s ↔
    ∃ i : ℕ, g.history.snapshots[i]? = some s ∧ s.timestamp ≤ t ∧
      ∀ j > i, ∀ s', g.history.snapshots[j]? = some s' → t < s'.timestamp := by
  rw [stateAt, GraphHistory.stateAt, find?_reverse_eq_some_iff]
  simp only [decide_eq_true_eq, not_le]

theorem getElem?_timestamps_iff {l : List GraphSnapshot} {i : ℕ} {x : OffsetDateTime} :
    (l.map GraphSnapshot.timestamp)[i]? = some x ↔ ∃ s, l[i]? = some s ∧ s.timestamp = x := by
  rw [List.getElem?_map, Option.map_eq_some_iff]

/-- **Past states are right exactly if every time that is followed by an earlier one comes again.** -/
theorem answersAt_iff (h : Taken times g) : (∀ t, AnswersAt g t) ↔ ComesAgain times := by
  obtain rfl := h.timestamps
  unfold ComesAgain
  simp only [getElem?_timestamps_iff]
  constructor
  · rintro answers i j _ _ ⟨s, hi, rfl⟩ ⟨s', hj, rfl⟩ less earlier
    obtain ⟨none, some⟩ := answers s.timestamp
    cases found : g.stateAt s.timestamp with
    | none => exact absurd (none.1 found s (List.mem_of_getElem? hi)) (lt_irrefl _)
    | some u =>
      obtain ⟨-, past, greatest⟩ := some u found
      have same : u.timestamp = s.timestamp := past.antisymm (greatest s (List.mem_of_getElem? hi) le_rfl)
      obtain ⟨k, hk, -, last⟩ := stateAt_eq_some_iff.1 found
      refine ⟨k, ?_, u, hk, same⟩
      rcases Nat.lt_trichotomy k j with before | rfl | behind
      · exact absurd (last j before s' hj) earlier.not_gt
      · rw [hk, Option.some.injEq] at hj
        exact absurd (same ▸ hj ▸ earlier) (lt_irrefl _)
      · exact behind
  · intro again t
    refine ⟨stateAt_eq_none_iff g t, fun s found => ?_⟩
    obtain ⟨i, hi, past, last⟩ := stateAt_eq_some_iff.1 found
    refine ⟨List.mem_of_getElem? hi, past, fun s' mem past' => ?_⟩
    obtain ⟨j, hj⟩ := List.getElem?_of_mem mem
    by_contra earlier
    rw [not_le] at earlier
    rcases Nat.lt_trichotomy j i with before | rfl | behind
    · obtain ⟨k, behind, u, hk, same⟩ := again j i _ _ ⟨s', hj, rfl⟩ ⟨s, hi, rfl⟩ before earlier
      exact absurd past' (same ▸ last k behind u hk).not_ge
    · rw [hi, Option.some.injEq] at hj
      exact absurd (hj ▸ earlier) (lt_irrefl _)
    · exact absurd past' (last j behind s' hj).not_ge

/-- The listing of an empty graph. -/
def emptyListing : GraphState.new.Listing := ⟨[], [], rfl, rfl⟩

/-- Two snapshots of the empty graph. -/
def twice (t t' : OffsetDateTime) : TemporalGraph := (new.snapshot emptyListing t).snapshot emptyListing t'

theorem taken_twice (t t' : OffsetDateTime) : Taken [t, t'] (twice t t') :=
  .snapshot (.snapshot .new emptyListing t) emptyListing t'

/-- The instant 20 is followed by the instant 7, and comes again. -/
theorem answersAt_once : ∃ g, Taken [5, 20, 7, 20] g ∧ ∀ t, AnswersAt g t := by
  have taken : Taken [5, 20, 7, 20] (((twice 5 20).snapshot emptyListing 7).snapshot emptyListing 20) :=
    .snapshot (.snapshot (taken_twice 5 20) emptyListing 7) emptyListing 20
  have comesAgain : ∀ i j : Fin 4, i < j → [5, 20, 7, (20 : OffsetDateTime)][j] < [5, 20, 7, 20][i] →
      3 > j.val ∧ [5, 20, 7, (20 : OffsetDateTime)][3]? = some [5, 20, 7, 20][i] := by decide
  refine ⟨_, taken, (answersAt_iff taken).2 fun i j x y hi hj less earlier => ⟨3, ?_⟩⟩
  obtain ⟨inside, rfl⟩ := List.getElem?_eq_some_iff.1 hj
  obtain ⟨inside', rfl⟩ := List.getElem?_eq_some_iff.1 hi
  exact comesAgain ⟨i, inside'⟩ ⟨j, inside⟩ less earlier

/-- The snapshot of the instant 5 is taken last, and is the answer for the instant 30. -/
theorem not_answersAt : ∃ g, Taken [20, 5] g ∧ ¬AnswersAt g 30 := by
  refine ⟨twice 20 5, taken_twice 20 5, fun answers => ?_⟩
  have greatest := (answers.2 _ rfl).2.2 (GraphState.snapshot emptyListing 20) (by exact List.mem_cons_self)
    (by decide)
  exact absurd greatest (by decide)

end TORdex.TemporalGraph
