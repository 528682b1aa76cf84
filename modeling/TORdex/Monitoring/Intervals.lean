import TORdex.Lib.Runs
import TORdex.Monitoring.Engine

/-!
# The intervals between polls

Several passes run at once, and each of their critical sections is a step: the list of due watchers, and then
each poll.  The list says what was due when it was made; another pass may poll a watcher of it in between.
-/

namespace TORdex.Monitoring

/-- A pass between two of its critical sections: the due watchers that it has not polled yet, and how many
polls there had been when it listed them. -/
structure Listed where
  due : List ℕ
  since : ℕ

/-- The watchers, the passes that run, and all polls so far with their clock readings. -/
structure Monitor (ι : Type) where
  watchers : List WatcherEntry
  passes : ι → Listed
  clock : ℕ
  polls : List (ℕ × ℕ)

/-- A critical section of `register_all`, of a `poll_due` or of a background loop, or the end of a pass. -/
inductive Action (ι : Type) where
  | registerAll (watchers : List Watcher)
  /-- The readings of the clock for the watchers, and one after them. -/
  | list (thread : ι) (now : ℕ → ℕ) (later : ℕ)
  | poll (thread : ι) (now : ℕ)
  /-- An emission failed in `poll_due`. -/
  | leave (thread : ι)

namespace Monitor

variable {ι : Type}

/-- Before the first action. -/
def start : Monitor ι := ⟨[], fun _ => ⟨[], 0⟩, 0, []⟩

/-- A pass begins when the last one of its thread is over. -/
def step [DecidableEq ι] (s : Monitor ι) : Action ι → Monitor ι
  | .registerAll watchers => { s with watchers := s.watchers ++ watchers.map fun w => ⟨w, none⟩ }
  | .list thread now later =>
    if (s.passes thread).due = [] then { s with
      passes := Function.update s.passes thread ⟨dueWatchers s.watchers now, s.polls.length⟩
      clock := later }
    else s
  | .poll thread now =>
    match s.passes thread with
    | ⟨idx :: due, since⟩ =>
      let s := { s with passes := Function.update s.passes thread ⟨due, since⟩ }
      if s.watchers.length ≤ idx then s
      else { s with
        watchers := markPolled s.watchers idx now
        clock := now
        polls := s.polls ++ [(idx, now)] }
    | ⟨[], _⟩ => s
  | .leave thread => { s with passes := Function.update s.passes thread ⟨[], 0⟩ }

/-- The clock does not go back. -/
def Timed (s : Monitor ι) : Action ι → Prop
  | .list _ now later => s.clock ≤ later ∧ ∀ i, s.clock ≤ now i ∧ now i ≤ later
  | .poll _ now => s.clock ≤ now
  | .registerAll _ | .leave _ => True

/-- When a pass polls a watcher of its list, nobody has polled it since the list was made. -/
def Untouched (s : Monitor ι) : Action ι → Prop
  | .poll thread _ => ∀ idx ∈ (s.passes thread).due.head?,
    idx ∉ (s.polls.drop (s.passes thread).since).map Prod.fst
  | _ => True

/-- The polls of a watcher. -/
def pollsOf (s : Monitor ι) (i : ℕ) : List (ℕ × ℕ) := s.polls.filter fun e => e.1 = i

/-- Two polls of a watcher are at least its interval apart. -/
def Spaced (s : Monitor ι) : Prop :=
  ∀ i entry, s.watchers[i]? = some entry →
    (s.pollsOf i).Pairwise fun a b => a.2 + entry.watcher.pollInterval ≤ b.2

/-! ## What every action keeps -/

/-- A watcher of the list that nobody has polled since is still due. -/
structure Fresh (s : Monitor ι) (l : Listed) : Prop where
  since : l.since ≤ s.polls.length
  due : ∀ idx ∈ l.due, idx ∉ (s.polls.drop l.since).map Prod.fst →
    ∃ entry, s.watchers[idx]? = some entry ∧ entry.shouldPoll s.clock

/-- What every action keeps: the last polls are those of the log. -/
structure Kept (s : Monitor ι) : Prop where
  lastPoll : ∀ i entry, s.watchers[i]? = some entry →
    entry.lastPoll = (s.pollsOf i).getLast?.map Prod.snd
  registered : ∀ e ∈ s.polls, e.1 < s.watchers.length
  past : ∀ e ∈ s.polls, e.2 ≤ s.clock
  ordered : s.polls.Pairwise fun a b => a.2 ≤ b.2
  passes : ∀ t, s.Fresh (s.passes t)
  spaced : s.Spaced

theorem shouldPoll_mono {entry : WatcherEntry} {now later : ℕ} (h : entry.shouldPoll now)
    (le : now ≤ later) : entry.shouldPoll later := by
  unfold WatcherEntry.shouldPoll at *
  cases last : entry.lastPoll with
  | none => rfl
  | some last =>
    simp only [last, decide_eq_true_eq] at h ⊢
    exact h.trans (Nat.sub_le_sub_right le _)

theorem kept_start : Kept (start : Monitor ι) where
  lastPoll _ _ h := by simp [start] at h
  registered _ h := by simp [start] at h
  past _ h := by simp [start] at h
  ordered := List.Pairwise.nil
  passes _ := ⟨le_rfl, fun _ h => by simp [start] at h⟩
  spaced _ _ h := by simp [start] at h

section Fresh

variable {s : Monitor ι} {l : Listed}

/-- A pass without due watchers. -/
theorem fresh_nil {since : ℕ} (le : since ≤ s.polls.length) : s.Fresh ⟨[], since⟩ := ⟨le, fun _ h => by cases h⟩

theorem Fresh.tail {idx : ℕ} {due : List ℕ} {since : ℕ} (h : s.Fresh ⟨idx :: due, since⟩) :
    s.Fresh ⟨due, since⟩ :=
  ⟨h.since, fun i hi => h.due i (List.mem_cons_of_mem _ hi)⟩

end Fresh

section Step

variable [DecidableEq ι] {s : Monitor ι} (h : Kept s)
include h

/-- A new watcher has not been polled. -/
theorem Kept.registerAll (watchers : List Watcher) : Kept (s.step (.registerAll watchers)) := by
  have new : ∀ i entry, (s.watchers ++ watchers.map fun w => ⟨w, none⟩)[i]? = some entry →
      s.watchers[i]? = some entry ∨ entry.lastPoll = none ∧ s.pollsOf i = [] := by
    intro i entry at_i
    rcases lt_or_ge i s.watchers.length with old | later
    · rw [List.getElem?_append_left old] at at_i
      exact .inl at_i
    · rw [List.getElem?_append_right later, List.getElem?_map, Option.map_eq_some_iff] at at_i
      obtain ⟨w, -, rfl⟩ := at_i
      refine .inr ⟨rfl, List.filter_eq_nil_iff.2 fun e he => ?_⟩
      have before := h.registered e he
      simp only [decide_eq_true_eq]
      omega
  refine ⟨fun i entry at_i => ?_, fun e he => ?_, h.past, h.ordered, fun t => ⟨(h.passes t).since, ?_⟩,
    fun i entry at_i => ?_⟩
  · rcases new i entry at_i with old | ⟨never, none⟩
    · exact h.lastPoll i entry old
    · show entry.lastPoll = (s.pollsOf i).getLast?.map Prod.snd
      rw [never, none]
      rfl
  · show e.1 < (s.watchers ++ _).length
    rw [List.length_append]
    exact (h.registered e he).trans_le (Nat.le_add_right ..)
  · intro idx hidx untouched
    obtain ⟨entry, at_idx, due⟩ := (h.passes t).due idx hidx untouched
    exact ⟨entry, (List.getElem?_append_left (List.getElem?_eq_some_iff.1 at_idx).1).trans at_idx, due⟩
  · rcases new i entry at_i with old | ⟨-, none⟩
    · exact h.spaced i entry old
    · show (s.pollsOf i).Pairwise _
      rw [none]
      exact .nil

/-- A list of due watchers is right when it is made. -/
theorem Kept.list {thread : ι} {now : ℕ → ℕ} {later : ℕ}
    (timed : s.Timed (.list thread now later)) : Kept (s.step (.list thread now later)) := by
  simp only [step]
  split_ifs
  · refine ⟨h.lastPoll, h.registered, fun e he => (h.past e he).trans timed.1, h.ordered,
      (Function.forall_update_iff _ _).2 ⟨⟨le_rfl, fun idx hidx _ => ?_⟩, fun t _ => ⟨(h.passes t).since, ?_⟩⟩,
      h.spaced⟩
    · obtain ⟨entry, at_idx, due⟩ := mem_dueWatchers.1 hidx
      exact ⟨entry, at_idx, shouldPoll_mono due (timed.2 idx).2⟩
    · intro idx hidx untouched
      obtain ⟨entry, at_idx, due⟩ := (h.passes t).due idx hidx untouched
      exact ⟨entry, at_idx, shouldPoll_mono due timed.1⟩
  · exact h

theorem Kept.leave (thread : ι) : Kept (s.step (.leave thread)) :=
  ⟨h.lastPoll, h.registered, h.past, h.ordered,
    (Function.forall_update_iff _ _).2
      ⟨fresh_nil (Nat.zero_le _), fun t _ => ⟨(h.passes t).since, (h.passes t).due⟩⟩,
    h.spaced⟩

end Step

/-! ## A poll -/

/-- The state after a poll. -/
def polled (s : Monitor ι) (idx : ℕ) (now : ℕ) (passes : ι → Listed) : Monitor ι where
  watchers := markPolled s.watchers idx now
  passes := passes
  clock := now
  polls := s.polls ++ [(idx, now)]

section Poll

variable {s : Monitor ι} {idx : ℕ} {now : ℕ} {passes : ι → Listed}

theorem pollsOf_polled (i : ℕ) :
    (s.polled idx now passes).pollsOf i = s.pollsOf i ++ if idx = i then [(idx, now)] else [] := by
  unfold pollsOf polled
  rw [List.filter_append, List.filter_singleton]
  by_cases same : idx = i <;> simp [same]

/-- A poll changes the last poll of its watcher. -/
theorem getElem?_markPolled {watchers : List WatcherEntry} {i : ℕ} {entry : WatcherEntry} :
    (markPolled watchers idx now)[i]? = some entry ↔
      ∃ old, watchers[i]? = some old ∧
        entry = if idx = i then { old with lastPoll := some now } else old := by
  rw [markPolled, List.getElem?_modify]
  by_cases same : idx = i <;> simp [same, eq_comm]

/-- The list of another pass says nothing about a watcher that is polled now. -/
theorem Fresh.polled {l : Listed} (h : s.Fresh l) (timed : s.clock ≤ now) :
    (s.polled idx now passes).Fresh l where
  since := by
    show l.since ≤ (s.polls ++ _).length
    rw [List.length_append]
    exact h.since.trans (Nat.le_add_right ..)
  due i hi untouched := by
    simp only [Monitor.polled, List.drop_append_of_le_length h.since, List.map_append, List.mem_append,
      not_or, List.map_singleton, List.mem_singleton] at untouched
    obtain ⟨entry, at_i, due⟩ := h.due i hi untouched.1
    refine ⟨entry, getElem?_markPolled.2 ⟨entry, at_i, ?_⟩, shouldPoll_mono due timed⟩
    rw [if_neg fun same => untouched.2 same.symm]

/-- The interval of a due watcher has passed since each of its polls. -/
theorem Kept.elapsed (h : Kept s) {entry : WatcherEntry} (at_idx : s.watchers[idx]? = some entry)
    (due : entry.shouldPoll s.clock) : ∀ e ∈ s.pollsOf idx, e.2 + entry.watcher.pollInterval ≤ s.clock := by
  intro e he
  have some : s.pollsOf idx ≠ [] := List.ne_nil_of_mem he
  have last := h.lastPoll idx entry at_idx
  rw [List.getLast?_eq_some_getLast some, Option.map_some] at last
  have before : e.2 ≤ ((s.pollsOf idx).getLast some).2 := by
    have ordered : (s.pollsOf idx).Pairwise fun a b => a.2 ≤ b.2 :=
      h.ordered.sublist List.filter_sublist
    rw [← List.dropLast_append_getLast some] at he ordered
    rcases List.mem_append.1 he with early | isLast
    · exact (List.pairwise_append.1 ordered).2.2 e early _ (List.mem_singleton_self _)
    · rw [List.mem_singleton.1 isLast]
  have past := h.past _ (List.mem_of_mem_filter (List.getLast_mem some))
  rw [WatcherEntry.shouldPoll, last] at due
  have passed : entry.watcher.pollInterval ≤ s.clock - ((s.pollsOf idx).getLast some).2 :=
    of_decide_eq_true due
  omega

theorem Kept.polled (h : Kept s) {entry : WatcherEntry} (at_idx : s.watchers[idx]? = some entry)
    (due : entry.shouldPoll s.clock) (timed : s.clock ≤ now) (fresh : ∀ t, s.Fresh (passes t)) :
    Kept (s.polled idx now passes) where
  lastPoll i entry' at_i := by
    obtain ⟨old, found, rfl⟩ := getElem?_markPolled.1 at_i
    rw [pollsOf_polled]
    by_cases same : idx = i
    · simp [same]
    · simpa [same] using h.lastPoll i old found
  registered e he := by
    show e.1 < (markPolled _ _ _).length
    rw [markPolled, List.length_modify]
    rcases List.mem_append.1 he with old | new
    · exact h.registered e old
    · rw [List.mem_singleton.1 new]
      exact (List.getElem?_eq_some_iff.1 at_idx).1
  past e he := by
    rcases List.mem_append.1 he with old | new
    · exact (h.past e old).trans timed
    · rw [List.mem_singleton.1 new]
      exact le_rfl
  ordered := by
    refine List.pairwise_append.2 ⟨h.ordered, List.pairwise_singleton _ _, fun e he new hnew => ?_⟩
    rw [List.mem_singleton.1 hnew]
    exact (h.past e he).trans timed
  passes t := (fresh t).polled timed
  spaced i entry' at_i := by
    obtain ⟨old, found, rfl⟩ := getElem?_markPolled.1 at_i
    rw [pollsOf_polled]
    by_cases same : idx = i
    · subst same
      obtain rfl : entry = old := Option.some.inj (at_idx.symm.trans found)
      rw [if_pos rfl, if_pos rfl]
      refine List.pairwise_append.2
        ⟨h.spaced idx entry at_idx, List.pairwise_singleton _ _, fun e he new hnew => ?_⟩
      rw [List.mem_singleton.1 hnew]
      exact (h.elapsed at_idx due e he).trans timed
    · rw [if_neg same, if_neg same, List.append_nil]
      exact h.spaced i old found

end Poll

theorem Kept.poll [DecidableEq ι] {s : Monitor ι} (h : Kept s) {thread : ι} {now : ℕ}
    (timed : s.Timed (.poll thread now)) (untouched : s.Untouched (.poll thread now)) :
    Kept (s.step (.poll thread now)) := by
  simp only [step]
  split
  · rename_i idx due since listed
    have fresh : s.Fresh ⟨idx :: due, since⟩ := listed ▸ h.passes thread
    split_ifs with outside
    · exact ⟨h.lastPoll, h.registered, h.past, h.ordered,
        (Function.forall_update_iff _ _).2
          ⟨⟨fresh.tail.since, fresh.tail.due⟩, fun t _ => ⟨(h.passes t).since, (h.passes t).due⟩⟩, h.spaced⟩
    · have new : idx ∉ (s.polls.drop since).map Prod.fst := by
        simpa [Untouched, listed] using untouched
      obtain ⟨entry, at_idx, isDue⟩ := fresh.due idx List.mem_cons_self new
      exact h.polled at_idx isDue timed
        ((Function.forall_update_iff _ _).2 ⟨fresh.tail, fun t _ => h.passes t⟩)
  · exact h

theorem Kept.step [DecidableEq ι] {s : Monitor ι} (h : Kept s) {a : Action ι} (timed : s.Timed a)
    (untouched : s.Untouched a) : Kept (s.step a) := by
  cases a with
  | registerAll watchers => exact h.registerAll watchers
  | list thread now later => exact h.list timed
  | poll thread now => exact h.poll timed untouched
  | leave thread => exact h.leave thread

/-- While no pass polls a watcher that another pass has polled since it was listed, the polls of every watcher
are at least its interval apart. -/
theorem spaced_of_untouched [DecidableEq ι] {s : Monitor ι}
    (run : Reached step (fun s a => s.Timed a ∧ s.Untouched a) start s) : s.Spaced :=
  (run.invariant kept_start fun _ _ kept allowed => kept.step allowed.1 allowed.2).spaced

/-- A pass polls a watcher with an interval of ten, and another pass polls it when the interval is over. -/
theorem spaced_sample : (([.registerAll [⟨"cves", 10⟩], .list true (fun _ => 0) 0, .poll true 0,
    .list false (fun _ => 10) 10, .poll false 11] : List (Action Bool)).foldl step start).Spaced :=
  spaced_of_untouched <| Along.reached
    ⟨⟨trivial, trivial⟩, ⟨⟨le_rfl, fun _ => ⟨le_rfl, le_rfl⟩⟩, trivial⟩,
      ⟨le_rfl, fun _ _ again => List.not_mem_nil again⟩,
      ⟨⟨Nat.zero_le 10, fun _ => ⟨Nat.zero_le 10, le_rfl⟩⟩, trivial⟩,
      ⟨Nat.le_succ 10, fun _ _ again => List.not_mem_nil again⟩, trivial⟩

/-- Two passes list the watcher before either polls it. -/
def bothListed : List (Action Bool) :=
  [.registerAll [⟨"cves", 10⟩], .list true (fun _ => 0) 0, .list false (fun _ => 0) 0, .poll true 0,
    .poll false 1]

theorem not_spaced : ∃ s : Monitor Bool, Reached step Timed start s ∧ ¬s.Spaced := by
  refine ⟨bothListed.foldl step start, Along.reached ?_, fun spaced => ?_⟩
  · exact ⟨trivial, ⟨le_rfl, fun _ => ⟨le_rfl, le_rfl⟩⟩, ⟨le_rfl, fun _ => ⟨le_rfl, le_rfl⟩⟩, le_rfl,
      Nat.zero_le 1, trivial⟩
  · have pair := spaced 0 ⟨⟨"cves", 10⟩, some 1⟩ rfl
    have apart : 0 + 10 ≤ 1 := (List.pairwise_cons.1 pair).1 (0, 1) (List.mem_singleton_self _)
    omega

end Monitor

end TORdex.Monitoring
