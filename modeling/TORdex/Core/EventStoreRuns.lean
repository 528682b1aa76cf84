import TORdex.Core.EventStore

/-!
# Runs of the in-memory event store

Every call takes the one lock of the store, so a run of any number of clients is the list of their calls
in the order in which they take it.  A run keeps the indexes, and numbers the events of every aggregate
by their versions; the catch-up reader compares ULIDs instead, and returns what was appended later as
long as the ULIDs grow along the log.
-/

namespace TORdex

/-- A list whose entries are numbered from `s` on. -/
theorem filter_numbered {α : Type*} {f : α → ℕ} {l : List α} {s n : ℕ}
    (h : l.map f = List.range' s n) (v : ℕ) : (l.filter fun x => s + v ≤ f x) = l.drop v := by
  induction l generalizing s n v with
  | nil => simp
  | cons x l ih =>
    cases n with
    | zero => simp at h
    | succ n =>
      rw [List.map_cons, List.range'_succ, List.cons.injEq] at h
      obtain ⟨hx, hl⟩ := h
      cases v with
      | zero =>
        have all : ∀ y ∈ x :: l, s + 0 ≤ f y := by
          intro y hy
          rcases List.mem_cons.1 hy with rfl | hy
          · omega
          · have := List.mem_map_of_mem (f := f) hy
            rw [hl, List.mem_range'_1] at this
            omega
        rw [List.drop_zero, List.filter_eq_self]
        simpa using all
      | succ v =>
        have skipped : ¬ s + (v + 1) ≤ f x := by omega
        rw [List.filter_cons_of_neg (by simpa using skipped), List.drop_succ_cons, ← ih hl v]
        simp only [Nat.add_assoc, Nat.add_comm 1]

namespace InMemoryEventStore

/-- A call that may change the store. -/
inductive StoreStep where
  | append (event : EventEnvelope)
  | clear

/-- The answer to a call and the store after it. -/
def perform (s : InMemoryEventStore) : StoreStep → Except EventStoreError Unit × InMemoryEventStore
  | .append event =>
    match s.append event with
    | .ok s' => (.ok (), s')
    | .error e => (.error e, s)
  | .clear => (.ok (), s.clear)

/-- The store after a run of calls. -/
def runSteps (s : InMemoryEventStore) (calls : List StoreStep) : InMemoryEventStore :=
  calls.foldl (fun s call => (s.perform call).2) s

theorem perform_append (s : InMemoryEventStore) (event : EventEnvelope) :
    (s.perform (.append event)).2 = s.appendOk event := by
  simp only [perform, appendOk]
  cases s.append event <;> rfl

/-! ## Versions -/

/-- The events of every aggregate are numbered by their versions. -/
def Versioned (s : InMemoryEventStore) : Prop :=
  ∀ a, (s.events.filter (ofAggregate a)).map EventEnvelope.version =
    List.range' 1 (s.events.filter (ofAggregate a)).length

theorem Versioned.push {s : InMemoryEventStore} (h : Versioned s) {event : EventEnvelope}
    (hv : event.version = (s.events.filter (ofAggregate event.aggregateId)).length + 1) :
    Versioned (s.push event) := by
  intro a
  have events : (s.push event).events = s.events ++ [event] := rfl
  rw [events, List.filter_append]
  by_cases ha : ofAggregate a event
  · have own : event.aggregateId = a := by simpa [ofAggregate] using ha
    rw [own] at hv
    rw [List.filter_cons_of_pos ha, List.filter_nil, List.map_append, h a, List.length_append,
      List.map_singleton, hv, List.length_singleton, List.range'_1_concat, Nat.add_comm 1]
  · rw [List.filter_cons_of_neg ha, List.filter_nil, List.append_nil]
    exact h a

/-- What holds of the store between calls. -/
structure Sound (s : InMemoryEventStore) : Prop where
  indexed : Indexed s
  versioned : Versioned s

theorem sound_new : Sound new := ⟨indexed_new, fun _ => rfl⟩

theorem Sound.appendOk {s : InMemoryEventStore} (h : Sound s) (event : EventEnvelope) :
    Sound (s.appendOk event) := by
  refine ⟨h.indexed.appendOk event, ?_⟩
  rw [appendOk_eq]
  split_ifs with hv
  · rw [latestVersion_eq h.indexed] at hv
    exact h.versioned.push hv
  · exact h.versioned

theorem Sound.perform {s : InMemoryEventStore} (h : Sound s) (call : StoreStep) :
    Sound (s.perform call).2 := by
  cases call with
  | append event =>
    rw [perform_append]
    exact h.appendOk event
  | clear => exact sound_new

theorem Sound.runSteps {s : InMemoryEventStore} (h : Sound s) (calls : List StoreStep) :
    Sound (s.runSteps calls) := by
  induction calls generalizing s with
  | nil => exact h
  | cons call calls ih => exact ih (h.perform call)

/-! ## The readers -/

/-- Indexes, readers and log agree. -/
structure Consistent (s : InMemoryEventStore) : Prop where
  aggregateIndex : ∀ a indices, s.byAggregate.lookup a = some indices →
    ∀ i ∈ indices, i < s.events.length
  typeIndex : ∀ t indices, s.byType.lookup t = some indices → ∀ i ∈ indices, i < s.events.length
  readEvents : ∀ a, s.readEvents a = some (s.events.filter (ofAggregate a))
  versions : ∀ a, (s.events.filter (ofAggregate a)).map EventEnvelope.version =
    List.range' 1 (s.latestVersion a)
  readAll : ∀ t, s.readAll t = some (s.events.filter (ofType t))
  count : ∀ t, s.count t = (s.events.filter (ofType t)).length
  readSinceVersion : ∀ a v,
    s.readSinceVersion a v = some ((s.events.filter (ofAggregate a)).drop v)
  totalCount : s.totalCount = s.events.length

theorem index_lt {s : InMemoryEventStore} {index : HashMap String (List ℕ)}
    {p : EventEnvelope → Bool} {key : String} {indices : List ℕ}
    (h : (index.lookup key).getD [] = Positions.positions p s.events)
    (found : index.lookup key = some indices) : ∀ i ∈ indices, i < s.events.length := by
  intro i hi
  rw [found, Option.getD_some] at h
  rw [h] at hi
  exact Positions.lt_length_of_mem_positions p hi

theorem Sound.consistent {s : InMemoryEventStore} (h : Sound s) : Consistent s where
  aggregateIndex a _ found := index_lt (h.indexed.byAggregate a) found
  typeIndex t _ found := index_lt (h.indexed.byType t) found
  readEvents := readEvents_eq h.indexed
  versions a := by
    rw [latestVersion_eq h.indexed]
    exact h.versioned a
  readAll := readAll_eq h.indexed
  count t := by
    rw [← Positions.length_positions, ← h.indexed.byType]
    unfold count
    cases s.byType.lookup t <;> rfl
  readSinceVersion a v := by
    have numbered := filter_numbered (h.versioned a) v
    simp only [Nat.add_comm 1, Nat.succ_le_iff] at numbered
    rw [readSinceVersion, ← readEvents, readEvents_eq h.indexed, Option.map_some, numbered]
  totalCount := rfl

/-- After every run the indexes and the readers agree with the log, and a rejected append leaves the
store alone. -/
theorem run_consistent (calls : List StoreStep) :
    Consistent (new.runSteps calls) ∧
      ∀ event error, ((new.runSteps calls).perform (.append event)).1 = .error error →
        ((new.runSteps calls).perform (.append event)).2 = new.runSteps calls := by
  refine ⟨(sound_new.runSteps calls).consistent, fun event error refused => ?_⟩
  simp only [perform] at refused ⊢
  cases happ : (new.runSteps calls).append event with
  | ok s' =>
    rw [happ] at refused
    cases refused
  | error e => rfl

/-! ## Catching up -/

/-- The store after appends, the rejected ones dropped. -/
def appends (events : List EventEnvelope) : InMemoryEventStore := events.foldl appendOk new

/-- The store takes the event. -/
def Accepts (s : InMemoryEventStore) (event : EventEnvelope) : Prop :=
  event.version = s.latestVersion event.aggregateId + 1

/-- A reader that has seen an event gets exactly what was appended after it. -/
def CatchesUp (s : InMemoryEventStore) : Prop :=
  ∀ before e after, s.events = before ++ e :: after → s.readSince e.id = after

/-- The event is above all that are in the log, or it is rejected. -/
def Above (s : InMemoryEventStore) (event : EventEnvelope) : Prop :=
  s.Accepts event → ∀ e ∈ s.events, e.id.value < event.id.value

/-- The events after `e` are those above it exactly when no other event is in the way. -/
theorem filter_eq_right {α : Type*} {p : α → Bool} {l r : List α} :
    (l ++ r).filter p = r ↔ (∀ x ∈ l, ¬p x) ∧ ∀ x ∈ r, p x := by
  constructor
  · intro h
    have right : ∀ x ∈ r, p x := fun x hx => by
      rw [← h] at hx
      exact (List.mem_filter.1 hx).2
    refine ⟨fun x hx hp => ?_, right⟩
    rw [List.filter_append, List.filter_eq_self.2 right, List.append_left_eq_self,
      List.filter_eq_nil_iff] at h
    exact h x hx hp
  · rintro ⟨left, right⟩
    rw [List.filter_append, List.filter_eq_nil_iff.2 left, List.filter_eq_self.2 right,
      List.nil_append]

theorem pairwise_iff_split {α : Type*} {R : α → α → Prop} {l : List α} :
    l.Pairwise R ↔ ∀ before e after, l = before ++ e :: after → ∀ x ∈ after, R e x := by
  constructor
  · rintro h before e after rfl
    exact (List.pairwise_cons.1 (List.pairwise_append.1 h).2.1).1
  · intro h
    induction l with
    | nil => exact List.Pairwise.nil
    | cons a l ih =>
      refine List.pairwise_cons.2 ⟨h [] a l rfl, ih ?_⟩
      rintro before e after rfl
      exact h (a :: before) e after rfl

/-- The entries of a list with what comes before them, when an entry is added at the end. -/
theorem forall_split_concat {α : Type*} {P : List α → α → Prop} {l : List α} {a : α} :
    (∀ before x after, l ++ [a] = before ++ x :: after → P before x) ↔
      (∀ before x after, l = before ++ x :: after → P before x) ∧ P l a := by
  constructor
  · refine fun h => ⟨?_, h l a [] rfl⟩
    rintro before x after rfl
    exact h before x (after ++ [a]) (by simp)
  · rintro ⟨h, last⟩ before x after split
    rcases List.eq_nil_or_concat after with rfl | ⟨after, b, rfl⟩
    · obtain ⟨rfl, hx⟩ := List.append_inj' split rfl
      cases hx
      exact last
    · have lists : l ++ [a] = (before ++ x :: after) ++ [b] := by simpa using split
      exact h before x after (List.append_inj' lists rfl).1

theorem catchesUp_iff_pairwise (s : InMemoryEventStore) :
    s.CatchesUp ↔ s.events.Pairwise fun a b => a.id.value < b.id.value := by
  have here : ∀ before e after, s.events = before ++ e :: after → (s.readSince e.id = after ↔
      (∀ x ∈ before ++ [e], ¬e.id.value < x.id.value) ∧ ∀ x ∈ after, e.id.value < x.id.value) := by
    intro before e after split
    have split' : s.events = (before ++ [e]) ++ after := by simp [split]
    rw [readSince, split', filter_eq_right]
    simp only [decide_eq_true_eq]
  constructor
  · intro h
    rw [pairwise_iff_split]
    exact fun before e after split => ((here before e after split).1 (h before e after split)).2
  · intro h before e after split
    refine (here before e after split).2 ⟨fun x hx => ?_, pairwise_iff_split.1 h before e after split⟩
    rw [split, List.pairwise_append] at h
    rcases List.mem_append.1 hx with hx | hx
    · exact Nat.lt_asymm (h.2.2 x hx e List.mem_cons_self)
    · rw [List.mem_singleton.1 hx]
      exact Nat.lt_irrefl _

/-- One more append keeps the order of the log exactly when its event is above the log. -/
theorem pairwise_appendOk (s : InMemoryEventStore) (event : EventEnvelope) :
    ((s.appendOk event).events.Pairwise fun a b => a.id.value < b.id.value) ↔
      (s.events.Pairwise fun a b => a.id.value < b.id.value) ∧ s.Above event := by
  rw [appendOk_eq]
  unfold Above Accepts
  split_ifs with hv
  · have events : (s.push event).events = s.events ++ [event] := rfl
    rw [events, List.pairwise_append]
    simp [hv]
  · simp [hv]

/-- After every run of appends a reader catches up from every event of the log exactly when each
accepted event was above all before it. -/
theorem catchesUp_iff (events : List EventEnvelope) :
    (appends events).CatchesUp ↔
      ∀ before event after, events = before ++ event :: after → (appends before).Above event := by
  rw [catchesUp_iff_pairwise]
  induction events using List.reverseRecOn with
  | nil => simp [appends, new]
  | append_singleton events event ih =>
    have last : appends (events ++ [event]) = (appends events).appendOk event := by
      simp [appends, List.foldl_append]
    rw [forall_split_concat, last, pairwise_appendOk, ih]

/-- An event with an id. -/
def sampleEvent (id : ℕ) (aggregateId : String) : EventEnvelope where
  id := Ulid.ofNat id
  aggregateId := aggregateId
  aggregateType := "Test"
  eventType := "Created"
  version := 1
  data := .other .null
  metadata := ∅
  timestamp := 0

/-- The later event drew its ULID first: a reader that has seen the earlier one never gets it. -/
theorem not_catchesUp : ¬(appends [sampleEvent 2 "a1", sampleEvent 1 "b1"]).CatchesUp := by
  intro h
  have missed := h [] (sampleEvent 2 "a1") [sampleEvent 1 "b1"] rfl
  cases missed

end InMemoryEventStore

end TORdex
