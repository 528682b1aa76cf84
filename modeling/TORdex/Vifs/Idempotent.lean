import TORdex.Vifs.Replay

/-!
# Replaying a log twice

Every event but one overwrites its file, updates it or removes it, so a second replay ends where the
first one did (`runAt_again`).  A timeline entry is appended to whatever is there: the second replay
doubles every timeline.
-/

namespace TORdex

open KeyedStore

/-- The store after appending envelopes; the refused ones are dropped. -/
def InMemoryEventStore.ofEnvelopes (envelopes : List EventEnvelope) : InMemoryEventStore :=
  envelopes.foldl appendOk new

theorem InMemoryEventStore.indexed_ofEnvelopes (envelopes : List EventEnvelope) :
    (ofEnvelopes envelopes).Indexed := by
  unfold ofEnvelopes
  have start := indexed_new
  generalize new = s at start ⊢
  induction envelopes generalizing s with
  | nil => exact start
  | cons env envs ih => exact ih _ (start.appendOk env)

namespace SystemEvent

/-- An event that was read from JSON has finite floats. -/
theorem finite_of_fromValue {v : Value} {e : SystemEvent F64} (h : fromValue v = some e) :
    e.finite := by
  cases v with
  | other _ => cases h
  | event p =>
    cases p with
    | evidenceExtracted _ _ _ _ c | knowledgeProduced _ _ _ c _ | findingCreated _ _ _ _ _ _ c _ =>
      obtain ⟨d, -, rfl⟩ := Option.map_eq_some_iff.1 h
      rfl
    | findingUpdated _ _ _ _ c =>
      cases h
      rcases c with _ | _ | d <;> rfl
    | _ =>
      cases h
      rfl

end SystemEvent

namespace Vifs

variable {r : Readings}

/-- A file of the directory that the projector can read back. -/
def Good (d : String) (x : Stored) : Prop := x.directory = d ∧ x.readable

/-- Apart from timeline entries, an event that succeeds overwrites, updates or removes. -/
theorem kind_of_ne_timeline {e : SystemEvent F64} (finite : e.finite)
    (ok : ∃ u u', effect r e u = .ok u') (ht : e.aggregateType ≠ "Timeline") :
    Overwrites (effect r) (Good e.directory) e ∨ Updates (effect r) (Good e.directory) e ∨
      Removes (effect r) e := by
  have kind := effect_kind r e
  unfold Overwrites Updates Removes
  generalize effect r e = g at kind ok ⊢
  cases kind with
  | refused err =>
    obtain ⟨_, _, h⟩ := ok
    cases h
  | put x hd hr => exact .inl ⟨x, ⟨hd, hr finite⟩, fun _ => rfl⟩
  | change f hf =>
    refine .inr (.inl ⟨rfl, fun x hx => ?_⟩)
    obtain ⟨y, hy, hd, hr⟩ := hf x hx.1 hx.2
    exact ⟨y, ⟨hd, hr finite⟩, by simp only [hy, Except.map]⟩
  | remove err => exact .inr (.inr ⟨fun v h => (by cases h), fun _ => rfl⟩)
  | extend entry start ht' => exact absurd ht' ht

/-- The events on one file without a timeline entry, run again on their result. -/
theorem runAt_twice {es : List (SystemEvent F64)} (finite : ∀ e ∈ es, e.finite)
    (same : ∀ e ∈ es, ∀ e' ∈ es, e.directory = e'.directory)
    (ht : ∀ e ∈ es, e.aggregateType ≠ "Timeline") {w : Option Stored}
    (h : runAt (effect r) es none = .ok w) : runAt (effect r) es w = .ok w := by
  cases es with
  | nil => rfl
  | cons e es =>
    have ok := runAt_ok_mem (effect r) h
    have good : ∀ e' ∈ e :: es, Overwrites (effect r) (Good e.directory) e' ∨
        Updates (effect r) (Good e.directory) e' ∨ Removes (effect r) e' := by
      intro e' he'
      rw [same e List.mem_cons_self e' he']
      exact kind_of_ne_timeline (finite e' he') (ok e' he') (ht e' he')
    exact runAt_again good h

/-- The number of timeline entries in a file. -/
def entryCount : Option Stored → ℕ
  | some (.timeline t) => t.entries.length
  | _ => 0

/-- Timeline entries add up, from a file that holds a timeline or none. -/
theorem entryCount_runAt {es : List (SystemEvent F64)}
    (ht : ∀ e ∈ es, e.aggregateType = "Timeline") {v w : Option Stored}
    (h : runAt (effect r) es v = .ok w) : entryCount w = entryCount v + es.length := by
  induction es generalizing v with
  | nil =>
    cases h
    rfl
  | cons e es ih =>
    obtain ⟨u, hu, h⟩ := (runAt_cons_ok (effect r)).1 h
    have step : entryCount u = entryCount v + 1 := by
      rcases acts_timeline r (ht e List.mem_cons_self) with ⟨err, acts⟩ | ⟨entry, start, acts⟩
      · rw [effect_eq acts] at hu
        cases hu
      · rw [effect_eq acts] at hu
        cases v with
        | none =>
          cases hu
          rfl
        | some x =>
          cases x with
          | timeline t =>
            cases hu
            exact List.length_append
          | _ => cases hu
    rw [ih (fun e' he' => ht e' (List.mem_cons_of_mem _ he')) h, step, List.length_cons]
    omega

/-- Events projected twice in a row give the same files exactly when none adds a timeline entry. -/
theorem projectAll_twice_iff {es : List (SystemEvent F64)} (finite : ∀ e ∈ es, e.finite) {s : Vifs}
    (h : projectAll r es ∅ = .ok s) :
    projectAll r es s = .ok s ↔ ∀ e ∈ es, e.aggregateType ≠ "Timeline" := by
  rw [projectAll_eq, run_eq_ok_iff] at h ⊢
  constructor
  · intro again e he ht
    have files : ∀ e' ∈ es.filter (fun x => x.key r = e.key r), e'.aggregateType = "Timeline" := by
      intro e' he'
      rw [← ht]
      exact SystemEvent.aggregateType_of_key (of_decide_eq_true (List.mem_filter.1 he').2)
    have twice := entryCount_runAt files (again (e.key r))
    have none := List.length_eq_zero_iff.1 (by omega : (es.filter fun x => x.key r = e.key r).length = 0)
    have there : e ∈ es.filter fun x => x.key r = e.key r :=
      List.mem_filter.2 ⟨he, decide_eq_true rfl⟩
    rw [none] at there
    exact List.not_mem_nil there
  · intro ht k
    have first := h k
    rw [Finmap.lookup_empty] at first
    refine runAt_twice (fun e he => finite e (List.mem_filter.1 he).1) ?_
      (fun e he => ht e (List.mem_filter.1 he).1) first
    intro e he e' he'
    exact SystemEvent.directory_of_key ((of_decide_eq_true (List.mem_filter.1 he).2).trans
      (of_decide_eq_true (List.mem_filter.1 he').2).symm)

/-- The envelope adds a timeline entry and is read by a replay. -/
def AddsEntry (envelope : EventEnvelope) : Prop :=
  envelope.aggregateType ∈ aggTypes ∧
    ∃ e, SystemEvent.fromValue envelope.data = some e ∧ e.aggregateType = "Timeline"

/-- A log that replays into an empty filesystem replays again into the result, and leaves it as it
is, exactly when the replay adds no timeline entry. -/
theorem replay_twice_iff {envelopes : List EventEnvelope} {n : ℕ} {s : Vifs}
    (h : replayFromEventStore (fun _ => r) ∅ (.ofEnvelopes envelopes) = some (.ok n, s)) :
    (∃ m, replayFromEventStore (fun _ => r) s (.ofEnvelopes envelopes) = some (.ok m, s)) ↔
      ∀ env ∈ (InMemoryEventStore.ofEnvelopes envelopes).events, ¬ AddsEntry env := by
  have indexed := InMemoryEventStore.indexed_ofEnvelopes envelopes
  generalize InMemoryEventStore.ofEnvelopes envelopes = store at h indexed ⊢
  obtain ⟨es, hes, first, -⟩ := (replayFromEventStore_ok indexed).1 h
  have finite : ∀ e ∈ es, e.finite := fun e he => by
    obtain ⟨env, -, henv⟩ := (mem_decoded hes).1 he
    exact SystemEvent.finite_of_fromValue henv
  have entries : (∀ e ∈ es, e.aggregateType ≠ "Timeline") ↔
      ∀ env ∈ store.events, ¬ AddsEntry env := by
    constructor
    · rintro none env henv ⟨listed, e, he, ht⟩
      exact none e ((mem_decoded hes).2 ⟨env, mem_readBack.2 ⟨henv, listed⟩, he⟩) ht
    · intro none e he ht
      obtain ⟨env, henv, hd⟩ := (mem_decoded hes).1 he
      obtain ⟨hin, listed⟩ := mem_readBack.1 henv
      exact none env hin ⟨listed, e, hd, ht⟩
  rw [← entries, ← projectAll_twice_iff finite first]
  constructor
  · rintro ⟨m, hm⟩
    obtain ⟨es', hes', again, -⟩ := (replayFromEventStore_ok indexed).1 hm
    rw [hes] at hes'
    cases hes'
    exact again
  · exact fun again => ⟨_, (replayFromEventStore_ok indexed).2 ⟨es, hes, again, rfl⟩⟩

/-- The envelopes of the events without a timeline entry, and one that the store refuses. -/
def sampleEnvelopes : List EventEnvelope :=
  (sampleLog.zip [1, 1, 2, 2, 3]).map (fun (e, version) => e.intoEnvelope version (.ofNat 0) 0) ++
    [sampleService.intoEnvelope 1 (.ofNat 6) 6]

theorem replay_twice_service : ∃ s,
    replayFromEventStore (fun _ => frozen) ∅ (.ofEnvelopes sampleEnvelopes) = some (.ok 5, s) ∧
    ∃ m, replayFromEventStore (fun _ => frozen) s (.ofEnvelopes sampleEnvelopes) = some (.ok m, s) := by
  refine ⟨_, rfl, (replay_twice_iff rfl).2 ?_⟩
  rintro env henv ⟨-, e, he, ht⟩
  have read : ∀ env ∈ (InMemoryEventStore.ofEnvelopes sampleEnvelopes).events,
      ((SystemEvent.fromValue env.data).all fun e => e.aggregateType ≠ "Timeline") = true := by decide +kernel
  simpa [ht] using (Option.all_eq_true _ _).1 (read env henv) e he

/-- A second replay adds the entry a second time. -/
theorem replay_twice_entry : ∃ s,
    replayFromEventStore (fun _ => frozen) ∅
      (.ofEnvelopes [sampleEntry.intoEnvelope 1 (Ulid.ofNat 0) 0]) = some (.ok 1, s) ∧
    ¬ ∃ m, replayFromEventStore (fun _ => frozen) s
      (.ofEnvelopes [sampleEntry.intoEnvelope 1 (Ulid.ofNat 0) 0]) = some (.ok m, s) := by
  refine ⟨_, rfl, ?_⟩
  rintro ⟨m, hm⟩
  have read : readBack (.ofEnvelopes [sampleEntry.intoEnvelope 1 (Ulid.ofNat 0) 0]) aggTypes =
      [sampleEntry.intoEnvelope 1 (Ulid.ofNat 0) 0] := rfl
  obtain ⟨es, hes, again, -⟩ :=
    (replayFromEventStore_ok (InMemoryEventStore.indexed_ofEnvelopes _)).1 hm
  rw [read] at hes
  cases hes
  exact (projectAll_twice_iff (by decide) rfl).1 again sampleEntry List.mem_cons_self rfl

end Vifs

end TORdex
