import TORdex.Vifs.Effects

/-!
# Replay and projection

A replay reads the log back one aggregate type after the other.  Events on one file have one type, so
the grouping is invisible (`run_groups`); what a replay loses is the types it does not read and the
floats that JSON does not write.
-/

namespace TORdex

open KeyedStore

namespace Vifs

/-- Project events one by one, every projection with the same readings. -/
def projectAll (r : Readings) : List (SystemEvent F64) → Vifs → Except VifsError Vifs
  | [], v => .ok v
  | e :: events, v => (projectEvent r v e).bind (projectAll r events)

theorem projectAll_eq (r : Readings) (events : List (SystemEvent F64)) (v : Vifs) :
    projectAll r events v = run (SystemEvent.key r) (effect r) events v := by
  induction events generalizing v with
  | nil => rfl
  | cons e events ih =>
    simp only [projectAll, run, projectEvent_eq]
    exact congrArg _ (funext ih)

/-! ## What a replay projects -/

/-- The events of some envelopes; `none` when one of them does not decode. -/
def decoded (envelopes : List EventEnvelope) : Option (List (SystemEvent F64)) :=
  envelopes.mapM fun envelope => SystemEvent.fromValue envelope.data

/-- The envelopes a replay reads, in its order. -/
def readBack (store : InMemoryEventStore) (types : List String) : List EventEnvelope :=
  types.flatMap fun t => store.events.filter (InMemoryEventStore.ofType t)

theorem decoded_append_eq_some {envs envs' : List EventEnvelope} {es : List (SystemEvent F64)} :
    decoded (envs ++ envs') = some es ↔
      ∃ a b, decoded envs = some a ∧ decoded envs' = some b ∧ es = a ++ b := by
  unfold decoded
  rw [List.mapM_append]
  simp only [bind, Option.bind_eq_some_iff, pure, Option.some.injEq]
  constructor
  · rintro ⟨a, ha, b, hb, rfl⟩
    exact ⟨a, b, ha, hb, rfl⟩
  · rintro ⟨a, b, ha, hb, rfl⟩
    exact ⟨a, ha, b, hb, rfl⟩

theorem decoded_cons_eq_some {env : EventEnvelope} {envs : List EventEnvelope}
    {es : List (SystemEvent F64)} :
    decoded (env :: envs) = some es ↔
      ∃ e es', SystemEvent.fromValue env.data = some e ∧ decoded envs = some es' ∧
        es = e :: es' := by
  unfold decoded
  rw [List.mapM_cons]
  simp only [bind, Option.bind_eq_some_iff, pure, Option.some.injEq]
  constructor
  · rintro ⟨a, ha, b, hb, rfl⟩
    exact ⟨a, b, ha, hb, rfl⟩
  · rintro ⟨a, b, ha, hb, rfl⟩
    exact ⟨a, ha, b, hb, rfl⟩

theorem mem_decoded {envs : List EventEnvelope} {es : List (SystemEvent F64)}
    (h : decoded envs = some es) {e : SystemEvent F64} :
    e ∈ es ↔ ∃ env ∈ envs, SystemEvent.fromValue env.data = some e := by
  induction envs generalizing es with
  | nil =>
    cases h
    simp
  | cons env envs ih =>
    obtain ⟨e', es', he', hes', rfl⟩ := decoded_cons_eq_some.1 h
    rw [List.mem_cons, ih hes', List.exists_mem_cons_iff, he', Option.some.injEq,
      @eq_comm _ e' e]

theorem mem_readBack {store : InMemoryEventStore} {types : List String}
    {envelope : EventEnvelope} :
    envelope ∈ readBack store types ↔
      envelope ∈ store.events ∧ envelope.aggregateType ∈ types := by
  unfold readBack InMemoryEventStore.ofType
  simp only [List.mem_flatMap, List.mem_filter, beq_iff_eq]
  constructor
  · rintro ⟨t, ht, hm, rfl⟩
    exact ⟨hm, ht⟩
  · rintro ⟨hm, ht⟩
    exact ⟨_, ht, hm, rfl⟩

/-- Project events one by one, the `i`-th of them with the readings `rs (k + i)`. -/
def projectFrom (rs : ℕ → Readings) : ℕ → List (SystemEvent F64) → Vifs → Except VifsError Vifs
  | _, [], v => .ok v
  | k, e :: events, v => (projectEvent (rs k) v e).bind (projectFrom rs (k + 1) events)

theorem projectFrom_append (rs : ℕ → Readings) (k : ℕ) (events events' : List (SystemEvent F64))
    (v : Vifs) :
    projectFrom rs k (events ++ events') v =
      (projectFrom rs k events v).bind (projectFrom rs (k + events.length) events') := by
  induction events generalizing k v with
  | nil => rfl
  | cons e events ih =>
    have next : k + (e :: events).length = k + 1 + events.length := by
      rw [List.length_cons]
      omega
    simp only [List.cons_append, projectFrom, next]
    cases projectEvent (rs k) v e with
    | error err => rfl
    | ok v₁ => exact ih (k + 1) v₁

theorem projectFrom_const (r : Readings) (k : ℕ) (events : List (SystemEvent F64)) (v : Vifs) :
    projectFrom (fun _ => r) k events v = projectAll r events v := by
  induction events generalizing k v with
  | nil => rfl
  | cons e events ih => exact congrArg _ (funext (ih (k + 1)))

variable {rs : ℕ → Readings}

theorem replayEvents_ok {envs : List EventEnvelope} {total n : ℕ} {v v' : Vifs} :
    replayEvents rs envs total v = (.ok n, v') ↔
      ∃ es, decoded envs = some es ∧ projectFrom rs total es v = .ok v' ∧
        n = total + es.length := by
  induction envs generalizing total v with
  | nil =>
    simp only [replayEvents, Prod.mk.injEq, Except.ok.injEq]
    constructor
    · rintro ⟨rfl, rfl⟩
      exact ⟨[], rfl, rfl, rfl⟩
    · rintro ⟨es, hd, hp, rfl⟩
      cases hd
      cases hp
      exact ⟨rfl, rfl⟩
  | cons env envs ih =>
    unfold replayEvents
    cases hd : SystemEvent.fromValue env.data with
    | none =>
      refine iff_of_false (fun h => by cases congrArg Prod.fst h) ?_
      rintro ⟨es, hes, -⟩
      obtain ⟨e, es', he, -⟩ := decoded_cons_eq_some.1 hes
      rw [hd] at he
      cases he
    | some e =>
      dsimp only
      cases hp : projectEvent (rs total) v e with
      | error err =>
        refine iff_of_false (fun h => by cases congrArg Prod.fst h) ?_
        rintro ⟨es, hes, hall, -⟩
        obtain ⟨e', es', he, -, rfl⟩ := decoded_cons_eq_some.1 hes
        rw [hd] at he
        cases he
        rw [projectFrom, hp] at hall
        cases hall
      | ok v₁ =>
        dsimp only
        rw [ih]
        constructor
        · rintro ⟨es, hes, hall, rfl⟩
          refine ⟨e :: es, decoded_cons_eq_some.2 ⟨e, es, hd, hes, rfl⟩, ?_, ?_⟩
          · rw [projectFrom, hp]
            exact hall
          · rw [List.length_cons]
            omega
        · rintro ⟨es, hes, hall, rfl⟩
          obtain ⟨e', es', he, hes', rfl⟩ := decoded_cons_eq_some.1 hes
          rw [hd] at he
          cases he
          rw [projectFrom, hp] at hall
          refine ⟨es', hes', hall, ?_⟩
          rw [List.length_cons]
          omega

theorem replayTypes_ok {store : InMemoryEventStore} (hi : store.Indexed) {types : List String}
    {total n : ℕ} {v v' : Vifs} :
    replayTypes rs store types total v = some (.ok n, v') ↔
      ∃ es, decoded (readBack store types) = some es ∧ projectFrom rs total es v = .ok v' ∧
        n = total + es.length := by
  induction types generalizing total v with
  | nil =>
    have none : replayEvents rs [] total v = (.ok n, v') ↔ _ := replayEvents_ok
    rw [replayTypes, Option.some.injEq]
    exact none
  | cons t types ih =>
    simp only [replayTypes, InMemoryEventStore.readAll_eq hi]
    have split : readBack store (t :: types) =
        store.events.filter (InMemoryEventStore.ofType t) ++ readBack store types :=
      List.flatMap_cons
    rw [split]
    rcases hp : replayEvents rs (store.events.filter (InMemoryEventStore.ofType t)) total v
      with ⟨err | total', v₁⟩
    · refine iff_of_false (fun h => by cases congrArg Prod.fst (Option.some.inj h)) ?_
      rintro ⟨es, hes, hall, rfl⟩
      obtain ⟨a, b, ha, -, rfl⟩ := decoded_append_eq_some.1 hes
      rw [projectFrom_append] at hall
      obtain ⟨v₂, hv₂, -⟩ := bind_eq_ok.1 hall
      have done : replayEvents rs (store.events.filter (InMemoryEventStore.ofType t))
          total v = (.ok (total + a.length), v₂) := replayEvents_ok.2 ⟨a, ha, hv₂, rfl⟩
      rw [hp] at done
      cases congrArg Prod.fst done
    · obtain ⟨a, ha, hall₁, rfl⟩ := replayEvents_ok.1 hp
      dsimp only
      rw [ih]
      constructor
      · rintro ⟨b, hb, hall, rfl⟩
        refine ⟨a ++ b, decoded_append_eq_some.2 ⟨a, b, ha, hb, rfl⟩, ?_, ?_⟩
        · rw [projectFrom_append, hall₁]
          exact hall
        · rw [List.length_append, Nat.add_assoc]
      · rintro ⟨es, hes, hall, rfl⟩
        obtain ⟨a', b, ha', hb, rfl⟩ := decoded_append_eq_some.1 hes
        rw [ha] at ha'
        cases ha'
        rw [projectFrom_append, hall₁] at hall
        exact ⟨b, hb, hall, by rw [List.length_append, Nat.add_assoc]⟩

/-- A replay succeeds when everything it reads decodes and projects. -/
theorem replayFromEventStore_eq_ok {store : InMemoryEventStore} (hi : store.Indexed) {n : ℕ}
    {v v' : Vifs} :
    replayFromEventStore rs v store = some (.ok n, v') ↔
      ∃ es, decoded (readBack store aggTypes) = some es ∧ projectFrom rs 0 es v = .ok v' ∧
        n = es.length := by
  unfold replayFromEventStore
  rw [replayTypes_ok hi]
  simp only [Nat.zero_add]

/-- The same for a clock that stands still. -/
theorem replayFromEventStore_ok {r : Readings} {store : InMemoryEventStore} (hi : store.Indexed)
    {n : ℕ} {v v' : Vifs} :
    replayFromEventStore (fun _ => r) v store = some (.ok n, v') ↔
      ∃ es, decoded (readBack store aggTypes) = some es ∧ projectAll r es v = .ok v' ∧
        n = es.length := by
  rw [replayFromEventStore_eq_ok hi]
  simp only [projectFrom_const]

/-- The same reading at every moment. -/
def frozen : Readings := ⟨fun _ => 0, fun _ => Ulid.ofNat 0⟩

/-- A service is registered. -/
def sampleService : SystemEvent F64 :=
  .serviceRegistered "01ARZ3NDEKTSV4RRFFQ69G5FAV" "dns" "collection" "example.com" "active" none

/-- A finding of that title is created. -/
def sampleFinding (title : String) : SystemEvent F64 :=
  .findingCreated "01ARZ3NDEKTSV4RRFFQ69G5FAW" "01ARZ3NDEKTSV4RRFFQ69G5FAX" "exposure" title "an open port" "high"
    (.finite ⟨false, 5, -1⟩) []

/-- The confidence of the finding becomes `NaN`. -/
def sampleSpoiled : SystemEvent F64 :=
  .findingUpdated "01ARZ3NDEKTSV4RRFFQ69G5FAW" none none (some "low") (some .nan)

/-- An entry is added to the timeline of the finding's investigation. -/
def sampleEntry : SystemEvent F64 :=
  .timelineEntryAdded "01ARZ3NDEKTSV4RRFFQ69G5FAY" "01ARZ3NDEKTSV4RRFFQ69G5FAX" 0 "observation" "o1" "first seen"

/-- A service is registered and updated, and a finding is created, updated and created anew. -/
def sampleLog : List (SystemEvent F64) :=
  [sampleService, sampleFinding "port", .serviceUpdated "01ARZ3NDEKTSV4RRFFQ69G5FAV" none (some "down") none,
    sampleSpoiled, sampleFinding "closed port"]

end Vifs

end TORdex
