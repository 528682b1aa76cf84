import TORdex.Vifs.Replay

/-!
# Replaying a log of projected events

A log of events that project one by one replays to the same files when every event has a type that a
replay reads, every required float is finite, and a finding whose confidence was set to a float that
is not finite is created anew afterwards.
-/

namespace TORdex

open KeyedStore

/-- The events were appended to an empty store in this order, under versions it accepted. -/
inductive Logged : List (SystemEvent F64) → InMemoryEventStore → Prop
  | nil : Logged [] .new
  | append {events : List (SystemEvent F64)} {store store' : InMemoryEventStore}
    (logged : Logged events store) (e : SystemEvent F64) (version : ℕ) (id : Ulid)
    (now : OffsetDateTime) (accepted : store.append (e.intoEnvelope version id now) = .ok store') :
    Logged (events ++ [e]) store'

namespace InMemoryEventStore

theorem append_ok {s s' : InMemoryEventStore} {event : EventEnvelope}
    (h : s.append event = .ok s') : s' = s.push event := by
  unfold append at h
  dsimp only at h
  split_ifs at h
  exact (Except.ok.inj h).symm

end InMemoryEventStore

theorem Logged.indexed {events : List (SystemEvent F64)} {store : InMemoryEventStore}
    (h : Logged events store) : store.Indexed := by
  induction h with
  | nil => exact InMemoryEventStore.indexed_new
  | append _ e version id now accepted ih =>
    rw [InMemoryEventStore.append_ok accepted]
    exact ih.push _

/-- What a replay looks at: the type and the payload of each envelope. -/
theorem Logged.payloads {events : List (SystemEvent F64)} {store : InMemoryEventStore}
    (h : Logged events store) :
    store.events.map (fun env => (env.aggregateType, env.data)) =
      events.map fun e => (e.aggregateType, e.toValue) := by
  induction h with
  | nil => rfl
  | append _ e version id now accepted ih =>
    rw [InMemoryEventStore.append_ok accepted, List.map_append, ← ih]
    simp [InMemoryEventStore.push, SystemEvent.intoEnvelope]

namespace SystemEvent

/-- The event sets the confidence of a finding to a float that is not finite. -/
def spoils : SystemEvent F64 → Bool
  | findingUpdated _ _ _ _ (some c) => !c.isFinite
  | _ => false

/-- The event creates a finding. -/
def isFindingCreated : SystemEvent F64 → Bool
  | findingCreated .. => true
  | _ => false

/-- The event creates the finding of the given ULID. -/
def createsFinding (u : Ulid) (e : SystemEvent F64) : Bool :=
  e.isFindingCreated && idOf e.aggregateId == u

end SystemEvent

/-- When a replay of the events gives what projecting them gives. -/
structure Replayable (events : List (SystemEvent F64)) : Prop where
  types : ∀ e ∈ events, e.aggregateType ∈ Vifs.aggTypes
  finite : ∀ e ∈ events, e.requiredFinite
  recreated : ∀ before e after, events = before ++ e :: after → e.spoils →
    (∃ c ∈ before, c.createsFinding (SystemEvent.idOf e.aggregateId)) →
    ∃ c ∈ after, c.createsFinding (SystemEvent.idOf e.aggregateId)

namespace Vifs

/-- The events in the order of a replay. -/
def grouped (events : List (SystemEvent F64)) : List (SystemEvent F64) :=
  aggTypes.flatMap fun t => events.filter fun e => e.aggregateType = t

theorem aggTypes_nodup : aggTypes.Nodup := by decide

theorem mapM_guard {α β : Type} {p : α → Bool} {f : α → β} (l : List α) :
    (l.mapM fun x => if p x then some (f x) else none) =
      if ∀ x ∈ l, p x then some (l.map f) else none := by
  induction l with
  | nil => rfl
  | cons x l ih =>
    rw [List.mapM_cons, ih]
    simp only [List.forall_mem_cons]
    by_cases hx : p x
    · by_cases hl : ∀ y ∈ l, p y
      · rw [if_pos hx, if_pos hl, if_pos ⟨hx, hl⟩]
        rfl
      · have some : ¬ (p x = true ∧ ∀ y ∈ l, p y = true) := fun h => hl h.2
        rw [if_pos hx, if_neg hl, if_neg some]
        rfl
    · have first : ¬ (p x = true ∧ ∀ y ∈ l, p y = true) := fun h => hx h.1
      rw [if_neg hx, if_neg first]
      rfl

/-- A replay of a log decodes the normalized events, if their required floats are finite. -/
theorem decoded_readBack {events : List (SystemEvent F64)} {store : InMemoryEventStore}
    (h : Logged events store) :
    decoded (readBack store aggTypes) =
      if ∀ e ∈ grouped events, e.requiredFinite then
        some ((grouped events).map SystemEvent.normalize)
      else none := by
  have pairs : (readBack store aggTypes).map (fun env => (env.aggregateType, env.data)) =
      (grouped events).map fun e => (e.aggregateType, e.toValue) := by
    unfold readBack grouped
    rw [List.map_flatMap, List.map_flatMap]
    refine List.flatMap_congr fun t _ => ?_
    have typed : ∀ {α : Type} (f : α → String × Value) (l : List α),
        (l.map f).filter (fun x => x.1 == t) = (l.filter fun x => (f x).1 == t).map f :=
      fun f l => List.filter_map
    have left := typed (fun env : EventEnvelope => (env.aggregateType, env.data)) store.events
    rw [h.payloads] at left
    exact left.symm.trans (typed (fun e : SystemEvent F64 => (e.aggregateType, e.toValue)) events)
  have payloads : (readBack store aggTypes).map (·.data) =
      (grouped events).map SystemEvent.toValue := by
    have := congrArg (List.map Prod.snd) pairs
    simpa only [List.map_map, Function.comp_def] using this
  have through : decoded (readBack store aggTypes) =
      ((readBack store aggTypes).map (·.data)).mapM SystemEvent.fromValue := by
    rw [List.mapM_map]
    rfl
  rw [through, payloads, List.mapM_map, ← mapM_guard]
  exact congrArg (fun f => List.mapM f (grouped events)) (funext SystemEvent.fromValue_toValue)

theorem grouped_map_normalize (events : List (SystemEvent F64)) :
    (grouped events).map SystemEvent.normalize = grouped (events.map SystemEvent.normalize) := by
  unfold grouped
  rw [List.map_flatMap]
  refine List.flatMap_congr fun t _ => ?_
  rw [List.filter_map]
  simp only [Function.comp_def, SystemEvent.aggregateType_normalize]

theorem mem_grouped {events : List (SystemEvent F64)} {e : SystemEvent F64} :
    e ∈ grouped events ↔ e ∈ events ∧ e.aggregateType ∈ aggTypes := by
  unfold grouped
  simp only [List.mem_flatMap, List.mem_filter, decide_eq_true_eq]
  constructor
  · rintro ⟨t, ht, he, rfl⟩
    exact ⟨he, ht⟩
  · rintro ⟨he, ht⟩
    exact ⟨_, ht, he, rfl⟩

theorem length_grouped_iff (events : List (SystemEvent F64)) :
    (grouped events).length = events.length ↔ ∀ e ∈ events, e.aggregateType ∈ aggTypes := by
  have count := length_groups SystemEvent.aggregateType aggTypes_nodup events
  unfold grouped
  rw [count, List.length_filter_eq_length_iff]
  simp only [decide_eq_true_eq]

/-! ## Findings -/

section Findings

variable {r : Readings}

/-- Only the confidences that JSON does not write tell an event from its normal form. -/
theorem effect_normalize {e : SystemEvent F64} (h : e.spoils = false) :
    effect r e.normalize = effect r e := by
  cases e with
  | findingUpdated id title description severity confidence =>
    cases confidence with
    | none => rfl
    | some c =>
      cases c with
      | finite d => rfl
      | infinite _ | nan => cases h
  | _ => rfl

theorem effect_findingUpdated {id : String} {u : Ulid} (hu : Ulid.fromString id = some u)
    (title description severity : Option String) (confidence : Option F64) :
    effect r (.findingUpdated id title description severity confidence) = fun
      | some x => (x.asFinding.bind fun f => .ok (.finding (Finding.toJson { f with
          title := title.getD f.title
          description := description.getD f.description
          severity := (severity.map parseSeverity).getD f.severity
          confidence := confidence.getD f.confidence }))).map some
      | none => .ok none := by
  have hk : (VifsPath.finding u).toKey = SystemEvent.key r
      (.findingUpdated id title description severity confidence) := key_object (by rfl) rfl hu
  refine effect_eq fun v => ?_
  have acts := actsAt_modify (hk.trans (key_eq r _)) (fun x => x.asFinding.bind fun f =>
    .ok (.finding (Finding.toJson { f with
      title := title.getD f.title
      description := description.getD f.description
      severity := (severity.map parseSeverity).getD f.severity
      confidence := confidence.getD f.confidence }))) v
  rw [← hk]
  refine Eq.trans ?_ acts
  simp only [projectEvent, parseId, hu]
  rfl

theorem effect_unparsed (r : Readings) {id : String} (hu : Ulid.fromString id = none)
    (title description severity : Option String) (confidence : Option F64) (x : Option Stored) :
    ∃ err, effect r (.findingUpdated id title description severity confidence) x = .error err := by
  unfold effect
  simp only [projectEvent, parseId, hu]
  exact ⟨_, rfl⟩

/-- An update that succeeds has an id that parses, and finds a confidence it can read. -/
theorem effect_findingUpdated_ok {id : String} {title description severity : Option String}
    {confidence : Option F64} {x w : Option Stored}
    (h : effect r (.findingUpdated id title description severity confidence) x = .ok w) :
    (x = none ∧ w = none) ∨ ∃ f g : Finding F64, x = some (.finding f.toJson) ∧
      f.confidence.isFinite ∧ g.confidence = confidence.getD f.confidence ∧
      w = some (.finding g.toJson) := by
  cases hu : Ulid.fromString id with
  | none =>
    obtain ⟨err, he⟩ := effect_unparsed r hu title description severity confidence x
    rw [he] at h
    cases h
  | some u =>
    rw [effect_findingUpdated hu] at h
    cases x with
    | none =>
      cases h
      exact .inl ⟨rfl, rfl⟩
    | some x =>
      refine .inr ?_
      obtain ⟨y, hy, rfl⟩ := map_eq_ok.1 h
      obtain ⟨f, hf, hy⟩ := bind_eq_ok.1 hy
      cases hy
      cases x with
      | finding g =>
        obtain ⟨id', iid, kind, t, d, s, c, ids, at', metadata⟩ := g
        cases c with
        | none => cases hf
        | some c =>
          cases hf
          exact ⟨_, _, rfl, rfl, rfl, rfl⟩
      | _ => cases hf

/-- Creating a finding overwrites its file. -/
theorem effect_findingCreated (r : Readings) {e : SystemEvent F64} (he : e.isFindingCreated) :
    (∃ err, effect r e = fun _ => .error err) ∨
      ∃ f, effect r e = fun _ => .ok (some (.finding f)) := by
  cases e with
  | findingCreated id iid kind title description severity confidence ids =>
    rcases parseId_cases "finding" id with ⟨u, hu, ok⟩ | ⟨err, bad⟩
    swap
    · exact .inl ⟨err, effect_eq fun v => by simp only [projectEvent, bad]; rfl⟩
    rcases parseId_cases "investigation" iid with ⟨w, -, ok'⟩ | ⟨err, bad⟩
    swap
    · exact .inl ⟨err, effect_eq fun v => by simp only [projectEvent, ok, bad]; rfl⟩
    have hk : (VifsPath.finding u).toKey = SystemEvent.key r
        (.findingCreated id iid kind title description severity confidence ids) :=
      key_object (by rfl) rfl hu
    let finding : Finding F64 := ⟨u, w, kind, title, description, parseSeverity severity,
      confidence, ids, r.now 0, ∅⟩
    refine .inr ⟨finding.toJson, effect_eq fun v => ?_⟩
    simp only [projectEvent, ok, ok', bind, Except.bind]
    rw [write_eq (hk.trans (key_eq r _)) v, hk]
    rfl
  | _ => cases he

theorem isFindingUpdated_of_spoils {e : SystemEvent F64} (h : e.spoils) :
    ∃ id title description severity c, e = .findingUpdated id title description severity (some c) ∧
      c.isFinite = false := by
  cases e with
  | findingUpdated id title description severity confidence =>
    cases confidence with
    | none => cases h
    | some c => exact ⟨id, title, description, severity, c, rfl, by simpa [SystemEvent.spoils] using h⟩
  | _ => cases h

/-- The events on the file of a finding. -/
theorem created_or_updated {e : SystemEvent F64} (h : e.directory = "findings") :
    e.isFindingCreated ∨ ∃ id title description severity confidence,
      e = .findingUpdated id title description severity confidence := by
  cases e with
  | findingCreated => exact .inl rfl
  | findingUpdated => exact .inr ⟨_, _, _, _, _, rfl⟩
  | _ => simp [SystemEvent.directory] at h

/-- A finding is there once it has been created: nothing deletes findings. -/
theorem isSome_iff_created {es : List (SystemEvent F64)} (hd : ∀ e ∈ es, e.directory = "findings")
    {w : Option Stored} (h : runAt (effect r) es none = .ok w) :
    w.isSome ↔ ∃ c ∈ es, c.isFindingCreated := by
  induction es using List.reverseRecOn generalizing w with
  | nil =>
    cases h
    simp
  | append_singleton es e ih =>
    obtain ⟨u, hu, h⟩ := (runAt_concat_ok (effect r)).1 h
    have before := ih (fun x hx => hd x (List.mem_append_left _ hx)) hu
    rcases created_or_updated (hd e (by simp)) with created | ⟨id, t, d, s, c, rfl⟩
    · rcases effect_findingCreated r created with ⟨err, he⟩ | ⟨f, he⟩
      · rw [he] at h
        cases h
      · rw [he] at h
        cases h
        exact iff_of_true rfl ⟨e, by simp, created⟩
    · have same : w.isSome = u.isSome := by
        rcases effect_findingUpdated_ok h with ⟨rfl, rfl⟩ | ⟨f, g, rfl, -, -, rfl⟩ <;> rfl
      rw [same, before]
      constructor
      · rintro ⟨c, hc, hcreated⟩
        exact ⟨c, List.mem_append_left _ hc, hcreated⟩
      · rintro ⟨c, hc, hcreated⟩
        rcases List.mem_append.1 hc with hc | hc
        · exact ⟨c, hc, hcreated⟩
        · rw [List.mem_singleton.1 hc] at hcreated
          cases hcreated

/-- The last event of the file spoils a finding that is there. -/
def Spoiled (es : List (SystemEvent F64)) : Prop :=
  ∃ before e, es = before ++ [e] ∧ e.spoils ∧ ∃ c ∈ before, c.isFindingCreated

/-- The projection holds a `null` confidence, the replay a number. -/
def Differ (w w' : Option Stored) : Prop :=
  ∃ f f', w = some (.finding f) ∧ f.confidence = none ∧ w' = some (.finding f') ∧
    f'.confidence.isSome

theorem spoiled_concat {es : List (SystemEvent F64)} {e : SystemEvent F64} :
    Spoiled (es ++ [e]) ↔ e.spoils ∧ ∃ c ∈ es, c.isFindingCreated := by
  constructor
  · rintro ⟨before, e', h, spoils, created⟩
    obtain ⟨rfl, he⟩ := List.append_inj' h rfl
    cases he
    exact ⟨spoils, created⟩
  · exact fun ⟨spoils, created⟩ => ⟨es, e, rfl, spoils, created⟩

/-- An unreadable finding cannot be updated. -/
theorem effect_unreadable {f : Finding (Option Decimal)} (hf : f.confidence = none) {id : String}
    {title description severity : Option String} {confidence : Option F64} {w : Option Stored} :
    effect r (.findingUpdated id title description severity confidence) (some (.finding f)) ≠
      .ok w := by
  intro h
  rcases effect_findingUpdated_ok h with ⟨h, -⟩ | ⟨g, _, hg, finite, -, -⟩
  · cases h
  · cases hg
    rw [← F64.toJson_isSome, show F64.toJson g.confidence = none from hf] at finite
    cases finite

/-- The update that spoils a finding, and its normal form, which does not. -/
theorem effect_spoils {id : String} {title description severity : Option String} {c : F64}
    (infinite : c.isFinite = false) {x w : Option Stored}
    (h : effect r (.findingUpdated id title description severity (some c)) x = .ok w) :
    ∃ w', effect r (.findingUpdated id title description severity none) x = .ok w' ∧
      ((x = none ∧ w = none ∧ w' = none) ∨ x.isSome ∧ Differ w w') := by
  cases hu : Ulid.fromString id with
  | none =>
    obtain ⟨err, he⟩ := effect_unparsed r hu title description severity (some c) x
    rw [he] at h
    cases h
  | some u =>
    rcases effect_findingUpdated_ok h with ⟨rfl, rfl⟩ | ⟨f, g, rfl, finite, hg, rfl⟩
    · exact ⟨none, by rw [effect_findingUpdated hu], .inl ⟨rfl, rfl, rfl⟩⟩
    · obtain ⟨id', iid, kind, t, d, s, confidence, ids, at', metadata⟩ := f
      cases confidence with
      | finite d =>
        refine ⟨_, by rw [effect_findingUpdated hu]; rfl, .inr ⟨rfl, _, _, rfl, ?_, rfl, rfl⟩⟩
        show F64.toJson g.confidence = none
        rw [hg, Option.getD_some]
        cases c with
        | finite _ => cases infinite
        | infinite _ | nan => rfl
      | infinite _ | nan => cases finite

/-- On one file, the replay keeps step with the projection, except after a spoiled finding. -/
theorem runAt_normalize {es : List (SystemEvent F64)}
    (same : ∀ e ∈ es, ∀ e' ∈ es, e.directory = e'.directory) {w : Option Stored}
    (h : runAt (effect r) es none = .ok w) :
    ∃ w', runAt (effect r) (es.map SystemEvent.normalize) none = .ok w' ∧
      ((w' = w ∧ ¬ Spoiled es) ∨ (Differ w w' ∧ Spoiled es)) := by
  induction es using List.reverseRecOn generalizing w with
  | nil =>
    cases h
    refine ⟨none, rfl, .inl ⟨rfl, ?_⟩⟩
    rintro ⟨before, e, h, -⟩
    simp at h
  | append_singleton es e ih =>
    obtain ⟨u, hu, hw⟩ := (runAt_concat_ok (effect r)).1 h
    obtain ⟨u', hu', state⟩ :=
      ih (fun x hx y hy => same x (List.mem_append_left _ hx) y (List.mem_append_left _ hy)) hu
    have next : ∀ w', effect r e.normalize u' = .ok w' →
        runAt (effect r) ((es ++ [e]).map SystemEvent.normalize) none = .ok w' := by
      intro w' hw'
      rw [List.map_append, List.map_singleton]
      exact (runAt_concat_ok (effect r)).2 ⟨u', hu', hw'⟩
    rw [spoiled_concat]
    cases hs : e.spoils with
    | false =>
      rcases state with ⟨rfl, -⟩ | ⟨⟨f, f', rfl, hf, rfl, -⟩, before, e₀, rfl, spoils, -⟩
      · exact ⟨w, next w (by rw [effect_normalize hs]; exact hw), .inl ⟨rfl, by simp⟩⟩
      · -- the finding cannot be read, so the event creates it anew
        obtain ⟨_, _, _, _, _, he₀, -⟩ := isFindingUpdated_of_spoils spoils
        have findings : e.directory = "findings" :=
          (same e (by simp) e₀ (by simp)).trans (by rw [he₀]; rfl)
        rcases created_or_updated findings with created | ⟨id, t, d, s, c, rfl⟩
        · rcases effect_findingCreated r created with ⟨err, he⟩ | ⟨g, he⟩
          · rw [he] at hw
            cases hw
          · rw [he] at hw
            exact ⟨w, next w (by rw [effect_normalize hs, he]; exact hw), .inl ⟨rfl, by simp⟩⟩
        · exact absurd hw (effect_unreadable hf)
    | true =>
      obtain ⟨id, t, d, s, c, rfl, infinite⟩ := isFindingUpdated_of_spoils hs
      have findings : ∀ x ∈ es, x.directory = "findings" := fun x hx =>
        same x (List.mem_append_left _ hx) _ (List.mem_append_right _ (List.mem_singleton_self _))
      have normal : SystemEvent.normalize (.findingUpdated id t d s (some c)) =
          .findingUpdated id t d s none := by
        simp [SystemEvent.normalize, infinite]
      rcases state with ⟨rfl, -⟩ | ⟨⟨f, f', rfl, hf, -⟩, -⟩
      · have there := isSome_iff_created findings hu
        obtain ⟨w', hw', ends⟩ := effect_spoils infinite hw
        refine ⟨w', next w' (by rw [normal]; exact hw'), ?_⟩
        rcases ends with ⟨rfl, rfl, rfl⟩ | ⟨hsome, differ⟩
        · exact .inl ⟨rfl, fun h => by simpa using there.2 h.2⟩
        · exact .inr ⟨differ, rfl, there.1 hsome⟩
      · exact absurd hw (effect_unreadable hf)

theorem Differ.ne {w w' : Option Stored} (h : Differ w w') : w ≠ w' := by
  obtain ⟨f, f', rfl, hf, rfl, hf'⟩ := h
  intro he
  cases he
  rw [hf] at hf'
  cases hf'

end Findings

/-! ## Whole logs -/

section Logs

variable {r : Readings} {events : List (SystemEvent F64)} {s : Vifs}

theorem mem_filter_key {k : String} {es : List (SystemEvent F64)} {e : SystemEvent F64} :
    e ∈ es.filter (fun x => x.key r = k) ↔ e ∈ es ∧ e.key r = k := by
  simp only [List.mem_filter, decide_eq_true_eq]

theorem same_directory (r : Readings) (k : String) (es : List (SystemEvent F64)) :
    ∀ e ∈ es.filter (fun x => x.key r = k), ∀ e' ∈ es.filter (fun x => x.key r = k),
      e.directory = e'.directory := fun _ he _ he' =>
  SystemEvent.directory_of_key ((mem_filter_key.1 he).2.trans (mem_filter_key.1 he').2.symm)

/-- The events that create the finding an update is about: those on its file. -/
theorem createsFinding_iff (r : Readings) {e c : SystemEvent F64} (he : e.directory = "findings") :
    c.createsFinding (SystemEvent.idOf e.aggregateId) ↔ c.isFindingCreated ∧ c.key r = e.key r := by
  unfold SystemEvent.createsFinding
  rw [Bool.and_eq_true, beq_iff_eq]
  refine and_congr_right fun hc => ?_
  have own : ∀ x : SystemEvent F64, x.directory = "findings" →
      x.key r = "vifs/findings/" ++ (SystemEvent.idOf x.aggregateId).toString := by
    intro x hx
    cases x with
    | findingCreated | findingUpdated => rfl
    | _ => simp [SystemEvent.directory] at hx
  have hcd : c.directory = "findings" := by
    cases c with
    | findingCreated => rfl
    | _ => cases hc
  rw [own c hcd, own e he]
  constructor
  · intro h
    rw [h]
  · intro h
    have chars := congrArg String.toList h
    rw [String.toList_append, String.toList_append, List.append_cancel_left_eq] at chars
    exact Ulid.toString_injective (String.toList_injective chars)

theorem directory_of_spoils {e : SystemEvent F64} (h : e.spoils) : e.directory = "findings" := by
  obtain ⟨_, _, _, _, _, rfl, -⟩ := isFindingUpdated_of_spoils h
  rfl

/-- A file is spoiled at the end of the log when its finding is not created anew. -/
theorem spoiled_iff (h : run (SystemEvent.key r) (effect r) events ∅ = .ok s) :
    (∃ k, Spoiled (events.filter fun e => e.key r = k)) ↔
      ∃ before e after, events = before ++ e :: after ∧ e.spoils ∧
        (∃ c ∈ before, c.createsFinding (SystemEvent.idOf e.aggregateId)) ∧
        ¬ ∃ c ∈ after, c.createsFinding (SystemEvent.idOf e.aggregateId) := by
  constructor
  · rintro ⟨k, pre, e, hf, spoils, c, hc, created⟩
    obtain ⟨l₁, l₂, rfl, rfl, hf₂⟩ := List.filter_eq_append_iff.1 hf
    obtain ⟨a, b, rfl, -, he, hb⟩ := List.filter_eq_cons_iff.1 hf₂
    have findings := directory_of_spoils spoils
    have hk : e.key r = k := of_decide_eq_true he
    refine ⟨l₁ ++ a, e, b, by rw [List.append_assoc], spoils, ⟨c, ?_, ?_⟩, ?_⟩
    · exact List.mem_append_left _ (mem_filter_key.1 hc).1
    · exact (createsFinding_iff r findings).2 ⟨created, (mem_filter_key.1 hc).2.trans hk.symm⟩
    · rintro ⟨c', hc', again⟩
      have own := ((createsFinding_iff r findings).1 again).2
      have there : c' ∈ b.filter fun x => x.key r = k := mem_filter_key.2 ⟨hc', own.trans hk⟩
      rw [hb] at there
      exact List.not_mem_nil there
  · rintro ⟨before, e, after, rfl, spoils, ⟨c, hc, created⟩, last⟩
    have findings := directory_of_spoils spoils
    obtain ⟨created, own⟩ := (createsFinding_iff r findings).1 created
    have whole : (before ++ e :: after).filter (fun x => x.key r = e.key r) =
        before.filter (fun x => x.key r = e.key r) ++
          e :: after.filter fun x => x.key r = e.key r := by
      simp
    refine ⟨e.key r, ?_⟩
    have spoiled : Spoiled (before.filter (fun x => x.key r = e.key r) ++ [e]) :=
      ⟨_, e, rfl, spoils, c, mem_filter_key.2 ⟨hc, own⟩, created⟩
    rw [whole]
    cases hafter : after.filter fun x => x.key r = e.key r with
    | nil => exact spoiled
    | cons x rest =>
      -- the next event on the file would have to read the finding
      have hx := mem_filter_key.1 (hafter ▸ List.mem_cons_self : x ∈ after.filter _)
      have file := (run_eq_ok_iff _ _).1 h (e.key r)
      have split : before.filter (fun x => x.key r = e.key r) ++ e :: x :: rest =
          before.filter (fun x => x.key r = e.key r) ++ [e] ++ x :: rest := by simp
      rw [whole, hafter, split, Finmap.lookup_empty] at file
      obtain ⟨u, hu, file⟩ := (runAt_append_ok (effect r)).1 file
      obtain ⟨w, hw, -⟩ := (runAt_cons_ok (effect r)).1 file
      have same : ∀ y ∈ before.filter (fun x => x.key r = e.key r) ++ [e],
          ∀ y' ∈ before.filter (fun x => x.key r = e.key r) ++ [e],
            y.directory = y'.directory := by
        have all := same_directory r (e.key r) (before ++ e :: after)
        rw [whole] at all
        refine fun y hy y' hy' => all y ?_ y' ?_
        · rcases List.mem_append.1 hy with hy | hy
          · exact List.mem_append_left _ hy
          · rw [List.mem_singleton.1 hy]
            exact List.mem_append_right _ List.mem_cons_self
        · rcases List.mem_append.1 hy' with hy' | hy'
          · exact List.mem_append_left _ hy'
          · rw [List.mem_singleton.1 hy']
            exact List.mem_append_right _ List.mem_cons_self
      obtain ⟨u', -, ⟨-, clean⟩ | ⟨⟨f, f', rfl, hf, -⟩, -⟩⟩ := runAt_normalize same hu
      · exact absurd spoiled clean
      · have hxd : x.directory = "findings" :=
          (SystemEvent.directory_of_key hx.2).trans findings
        rcases created_or_updated hxd with created' | ⟨id, t, d, s', c', rfl⟩
        · exact absurd ⟨x, hx.1, (createsFinding_iff r findings).2 ⟨created', hx.2⟩⟩ last
        · exact absurd hw (effect_unreadable hf)

/-- Projecting the normal forms gives the same files exactly when no file ends up spoiled. -/
theorem run_normalize_iff (h : run (SystemEvent.key r) (effect r) events ∅ = .ok s) :
    run (SystemEvent.key r) (effect r) (events.map SystemEvent.normalize) ∅ = .ok s ↔
      ¬ ∃ k, Spoiled (events.filter fun e => e.key r = k) := by
  have files := (run_eq_ok_iff _ _).1 h
  rw [run_eq_ok_iff]
  have normal : ∀ k, (events.map SystemEvent.normalize).filter (fun e => e.key r = k) =
      (events.filter fun e => e.key r = k).map SystemEvent.normalize := by
    intro k
    rw [List.filter_map]
    simp only [Function.comp_def, SystemEvent.key_normalize]
  push Not
  refine forall_congr' fun k => ?_
  rw [normal, Finmap.lookup_empty]
  obtain ⟨w', hw', ⟨rfl, clean⟩ | ⟨differ, spoiled⟩⟩ :=
    runAt_normalize (same_directory r k events) (files k)
  · exact iff_of_true hw' clean
  · refine iff_of_false (fun hw => differ.ne ?_) (fun clean => clean spoiled)
    rw [hw] at hw'
    exact Except.ok.inj hw'

/-- A log of events that project one by one is rebuilt by a replay exactly when it is replayable. -/
theorem replay_rebuilds_iff {store : InMemoryEventStore} (h : Logged events store)
    (hp : projectAll r events ∅ = .ok s) :
    replayFromEventStore (fun _ => r) ∅ store = some (.ok events.length, s) ↔
      Replayable events := by
  rw [projectAll_eq] at hp
  have regroup : (∀ e ∈ events, e.aggregateType ∈ aggTypes) →
      (projectAll r ((grouped events).map SystemEvent.normalize) ∅ = .ok s ↔
        ¬ ∃ k, Spoiled (events.filter fun e => e.key r = k)) := by
    intro types
    rw [← run_normalize_iff hp, grouped_map_normalize, projectAll_eq]
    refine run_groups _ _ SystemEvent.aggregateType aggTypes_nodup ?_ ?_
    · intro e he
      obtain ⟨e', he', rfl⟩ := List.mem_map.1 he
      rw [SystemEvent.aggregateType_normalize]
      exact types e' he'
    · exact fun e _ e' _ hk => SystemEvent.aggregateType_of_key hk
  rw [replayFromEventStore_ok h.indexed, decoded_readBack h]
  constructor
  · rintro ⟨es, hes, hall, hn⟩
    split_ifs at hes with finite
    cases hes
    rw [List.length_map] at hn
    have types := (length_grouped_iff events).1 hn.symm
    refine ⟨types, fun e he => finite e (mem_grouped.2 ⟨he, types e he⟩), ?_⟩
    have clean := (regroup types).1 hall
    rw [spoiled_iff hp] at clean
    intro before e after split spoils created
    by_contra last
    exact clean ⟨before, e, after, split, spoils, created, last⟩
  · rintro ⟨types, finite, recreated⟩
    rw [if_pos fun e he => finite e (mem_grouped.1 he).1]
    refine ⟨_, rfl, (regroup types).2 ?_, ?_⟩
    · rw [spoiled_iff hp]
      rintro ⟨before, e, after, split, spoils, created, last⟩
      exact last (recreated before e after split spoils created)
    · rw [List.length_map, (length_grouped_iff events).2 types]

end Logs

theorem logged_singleton (e : SystemEvent F64) :
    Logged [e] (InMemoryEventStore.new.push (e.intoEnvelope 1 (Ulid.ofNat 0) 0)) :=
  .append .nil e 1 (Ulid.ofNat 0) 0 rfl

theorem logged_sampleLog : ∃ store, Logged (sampleLog ++ [sampleEntry]) store :=
  ⟨_, .append (.append (.append (.append (.append (.append .nil sampleService 1 (.ofNat 0) 0 rfl)
    (sampleFinding "port") 1 (.ofNat 1) 1 rfl) (.serviceUpdated _ _ _ _) 2 (.ofNat 2) 2 rfl)
    sampleSpoiled 2 (.ofNat 3) 3 rfl) (sampleFinding "closed port") 3 (.ofNat 4) 4 rfl) sampleEntry 1 (.ofNat 5) 5 rfl⟩

/-- The finding whose confidence was lost is created anew, so the log is replayed as it was projected. -/
theorem replay_rebuilds_service : ∃ store s, Logged (sampleLog ++ [sampleEntry]) store ∧
    projectAll frozen (sampleLog ++ [sampleEntry]) ∅ = .ok s ∧
    replayFromEventStore (fun _ => frozen) ∅ store = some (.ok 6, s) := by
  have replayable : Replayable (sampleLog ++ [sampleEntry]) := by
    refine ⟨by decide, by decide, fun before e after split spoils _ => ?_⟩
    simp only [sampleLog, List.cons_append, List.nil_append] at split
    rcases before with - | ⟨_, - | ⟨_, - | ⟨_, - | ⟨_, later⟩⟩⟩⟩
    · cases split
      cases spoils
    · cases split
      cases spoils
    · cases split
      cases spoils
    · cases split
      exact ⟨sampleFinding "closed port", List.mem_cons_self, by decide⟩
    · simp only [List.cons_append, List.cons.injEq] at split
      have mem : e ∈ [sampleFinding "closed port", sampleEntry] :=
        split.2.2.2.2 ▸ List.mem_append_right later List.mem_cons_self
      rcases List.mem_pair.1 mem with rfl | rfl <;> cases spoils
  obtain ⟨store, logged⟩ := logged_sampleLog
  exact ⟨store, _, logged, rfl, (replay_rebuilds_iff logged rfl).2 replayable⟩

/-- An agent is started. -/
def sampleAgent : SystemEvent F64 := .agentStarted "a1" "crawler" "collector" "1.0"

/-- An agent event projects, and a replay skips it. -/
theorem replay_skips_agent : ∃ store s, Logged [sampleAgent] store ∧
    projectAll frozen [sampleAgent] ∅ = .ok s ∧
    replayFromEventStore (fun _ => frozen) ∅ store ≠ some (.ok 1, s) := by
  refine ⟨_, _, logged_singleton _, rfl, ?_⟩
  rw [Ne, replayFromEventStore_ok (logged_singleton sampleAgent).indexed]
  rintro ⟨es, hes, -, hn⟩
  have none : readBack (InMemoryEventStore.new.push (sampleAgent.intoEnvelope 1 (Ulid.ofNat 0) 0)) aggTypes =
      [] := rfl
  rw [none] at hes
  cases hes
  cases hn

end Vifs

end TORdex
