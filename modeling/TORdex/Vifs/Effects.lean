import TORdex.Vifs.Filesystem
import TORdex.Lib.KeyedStore

/-!
# One event, one file

Every event reads and writes a single file, whose key is `key r e`.  `projectEvent_eq` makes the
projection an instance of a keyed store; `effect_cases` says what an event does to its file.
-/

namespace TORdex

open KeyedStore

/-! ## Keys -/

namespace SystemEvent

/-- The top-level directory of the event's file. -/
def directory {φ : Type} : SystemEvent φ → String
  | entityCreated .. | entityUpdated .. | entityDeleted .. => "entities"
  | observationRecorded .. => "observations"
  | artifactStored .. | artifactDeleted .. => "artifacts"
  | evidenceExtracted .. => "evidence"
  | relationshipEstablished .. | relationshipDeleted .. => "relationships"
  | knowledgeProduced .. => "knowledge"
  | findingCreated .. | findingUpdated .. => "findings"
  | decisionMade .. | decisionExecuted .. => "decisions"
  | serviceRegistered .. | serviceUpdated .. | serviceDeleted .. => "services"
  | investigationOpened .. | investigationClosed .. | investigationArchived .. => "investigations"
  | timelineEntryAdded .. => "timelines"
  | agentStarted .. | agentStopped .. | agentHeartbeat .. => "agents"
  | monitoringChangeDetected .. => "monitoring"

/-- The ULID of an id; ids that do not parse share one. -/
def idOf (id : String) : Ulid := (Ulid.fromString id).getD (Ulid.ofNat 0)

/-- The event's file within its directory. -/
def fileName (r : Readings) : SystemEvent F64 → String
  | agentStarted id .. | agentStopped id .. => id
  | agentHeartbeat id .. => id ++ "/heartbeats/" ++ (r.ulid 0).toString
  | monitoringChangeDetected id .. => "changes/" ++ id
  | e => (idOf e.aggregateId).toString

/-- The storage key of the event's file. -/
def key (r : Readings) (e : SystemEvent F64) : String :=
  "vifs/" ++ e.directory ++ "/" ++ e.fileName r

theorem slash_notMem_directory {φ : Type} (e : SystemEvent φ) : '/' ∉ e.directory.toList := by
  cases e <;> (dsimp only [directory]; decide)

theorem takeWhile_slash {d x : List Char} (h : '/' ∉ d) :
    (d ++ '/' :: x).takeWhile (· ≠ '/') = d := by
  have all : ∀ c ∈ d, decide (c ≠ '/') = true := by
    intro c hc
    simpa using ne_of_mem_of_not_mem hc h
  rw [List.takeWhile_append_of_pos all]
  simp

/-- Events on one file belong to one directory. -/
theorem directory_of_key {r r' : Readings} {e e' : SystemEvent F64} (h : e.key r = e'.key r') :
    e.directory = e'.directory := by
  have chars := congrArg String.toList h
  simp only [key, String.toList_append, List.append_assoc, List.append_cancel_left_eq] at chars
  have slash : "/".toList = ['/'] := rfl
  rw [slash, List.cons_append, List.nil_append, List.cons_append, List.nil_append] at chars
  have prefixes := congrArg (List.takeWhile (· ≠ '/')) chars
  rw [takeWhile_slash (slash_notMem_directory e), takeWhile_slash (slash_notMem_directory e')]
    at prefixes
  exact String.toList_injective prefixes

/-- The aggregate type whose events have their files in a directory. -/
def typeOfDirectory (d : String) : String :=
  match [("entities", "Entity"), ("observations", "Observation"), ("artifacts", "Artifact"),
    ("evidence", "Evidence"), ("relationships", "Relationship"), ("knowledge", "Knowledge"),
    ("findings", "Finding"), ("decisions", "Decision"), ("services", "Service"),
    ("investigations", "Investigation"), ("timelines", "Timeline"),
    ("agents", "Agent")].lookup d with
  | some t => t
  | none => "Monitoring"

theorem aggregateType_eq {φ : Type} (e : SystemEvent φ) :
    e.aggregateType = typeOfDirectory e.directory := by
  cases e <;> rfl

/-- Events on one file have one aggregate type. -/
theorem aggregateType_of_key {r r' : Readings} {e e' : SystemEvent F64} (h : e.key r = e'.key r') :
    e.aggregateType = e'.aggregateType := by
  rw [aggregateType_eq, aggregateType_eq, directory_of_key h]

@[simp] theorem key_normalize (r : Readings) (e : SystemEvent F64) :
    e.normalize.key r = e.key r := by cases e <;> rfl

end SystemEvent

theorem Ulid.encodeDigit_ne_slash : ∀ n < 32, Ulid.encodeDigit n ≠ '/' := by decide

theorem stripLeading_toString (u : Ulid) : stripLeading u.toString = u.toString := by
  have first := Ulid.encodeDigit_ne_slash (u.value / 32 ^ 25 % 32) (Nat.mod_lt _ (by decide))
  unfold stripLeading
  split
  · rename_i rest h
    simp only [Ulid.toString, String.toList_ofList, List.range_succ_eq_map, List.map_cons] at h
    exact absurd (List.cons.inj h).1 first
  · rfl

namespace VifsPath

/-- The storage key of an object. -/
theorem toKey_join {base d : String} (hb : stripTrailing base = "/" ++ d) (u : Ulid) :
    (join base u.toString).toKey = "vifs/" ++ d ++ "/" ++ u.toString := by
  have path : join base u.toString = ⟨"/" ++ (d ++ "/" ++ u.toString)⟩ := by
    unfold join
    rw [hb, stripLeading_toString, String.append_assoc, String.append_assoc, String.append_assoc]
  have ne : d ++ "/" ++ u.toString ≠ "" := fun h => by
    simpa using congrArg String.toList h
  rw [path, toKey_slash ne]
  simp only [String.append_assoc]

theorem vifs_ne {s : String} : "vifs/" ++ s ≠ "vifs" := fun h => by
  have := congrArg String.length h
  rw [String.length_append] at this
  have five : "vifs/".length = 5 := rfl
  have four : "vifs".length = 4 := rfl
  omega

end VifsPath

/-! ## What a projection does to its file -/

/-- The directory in which a file of this form belongs. -/
def Stored.directory : Stored → String
  | observation _ => "observations"
  | artifact _ => "artifacts"
  | evidence _ => "evidence"
  | entity _ => "entities"
  | relationship _ => "relationships"
  | knowledge _ => "knowledge"
  | finding _ => "findings"
  | decision _ => "decisions"
  | timeline _ => "timelines"
  | investigation _ => "investigations"
  | service _ => "services"
  | agentStarted .. | agentStopped .. | agentHeartbeat .. => "agents"
  | monitoringChange .. => "monitoring"

/-- The projector can read the file back: no finding has a `null` confidence. -/
def Stored.readable : Stored → Bool
  | finding f => f.confidence.isSome
  | _ => true

/-- Every float of the event is finite. -/
def SystemEvent.finite : SystemEvent F64 → Bool
  | findingUpdated _ _ _ _ c => c.all F64.isFinite
  | e => e.requiredFinite

namespace Vifs

/-- The computation reads and writes the file `k` only, and does `g` to it. -/
def ActsAt (k : String) (f : Vifs → Except VifsError Vifs)
    (g : Option Stored → Except VifsError (Option Stored)) : Prop :=
  ∀ v, f v = (g (v.lookup k)).map (set v k)

section ActsAt

variable {k s : String} {path : VifsPath}

theorem write_eq (hp : path.toKey = "vifs/" ++ s) (v : Vifs) (x : Stored) :
    v.write path x = .ok (v.insert path.toKey x) := by
  unfold write
  rw [if_neg (by rw [hp]; exact VifsPath.vifs_ne)]

theorem actsAt_write (hp : path.toKey = "vifs/" ++ s) (x : Stored) :
    ActsAt path.toKey (fun v => v.write path x) fun _ => .ok (some x) :=
  fun v => write_eq hp v x

theorem actsAt_delete (path : VifsPath) :
    ActsAt path.toKey (fun v => v.delete path) fun
      | some _ => .ok none
      | none => .error (.notFound path.raw) := by
  intro v
  unfold delete
  dsimp only
  cases v.lookup path.toKey <;> rfl

theorem actsAt_modify (hp : path.toKey = "vifs/" ++ s)
    (change : Stored → Except VifsError Stored) :
    ActsAt path.toKey (fun v => v.modify path change) fun
      | some x => (change x).map some
      | none => .ok none := by
  intro v
  unfold modify existsAt read
  dsimp only
  cases hv : v.lookup path.toKey with
  | none =>
    have same : set v path.toKey none = v := Finmap.ext_lookup fun k' => by
      by_cases hk : k' = path.toKey
      · rw [hk, lookup_set_self, hv]
      · exact lookup_set_of_ne v hk none
    simp [Except.map, same]
  | some x =>
    cases hc : change x with
    | error err => simp [bind, Except.bind, Except.map, hc]
    | ok y =>
      simp only [Option.isSome_some, if_true, bind, Except.bind, hc, write_eq hp]
      rfl

end ActsAt

/-- Add an entry to the timeline of a file, or to a new one. -/
def extendTimeline (entry : TimelineEntry) (start : Timeline) :
    Option Stored → Except VifsError (Option Stored)
  | some x => x.asTimeline.map fun t => some (.timeline { t with entries := t.entries ++ [entry] })
  | none => .ok (some (.timeline { start with entries := [entry] }))

/-- The forms of an event's effect on its file. -/
inductive Kind (e : SystemEvent F64) : (Option Stored → Except VifsError (Option Stored)) → Prop
  | refused (err : VifsError) : Kind e fun _ => .error err
  | put (x : Stored) (hd : x.directory = e.directory) (hr : e.finite → x.readable) :
    Kind e fun _ => .ok (some x)
  | change (f : Stored → Except VifsError Stored)
    (hf : ∀ x, x.directory = e.directory → x.readable →
      ∃ y, f x = .ok y ∧ y.directory = e.directory ∧ (e.finite → y.readable)) :
    Kind e fun
      | some x => (f x).map some
      | none => .ok none
  | remove (err : VifsError) :
    Kind e fun
      | some _ => .ok none
      | none => .error err
  | extend (entry : TimelineEntry) (start : Timeline) (ht : e.aggregateType = "Timeline") :
    Kind e (extendTimeline entry start)

/-- The event acts on its own file, in one of these forms. -/
def Projects (r : Readings) (e : SystemEvent F64) : Prop :=
  ∃ g, ActsAt (e.key r) (fun v => projectEvent r v e) g ∧ Kind e g

theorem parseId_cases (what id : String) :
    (∃ u, Ulid.fromString id = some u ∧ parseId what id = .ok u) ∨
      ∃ err, parseId what id = .error err := by
  unfold parseId
  cases Ulid.fromString id with
  | some u => exact .inl ⟨u, rfl, rfl⟩
  | none => exact .inr ⟨_, rfl⟩

theorem bind_parsed {α : Type} {what id : String} {u : Ulid} (ok : parseId what id = .ok u)
    (f : Ulid → Except VifsError α) : (parseId what id).bind f = f u := by
  rw [ok, Except.bind]

theorem bind_refused {α : Type} {what id : String} {err : VifsError}
    (bad : parseId what id = .error err) (f : Ulid → Except VifsError α) :
    (parseId what id).bind f = .error err := by
  rw [bad, Except.bind]

section Families

variable {r : Readings} {e : SystemEvent F64} {what id base : String}

/-- The key of an object that the event addresses by its id. -/
theorem key_object (hb : stripTrailing base = "/" ++ e.directory)
    (hf : e.fileName r = (SystemEvent.idOf id).toString) {u : Ulid}
    (hu : Ulid.fromString id = some u) : (VifsPath.join base u.toString).toKey = e.key r := by
  rw [VifsPath.toKey_join hb, SystemEvent.key, hf, SystemEvent.idOf, hu]
  rfl

theorem key_eq (r : Readings) (e : SystemEvent F64) :
    e.key r = "vifs/" ++ (e.directory ++ "/" ++ e.fileName r) := by
  simp only [SystemEvent.key, String.append_assoc]

theorem projects_put {x : Ulid → Stored} (hb : stripTrailing base = "/" ++ e.directory)
    (hf : e.fileName r = (SystemEvent.idOf id).toString)
    (hp : ∀ v, projectEvent r v e =
      (parseId what id).bind fun u => v.write (.join base u.toString) (x u))
    (hx : ∀ u, (x u).directory = e.directory ∧ (e.finite → (x u).readable)) : Projects r e := by
  rcases parseId_cases what id with ⟨u, hu, ok⟩ | ⟨err, bad⟩
  · have hk := key_object hb hf hu
    refine ⟨_, fun v => (hp v).trans ?_, .put (x u) (hx u).1 (hx u).2⟩
    rw [bind_parsed ok, ← hk]
    exact actsAt_write (hk.trans (key_eq r e)) (x u) v
  · exact ⟨_, fun v => (hp v).trans (bind_refused bad _), .refused err⟩

/-- The same, when a second id has to parse. -/
theorem projects_put₂ {what' id' : String} {x : Ulid → Ulid → Stored}
    (hb : stripTrailing base = "/" ++ e.directory)
    (hf : e.fileName r = (SystemEvent.idOf id).toString)
    (hp : ∀ v, projectEvent r v e = (parseId what id).bind fun u =>
      (parseId what' id').bind fun w => v.write (.join base u.toString) (x u w))
    (hx : ∀ u w, (x u w).directory = e.directory ∧ (e.finite → (x u w).readable)) :
    Projects r e := by
  rcases parseId_cases what' id' with ⟨w, -, ok'⟩ | ⟨err', bad'⟩
  · have hp' : ∀ v, projectEvent r v e =
        (parseId what id).bind fun u => v.write (.join base u.toString) (x u w) :=
      fun v => (hp v).trans (by simp only [bind_parsed ok'])
    exact projects_put hb hf hp' fun u => hx u w
  · rcases parseId_cases what id with ⟨u, -, ok⟩ | ⟨err, bad⟩
    · exact ⟨_, fun v => (hp v).trans ((bind_parsed ok _).trans (bind_refused bad' _)),
        .refused err'⟩
    · exact ⟨_, fun v => (hp v).trans (bind_refused bad _), .refused err⟩

theorem projects_change {f : Stored → Except VifsError Stored}
    (hb : stripTrailing base = "/" ++ e.directory)
    (hf : e.fileName r = (SystemEvent.idOf id).toString)
    (hp : ∀ v, projectEvent r v e =
      (parseId what id).bind fun u => v.modify (.join base u.toString) f)
    (hx : ∀ x, x.directory = e.directory → x.readable →
      ∃ y, f x = .ok y ∧ y.directory = e.directory ∧ (e.finite → y.readable)) :
    Projects r e := by
  rcases parseId_cases what id with ⟨u, hu, ok⟩ | ⟨err, bad⟩
  · have hk := key_object hb hf hu
    refine ⟨_, fun v => (hp v).trans ?_, .change f hx⟩
    rw [bind_parsed ok, ← hk]
    exact actsAt_modify (hk.trans (key_eq r e)) f v
  · exact ⟨_, fun v => (hp v).trans (bind_refused bad _), .refused err⟩

theorem projects_remove (hb : stripTrailing base = "/" ++ e.directory)
    (hf : e.fileName r = (SystemEvent.idOf id).toString)
    (hp : ∀ v, projectEvent r v e =
      (parseId what id).bind fun u => v.delete (.join base u.toString)) : Projects r e := by
  rcases parseId_cases what id with ⟨u, hu, ok⟩ | ⟨err, bad⟩
  · have hk := key_object hb hf hu
    refine ⟨_, fun v => (hp v).trans ?_,
      .remove (.notFound (VifsPath.join base u.toString).raw)⟩
    rw [bind_parsed ok, ← hk]
    exact actsAt_delete _ v
  · exact ⟨_, fun v => (hp v).trans (bind_refused bad _), .refused err⟩

/-- Records of agents and monitored changes are written below the root directly. -/
theorem projects_record {raw : String} {x : Stored}
    (hp : ∀ v, projectEvent r v e = v.write ⟨raw⟩ x)
    (hf : raw = "/" ++ e.directory ++ "/" ++ e.fileName r)
    (hx : x.directory = e.directory ∧ (e.finite → x.readable)) : Projects r e := by
  have ne : e.directory ++ "/" ++ e.fileName r ≠ "" :=
    fun h => by simpa using congrArg String.toList h
  have below : raw = "/" ++ (e.directory ++ "/" ++ e.fileName r) := by
    rw [hf]
    simp only [String.append_assoc]
  subst below
  have hk := VifsPath.toKey_slash ne
  have own : VifsPath.toKey ⟨"/" ++ (e.directory ++ "/" ++ e.fileName r)⟩ = e.key r := by
    rw [hk, key_eq]
  refine ⟨_, fun v => (hp v).trans ?_, .put x hx.1 hx.2⟩
  rw [← own]
  exact actsAt_write hk x v

end Families

section Views

variable {x : Stored}

theorem asEntity_ok (hd : x.directory = "entities") : ∃ a, x.asEntity = .ok a := by
  cases x <;> first | exact ⟨_, rfl⟩ | simp [Stored.directory] at hd

theorem asDecision_ok (hd : x.directory = "decisions") : ∃ a, x.asDecision = .ok a := by
  cases x <;> first | exact ⟨_, rfl⟩ | simp [Stored.directory] at hd

theorem asService_ok (hd : x.directory = "services") : ∃ a, x.asService = .ok a := by
  cases x <;> first | exact ⟨_, rfl⟩ | simp [Stored.directory] at hd

theorem asInvestigation_ok (hd : x.directory = "investigations") :
    ∃ a, x.asInvestigation = .ok a := by
  cases x <;> first | exact ⟨_, rfl⟩ | simp [Stored.directory] at hd

/-- A readable finding: its confidence is a number. -/
theorem asFinding_ok (hd : x.directory = "findings") (hr : x.readable) :
    ∃ f : Finding F64, f.confidence.isFinite ∧ x = .finding f.toJson ∧ x.asFinding = .ok f := by
  cases x with
  | finding f =>
    obtain ⟨id, iid, kind, title, description, severity, confidence, ids, at_, metadata⟩ := f
    cases confidence with
    | none => cases hr
    | some d => exact ⟨⟨id, iid, kind, title, description, severity, .finite d, ids, at_, metadata⟩,
        rfl, rfl, rfl⟩
  | _ => simp [Stored.directory] at hd

end Views

/-- A timeline entry extends the timeline of its file, or starts one. -/
theorem acts_timeline (r : Readings) {e : SystemEvent F64} (he : e.aggregateType = "Timeline") :
    (∃ err, ActsAt (e.key r) (fun v => projectEvent r v e) fun _ => .error err) ∨
      ∃ entry start,
        ActsAt (e.key r) (fun v => projectEvent r v e) (extendTimeline entry start) := by
  cases e with
  | timelineEntryAdded id iid timestamp kind sourceId summary =>
    rcases parseId_cases "timeline" id with ⟨u, hu, ok⟩ | ⟨err, bad⟩
    swap
    · exact .inl ⟨err, fun v => by simp only [projectEvent, bad]; rfl⟩
    rcases parseId_cases "investigation" iid with ⟨w, -, ok'⟩ | ⟨err, bad⟩
    swap
    · exact .inl ⟨err, fun v => by simp only [projectEvent, ok, bad]; rfl⟩
    refine .inr ⟨⟨id, timestamp, kind, sourceId, summary, ∅⟩, ⟨u, w, [], r.now 0, ∅⟩, fun v => ?_⟩
    have hk : (VifsPath.timeline u).toKey = SystemEvent.key r
        (.timelineEntryAdded id iid timestamp kind sourceId summary) := key_object (by rfl) rfl hu
    have written := fun x => write_eq (hk.trans (key_eq r _)) v x
    rw [← hk]
    rcases Option.eq_none_or_eq_some (v.lookup (VifsPath.timeline u).toKey) with hl | ⟨x, hl⟩
    · simp only [projectEvent, ok, ok', bind, Except.bind, existsAt, hl, Option.isSome_none,
        Bool.false_eq_true, if_false, written]
      rfl
    · simp only [projectEvent, ok, ok', bind, Except.bind, existsAt, read, hl, Option.isSome_some,
        if_true, extendTimeline]
      cases x.asTimeline with
      | error err => rfl
      | ok t =>
        simp only [written]
        rfl
  | _ => simp [SystemEvent.aggregateType] at he

/-- Every event is projected onto its own file. -/
theorem projects (r : Readings) (e : SystemEvent F64) : Projects r e := by
  cases e with
  | entityCreated | observationRecorded | relationshipEstablished | decisionMade
  | serviceRegistered | investigationOpened | knowledgeProduced =>
    exact projects_put (by rfl) rfl (fun _ => rfl) fun _ => ⟨rfl, fun _ => rfl⟩
  | artifactStored | evidenceExtracted =>
    exact projects_put₂ (by rfl) rfl (fun _ => rfl) fun _ _ => ⟨rfl, fun _ => rfl⟩
  | findingCreated =>
    exact projects_put₂ (by rfl) rfl (fun _ => rfl) fun _ _ =>
      ⟨rfl, fun finite => (F64.toJson_isSome _).trans finite⟩
  | entityDeleted | artifactDeleted | relationshipDeleted | serviceDeleted =>
    exact projects_remove (by rfl) rfl fun _ => rfl
  | agentStarted | agentStopped => exact projects_record (fun _ => rfl) rfl ⟨rfl, fun _ => rfl⟩
  | agentHeartbeat | monitoringChangeDetected =>
    refine projects_record (fun _ => rfl) ?_ ⟨rfl, fun _ => rfl⟩
    simp only [SystemEvent.fileName, ← String.append_assoc]
    rfl
  | entityUpdated =>
    refine projects_change (by rfl) rfl (fun _ => rfl) fun x hd _ => ?_
    obtain ⟨a, ha⟩ := asEntity_ok hd
    exact ⟨_, by rw [ha]; rfl, rfl, fun _ => rfl⟩
  | decisionExecuted =>
    refine projects_change (by rfl) rfl (fun _ => rfl) fun x hd _ => ?_
    obtain ⟨a, ha⟩ := asDecision_ok hd
    exact ⟨_, by rw [ha]; rfl, rfl, fun _ => rfl⟩
  | serviceUpdated =>
    refine projects_change (by rfl) rfl (fun _ => rfl) fun x hd _ => ?_
    obtain ⟨a, ha⟩ := asService_ok hd
    exact ⟨_, by rw [ha]; rfl, rfl, fun _ => rfl⟩
  | investigationClosed | investigationArchived =>
    refine projects_change (by rfl) rfl (fun _ => rfl) fun x hd _ => ?_
    obtain ⟨a, ha⟩ := asInvestigation_ok hd
    exact ⟨_, by rw [ha]; rfl, rfl, fun _ => rfl⟩
  | findingUpdated id title description severity confidence =>
    refine projects_change (by rfl) rfl (fun _ => rfl) fun x hd hr => ?_
    obtain ⟨a, ha, -, hx⟩ := asFinding_ok hd hr
    rw [hx]
    refine ⟨_, rfl, rfl, fun finite => (F64.toJson_isSome _).trans ?_⟩
    cases confidence with
    | none => exact ha
    | some c => exact finite
  | timelineEntryAdded id iid timestamp kind sourceId summary =>
    have timeline : SystemEvent.aggregateType
        (.timelineEntryAdded id iid timestamp kind sourceId summary : SystemEvent F64) =
          "Timeline" := rfl
    rcases acts_timeline r timeline with ⟨err, acts⟩ | ⟨entry, start, acts⟩
    · exact ⟨_, acts, .refused err⟩
    · exact ⟨_, acts, .extend entry start rfl⟩

/-! ## Projections as a keyed store -/

/-- What an event does to the contents of its file. -/
def effect (r : Readings) (e : SystemEvent F64) (x : Option Stored) :
    Except VifsError (Option Stored) :=
  (projectEvent r (set ∅ (e.key r) x) e).map (·.lookup (e.key r))

theorem effect_eq {r : Readings} {e : SystemEvent F64}
    {g : Option Stored → Except VifsError (Option Stored)}
    (hg : ActsAt (e.key r) (fun v => projectEvent r v e) g) : effect r e = g := by
  funext x
  unfold effect
  have own := hg (set ∅ (e.key r) x)
  dsimp only at own
  rw [own, lookup_set_self]
  cases g x with
  | error err => rfl
  | ok y => simp [Except.map]

theorem effect_kind (r : Readings) (e : SystemEvent F64) : Kind e (effect r e) := by
  obtain ⟨g, hg, kind⟩ := projects r e
  rw [effect_eq hg]
  exact kind

/-- The projection is an operation of the keyed store. -/
theorem projectEvent_eq (r : Readings) (v : Vifs) (e : SystemEvent F64) :
    projectEvent r v e = apply (SystemEvent.key r) (effect r) e v := by
  obtain ⟨g, hg, -⟩ := projects r e
  unfold apply
  rw [effect_eq hg]
  exact hg v

end Vifs

end TORdex
