import Mathlib.Tactic.Abel
import TORdex.Core.Object
import TORdex.Lib.Runs
import TORdex.Monitoring.Watchers

/-!
# Watchers that record

The CVE watcher and the threat watcher create an object for each id that they report, and a watcher that starts
again learns its ids from these objects.  A poll is a sequence of steps; others use the objects in between, and the
process may stop at any step, which loses the changes of the poll but not the objects.
-/

namespace TORdex.Monitoring

/-- A step of a poll: an item that is recorded if its id is new, or a change that is reported in any case. -/
inductive PollStep (Item : Type) where
  | item (item : Item)
  | report (subject changeType : String) (currentState : Json)

/-- A watcher that records what it reports, by the objects that it creates; `M` is what it keeps of the ids. -/
structure Recorder (M Item : Type) where
  watcherKind : String
  kind : String
  changeType : String
  label : Item → String
  data : Item → OffsetDateTime → Json
  currentState : Item → Json
  fresh : M
  knows : M → String → Bool
  learn : String → M → M
  knows_fresh : ∀ id, knows fresh id = false
  knows_learn : ∀ m id id', knows (learn id m) id' = (decide (id = id') || knows m id')

/-- The objects and the watcher with its poll; the changes of the polls that ended and of those that were cut off,
and all ids that were looked at. -/
structure Watch (M Item : Type) where
  objects : InMemoryObjectManager
  memory : M
  pending : List (PollStep Item)
  changes : List ChangeEvent
  returned : List ChangeEvent
  lost : List ChangeEvent
  seen : List String

/-- The process starts again and reads its objects in some order, a poll begins or takes a step, or another
component uses the objects. -/
inductive WatchAction (Item : Type) where
  | restart (existing : List Object)
  | begin (steps : List (PollStep Item))
  | step (draw : Draw) (id : ObjectId) (createdAt : ℤ)
  | other (call : ObjectCall) (now : ℤ)

namespace Recorder

variable {M Item : Type} (r : Recorder M Item)

/-- `init`: the ids are the labels of the objects. -/
def init (existing : List Object) : M := existing.foldl (fun m obj => r.learn obj.label m) r.fresh

/-- The effect of a step of a poll. -/
def perform (s : Watch M Item) (draw : Draw) (id : ObjectId) (createdAt : ℤ) : PollStep Item → Watch M Item
  | .item item =>
    let s := { s with seen := r.label item :: s.seen }
    if r.knows s.memory (r.label item) then s
    else { s with
      objects := (s.objects.create id r.kind (r.label item) (r.data item draw.now).toVec createdAt).2
      memory := r.learn (r.label item) s.memory
      changes := s.changes ++ [.new draw r.watcherKind (r.label item) r.changeType (r.currentState item)] }
  | .report subject changeType currentState =>
    { s with changes := s.changes ++ [.new draw r.watcherKind subject changeType currentState] }

/-- The effect of an action. -/
def step (s : Watch M Item) : WatchAction Item → Watch M Item
  | .restart existing =>
    { s with memory := r.init existing, pending := [], changes := [], lost := s.lost ++ s.changes }
  | .begin steps => if s.pending.isEmpty then { s with pending := steps } else s
  | .step draw id createdAt =>
    match s.pending with
    | [] => s
    | [last] =>
      let s := r.perform s draw id createdAt last
      { s with pending := [], changes := [], returned := s.returned ++ s.changes }
    | next :: pending => { r.perform s draw id createdAt next with pending }
  | .other call now => { s with objects := (s.objects.perform now call).2 }

/-- A watcher without objects of its kind. -/
def start (objects : InMemoryObjectManager) : Watch M Item := ⟨objects, r.fresh, [], [], [], [], []⟩

/-- The call leaves the objects of a kind alone. -/
def Leaves (kind : String) (objects : InMemoryObjectManager) : ObjectCall → Prop
  | .create id kind' _ _ => kind' ≠ kind ∧ id ∉ objects.objects
  | .update id _ | .delete id => ∀ obj, objects.objects.lookup id = some obj → obj.kind ≠ kind
  | _ => True

/-- A start reads the objects there are, a new object has a new id, and nobody else touches the objects of the
watcher. -/
def Allowed (s : Watch M Item) : WatchAction Item → Prop
  | .restart existing => (existing : Multiset Object) = s.objects.findByKind r.kind
  | .begin steps => ∀ subject changeType currentState, .report subject changeType currentState ∈ steps →
      changeType ≠ r.changeType
  | .step _ id _ => id ∉ s.objects.objects
  | .other call _ => Leaves r.kind s.objects call

/-- The ids reported by some changes. -/
def reported (changes : List ChangeEvent) : List String :=
  (changes.filter fun change => change.changeType = r.changeType).map (·.subject)

end Recorder

/-- The labels of the objects of a kind. -/
def labelsIn (kind : String) (objects : Multiset Object) : Multiset String :=
  (objects.filter fun obj => obj.kind = kind).map Object.label

/-- The labels of the objects of a kind. -/
def labelsOf (kind : String) (objects : InMemoryObjectManager) : Multiset String :=
  labelsIn kind (FiniteMap.values objects.objects)

section Labels

variable {kind : String} {objects : InMemoryObjectManager} {id : ObjectId}

theorem labelsIn_cons (obj : Object) (others : Multiset Object) :
    labelsIn kind (obj ::ₘ others) =
      if obj.kind = kind then obj.label ::ₘ labelsIn kind others else labelsIn kind others := by
  split_ifs with own
  · rw [labelsIn, Multiset.filter_cons_of_pos (p := fun obj : Object => obj.kind = kind) _ own, Multiset.map_cons]
    rfl
  · rw [labelsIn, Multiset.filter_cons_of_neg (p := fun obj : Object => obj.kind = kind) _ own]
    rfl

theorem labelsOf_create (fresh : id ∉ objects.objects) (kind' label : String) (data : List UInt8) (now : ℤ) :
    labelsOf kind (objects.create id kind' label data now).2 =
      if kind' = kind then label ::ₘ labelsOf kind objects else labelsOf kind objects := by
  rw [labelsOf, InMemoryObjectManager.create, FiniteMap.values_insert,
    FiniteMap.erase_of_lookup_eq_none (Finmap.lookup_eq_none.2 fresh), labelsIn_cons]
  rfl

theorem labelsOf_leaves {call : ObjectCall} (leaves : Recorder.Leaves kind objects call) (now : ℤ) :
    labelsOf kind (objects.perform now call).2 = labelsOf kind objects := by
  cases call with
  | create id kind' label data =>
    exact (labelsOf_create leaves.2 kind' label data now).trans (if_neg leaves.1)
  | update id data =>
    rw [InMemoryObjectManager.perform, InMemoryObjectManager.update]
    cases found : objects.objects.lookup id with
    | none => rfl
    | some obj =>
      dsimp only
      rw [labelsOf, labelsOf, FiniteMap.values_of_lookup found, FiniteMap.values_insert, labelsIn_cons,
        labelsIn_cons, if_neg (leaves obj found)]
  | delete id =>
    rw [InMemoryObjectManager.perform, InMemoryObjectManager.delete]
    dsimp only
    cases found : objects.objects.lookup id with
    | none => rw [FiniteMap.erase_of_lookup_eq_none found]
    | some obj =>
      rw [labelsOf, labelsOf, FiniteMap.values_of_lookup found, labelsIn_cons, if_neg (leaves obj found)]
  | read id => rfl
  | link id source target kind' => rfl
  | unlink id => rfl
  | links object => rfl
  | findByKind kind' => rfl
  | findByLabel label => rfl

end Labels

/-! ## Every id is reported once -/

namespace Recorder

variable {M Item : Type} {r : Recorder M Item} {s : Watch M Item}

/-- The objects are those of the reported ids, one for each, and the watcher knows them. -/
structure Good (r : Recorder M Item) (s : Watch M Item) : Prop where
  recorded : (r.reported s.returned : Multiset String) + r.reported s.changes + r.reported s.lost =
    labelsOf r.kind s.objects
  nodup : (labelsOf r.kind s.objects).Nodup
  knows : ∀ id, r.knows s.memory id = true ↔ id ∈ labelsOf r.kind s.objects
  seen : ∀ id, id ∈ s.seen ↔ id ∈ labelsOf r.kind s.objects
  pending : ∀ subject changeType currentState, .report subject changeType currentState ∈ s.pending →
    changeType ≠ r.changeType

theorem reported_append (changes changes' : List ChangeEvent) :
    r.reported (changes ++ changes') = r.reported changes ++ r.reported changes' := by
  rw [reported, List.filter_append, List.map_append]
  rfl

theorem knows_init (existing : List Object) (id : String) :
    r.knows (r.init existing) id = true ↔ id ∈ existing.map Object.label := by
  suffices ∀ m, r.knows (existing.foldl (fun m obj => r.learn obj.label m) m) id = true ↔
      id ∈ existing.map Object.label ∨ r.knows m id = true by
    rw [init, this, r.knows_fresh]
    simp
  induction existing with
  | nil => simp
  | cons obj existing ih =>
    intro m
    rw [List.foldl_cons, ih, r.knows_learn, List.map_cons, List.mem_cons, Bool.or_eq_true, decide_eq_true_eq]
    constructor
    · rintro (later | here | before)
      · exact .inl (.inr later)
      · exact .inl (.inl here.symm)
      · exact .inr before
    · rintro ((here | later) | before)
      · exact .inr (.inl here.symm)
      · exact .inl later
      · exact .inr (.inr before)

theorem good_start {objects : InMemoryObjectManager} (none : labelsOf r.kind objects = 0) :
    Good r (r.start objects) := by
  refine ⟨none.symm, ?_, fun id => ?_, fun id => ?_, fun _ _ _ h => absurd h List.not_mem_nil⟩
  · show (labelsOf r.kind objects).Nodup
    rw [none]
    exact Multiset.nodup_zero
  · show r.knows r.fresh id = true ↔ id ∈ labelsOf r.kind objects
    rw [none, r.knows_fresh]
    simp
  · show id ∈ [] ↔ id ∈ labelsOf r.kind objects
    rw [none]
    simp

theorem Good.perform (good : Good r s) {next : PollStep Item}
    (plain : ∀ subject changeType currentState, next = .report subject changeType currentState →
      changeType ≠ r.changeType)
    {draw : Draw} {id : ObjectId} (fresh : id ∉ s.objects.objects) (createdAt : ℤ) :
    Good r (r.perform s draw id createdAt next) := by
  obtain ⟨recorded, nodup, knows, seen, pending⟩ := good
  cases next with
  | report subject changeType currentState =>
    refine ⟨?_, nodup, knows, seen, pending⟩
    have other : r.reported [.new draw r.watcherKind subject changeType currentState] = [] := by
      have apart := plain _ _ _ rfl
      simp [reported, ChangeEvent.new, apart]
    show (r.reported s.returned : Multiset String) + r.reported (s.changes ++ _) + r.reported s.lost = _
    rw [reported_append, other, List.append_nil]
    exact recorded
  | item item =>
    rw [Recorder.perform]
    dsimp only
    split_ifs with known
    · have old := (knows _).1 known
      refine ⟨recorded, nodup, knows, fun id' => ?_, pending⟩
      rw [List.mem_cons, seen]
      exact ⟨fun h => h.elim (fun same => same ▸ old) fun h => h, .inr⟩
    · have new : r.label item ∉ labelsOf r.kind s.objects := fun old => known ((knows _).2 old)
      have labels := (labelsOf_create fresh r.kind (r.label item) (r.data item draw.now).toVec createdAt).trans
        (if_pos rfl)
      have one : r.reported [.new draw r.watcherKind (r.label item) r.changeType (r.currentState item)] =
          [r.label item] := by
        simp [reported, ChangeEvent.new]
      refine ⟨?_, ?_, fun id' => ?_, fun id' => ?_, pending⟩
      · show (r.reported s.returned : Multiset String) + r.reported (s.changes ++ _) + r.reported s.lost = _
        rw [labels, reported_append, one, ← Multiset.coe_add, ← recorded, Multiset.coe_singleton,
          ← Multiset.singleton_add]
        abel
      · rw [labels, Multiset.nodup_cons]
        exact ⟨new, nodup⟩
      · rw [labels, r.knows_learn, Bool.or_eq_true, decide_eq_true_eq, knows, Multiset.mem_cons, eq_comm]
      · rw [labels, List.mem_cons, seen, Multiset.mem_cons]

theorem Good.step (good : Good r s) {a : WatchAction Item} (allowed : r.Allowed s a) : Good r (r.step s a) := by
  cases a with
  | restart existing =>
    have labels : (existing.map Object.label : Multiset String) = labelsOf r.kind s.objects := by
      rw [← Multiset.map_coe, show (existing : Multiset Object) = _ from allowed]
      rfl
    refine ⟨?_, good.nodup, fun id => ?_, good.seen, fun _ _ _ h => absurd h List.not_mem_nil⟩
    · show (r.reported s.returned : Multiset String) + r.reported [] + r.reported (s.lost ++ s.changes) = _
      rw [reported_append, ← Multiset.coe_add]
      refine Eq.trans ?_ good.recorded
      rw [show (r.reported [] : Multiset String) = 0 from rfl]
      abel
    · show r.knows (r.init existing) id = true ↔ id ∈ labelsOf r.kind s.objects
      rw [knows_init, ← labels, Multiset.mem_coe]
  | begin steps =>
    rw [Recorder.step]
    split_ifs
    · exact ⟨good.recorded, good.nodup, good.knows, good.seen, allowed⟩
    · exact good
  | step draw id createdAt =>
    rw [Recorder.step]
    cases pending : s.pending with
    | nil => exact good
    | cons next rest =>
      have plain : ∀ subject changeType currentState, next = .report subject changeType currentState →
          changeType ≠ r.changeType := fun _ _ _ same =>
        good.pending _ _ _ (by rw [pending, same]; exact List.mem_cons_self)
      have done : Good r (r.perform s draw id createdAt next) := good.perform plain allowed createdAt
      cases rest with
      | nil =>
        refine ⟨?_, done.nodup, done.knows, done.seen, fun _ _ _ h => absurd h List.not_mem_nil⟩
        refine Eq.trans ?_ done.recorded
        show ((r.reported (_ ++ _) : List String) : Multiset String) + r.reported [] + _ = _
        rw [reported_append, ← Multiset.coe_add, show (r.reported [] : Multiset String) = 0 from rfl, add_zero]
      | cons later rest =>
        exact ⟨done.recorded, done.nodup, done.knows, done.seen, fun subject changeType currentState mem =>
          good.pending _ _ _ (pending ▸ List.mem_cons_of_mem _ mem)⟩
  | other call now =>
    have labels : labelsOf r.kind (s.objects.perform now call).2 = labelsOf r.kind s.objects :=
      labelsOf_leaves allowed now
    refine ⟨good.recorded.trans labels.symm, labels.symm ▸ good.nodup, fun id => ?_, fun id => ?_, good.pending⟩
    · exact (good.knows id).trans (labels ▸ Iff.rfl)
    · exact (good.seen id).trans (labels ▸ Iff.rfl)

theorem good_of_reached {objects : InMemoryObjectManager} (none : labelsOf r.kind objects = 0)
    (reached : Reached r.step r.Allowed (r.start objects) s) : Good r s :=
  reached.invariant (good_start none) fun _ _ good allowed => good.step allowed

end Recorder

/-! ## The CVE watcher -/

/-- A text of an item. -/
def textOr (key fallback : String) (v : Json) : String := ((v.get key).bind Json.asStr).getD fallback

/-- The record of an item of a feed. -/
def cveRecord (found : String × Json) : Json := .obj [("description", .str (textOr "description" "" found.2)),
  ("id", .str (textOr "id" "unknown" found.2)), ("severity", .str (textOr "severity" "unknown" found.2)),
  ("source", .str found.1)]

/-- The CVE watcher. -/
def cveWatcher : Recorder (HashMap String String) (String × Json) where
  watcherKind := "cve"
  kind := "cve_record"
  changeType := "new_advisory"
  label found := textOr "id" "unknown" found.2
  data found _ := cveRecord found
  currentState := cveRecord
  fresh := ∅
  knows known id := decide (id ∈ known)
  learn id known := known.insert id id
  knows_fresh _ := rfl
  knows_learn known id id' := by
    rw [← Bool.decide_or]
    exact decide_eq_decide.2 (Finmap.mem_insert.trans (or_congr_left eq_comm))

/-- The feeds after `init`, from the labels of the `monitored_cve_feed` objects. -/
def cveFeeds (labels : List String) : List String :=
  labels.foldl (fun feeds label => if label ∈ feeds then feeds else feeds ++ [label])
    ["https://cve.circl.lu/api/last", "https://services.nvd.nist.gov/rest/json/cves/2.0"]

/-- The items in the answer of a feed. -/
def cveItems (resp : Json) : List Json :=
  (((resp.get "cves").or (resp.asArray.map fun _ => resp)).bind Json.asArray).getD []

/-- A poll of the feeds. -/
def cveSteps (feeds : List String) (response : String → Except String Json) : List (PollStep (String × Json)) :=
  feeds.flatMap fun feed =>
    match response feed with
    | .ok resp => (cveItems resp).map (fun item => .item (feed, item)) ++
      [.report feed "feed_polled" (.obj [("status", .str "ok"), ("url", .str feed)])]
    | .error e => [.report feed "feed_failed" (.obj [("error", .str e), ("url", .str feed)])]

theorem cveSteps_reports (feeds : List String) (response : String → Except String Json)
    (subject changeType : String) (currentState : Json)
    (mem : .report subject changeType currentState ∈ cveSteps feeds response) : changeType ≠ "new_advisory" := by
  obtain ⟨feed, -, mem⟩ := List.mem_flatMap.1 mem
  cases answer : response feed with
  | ok resp =>
    rw [answer] at mem
    rcases List.mem_append.1 mem with item | status
    · obtain ⟨item, -, same⟩ := List.mem_map.1 item
      cases same
    · obtain ⟨-, rfl, -⟩ := PollStep.report.inj (List.mem_singleton.1 status)
      decide
  | error e =>
    rw [answer] at mem
    obtain ⟨-, rfl, -⟩ := PollStep.report.inj (List.mem_singleton.1 mem)
    decide

/-! ## The threat watcher -/

section Threats

-- `OffsetDateTime::to_string`, and `serde_json::from_slice`.
variable (timeText : OffsetDateTime → String) (fromSlice : List UInt8 → Option Json)

/-- A CVE with its severity. -/
def threatWatcher : Recorder (List String) (String × String) where
  watcherKind := "threat"
  kind := "threat_intel"
  changeType := "high_severity_cve"
  label := Prod.fst
  data cve now := .obj [("cve_id", .str cve.1), ("detected_at", .str (timeText now)), ("severity", .str cve.2),
    ("type", .str "cve_alert")]
  currentState cve := .obj [("correlation", .str "direct_cve"), ("cve_id", .str cve.1), ("severity", .str cve.2),
    ("source", .str "cve_watcher")]
  fresh := []
  knows known id := known.contains id
  learn id known := known ++ [id]
  knows_fresh _ := rfl
  knows_learn known id id' := by
    rw [List.contains_append, Bool.or_comm]
    simp [eq_comm]

/-- A record of a CVE of high severity. -/
def highSeverity (cve : Object) : Option (String × String) :=
  (fromSlice cve.data).bind fun data =>
    let severity := textOr "severity" "unknown" data
    if severity = "critical" ∨ severity = "high" then some (cve.label, severity) else none

/-- The change says that a poll failed. -/
def isUnreachable (change : Object) : Bool :=
  match fromSlice change.data with
  | some data => (data.get "change_type").bind Json.asStr = some "poll_failed"
  | none => false

/-- The number of alerts that an object tells of. -/
def alertCount (alert : Object) : ℕ :=
  (((fromSlice alert.data).bind (·.get "alerts_raised")).bind Json.asU64).getD 0

/-- A poll over the records, the monitoring changes and the health snapshots. -/
def threatSteps (cveRecords monitoringChanges alerts : List Object) : List (PollStep (String × String)) :=
  let unreachable := (monitoringChanges.filter (isUnreachable fromSlice)).length
  (cveRecords.filterMap (highSeverity fromSlice)).map .item ++
    (if 0 < unreachable then [.report "service_availability" "multiple_unreachable"
      (.obj [("correlation", .str "service_outage"), ("severity", .str "medium"),
        ("unreachable_count", .int unreachable)])] else []) ++
    (alerts.filter fun alert => 0 < alertCount fromSlice alert).map fun alert =>
      .report "system_health" "system_alert" (.obj [("alert_count", .int (alertCount fromSlice alert)),
        ("correlation", .str "system_monitoring"), ("severity", .str "medium")])

theorem threatSteps_reports (cveRecords monitoringChanges alerts : List Object) (subject changeType : String)
    (currentState : Json)
    (mem : .report subject changeType currentState ∈ threatSteps fromSlice cveRecords monitoringChanges alerts) :
    changeType ≠ "high_severity_cve" := by
  rw [threatSteps] at mem
  rcases List.mem_append.1 mem with mem | alert
  · rcases List.mem_append.1 mem with item | outage
    · obtain ⟨cve, -, same⟩ := List.mem_map.1 item
      cases same
    · split_ifs at outage
      · obtain ⟨-, rfl, -⟩ := PollStep.report.inj (List.mem_singleton.1 outage)
        decide
      · cases outage
  · obtain ⟨obj, -, same⟩ := List.mem_map.1 alert
    obtain ⟨-, rfl, -⟩ := PollStep.report.inj same
    decide

end Threats

/-! ## Over all runs -/

/-- Every id that was looked at has one object and one report: in a poll that ended, in the poll that runs, or in a
poll that was cut off. -/
structure Accounted {M Item : Type} (r : Recorder M Item) (s : Watch M Item) : Prop where
  objects : ∀ id, (labelsOf r.kind s.objects).count id = if id ∈ s.seen then 1 else 0
  reports : ∀ id, (r.reported s.returned ++ r.reported s.changes ++ r.reported s.lost).count id =
    if id ∈ s.seen then 1 else 0

theorem Recorder.Good.accounted {M Item : Type} {r : Recorder M Item} {s : Watch M Item} (good : r.Good s) :
    Accounted r s := by
  have objects : ∀ id, (labelsOf r.kind s.objects).count id = if id ∈ s.seen then 1 else 0 := by
    intro id
    rw [Multiset.count_eq_of_nodup good.nodup]
    exact if_congr (good.seen id).symm rfl rfl
  refine ⟨objects, fun id => ?_⟩
  rw [← objects, ← good.recorded, Multiset.coe_add, Multiset.coe_add, Multiset.coe_count]

/-- **In every run of polls and restarts each CVE is announced once, and so is each CVE of high severity**, while
nobody else writes their records.  The announcement of a poll that is cut off by a restart is lost for ever. -/
theorem accounted_of_reached (timeText : OffsetDateTime → String) (objects : InMemoryObjectManager)
    (noCves : labelsOf "cve_record" objects = 0) (noThreats : labelsOf "threat_intel" objects = 0) :
    (∀ s, Reached cveWatcher.step cveWatcher.Allowed (cveWatcher.start objects) s → Accounted cveWatcher s) ∧
      ∀ s, Reached (threatWatcher timeText).step (threatWatcher timeText).Allowed
        ((threatWatcher timeText).start objects) s → Accounted (threatWatcher timeText) s :=
  ⟨fun _ reached => (Recorder.good_of_reached noCves reached).accounted,
    fun _ reached => (Recorder.good_of_reached noThreats reached).accounted⟩

/-- A feed with two advisories. -/
def twoAdvisories (_ : String) : Except String Json :=
  .ok (.obj [("cves", .arr [.obj [("id", .str "CVE-1")], .obj [("id", .str "CVE-2")]])])

/-- A draw of an id. -/
def sampleDraw : Draw := ⟨.ofNat 0, 0⟩

/-- The process stops after the first advisory; the next poll finds both. -/
def interruption : List (WatchAction (String × Json)) :=
  [.begin (cveSteps ["feed"] twoAdvisories), .step sampleDraw (.ofNat 1) 0,
    .restart [⟨.ofNat 1, "cve_record", "CVE-1", (cveRecord ("feed", .obj [("id", .str "CVE-1")])).toVec, 0, 0⟩],
    .begin (cveSteps ["feed"] twoAdvisories), .step sampleDraw (.ofNat 2) 0, .step sampleDraw (.ofNat 2) 0,
    .step sampleDraw (.ofNat 3) 0]

theorem accounted_interruption :
    let s := interruption.foldl cveWatcher.step (cveWatcher.start .new)
    Accounted cveWatcher s ∧ cveWatcher.reported s.returned = ["CVE-2"] ∧ cveWatcher.reported s.lost = ["CVE-1"] := by
  refine ⟨?_, by decide, by decide⟩
  refine (accounted_of_reached (fun _ => "") .new rfl rfl).1 _ (Along.reached ?_)
  have steps := cveSteps_reports ["feed"] twoAdvisories
  have fresh : ∀ {objects : HashMap ObjectId Object} {id : ObjectId}, objects.lookup id = none → id ∉ objects :=
    fun h => Finmap.lookup_eq_none.1 h
  exact ⟨steps, fresh rfl, rfl, steps, fresh rfl, fresh rfl, fresh rfl, trivial⟩

end TORdex.Monitoring
