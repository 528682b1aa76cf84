import TORdex.Core.EventStore
import TORdex.Core.Storage

/-!
# The monitoring engine

A pass lists the due watchers under the lock, and then polls them one by one, each under the lock again; the
changes of a poll are emitted before the next one.  `poll_due` and the background loop differ in what they do
when an emission fails.  Behind the trait objects of the watchers and of the kernel stands a `Host`.
-/

namespace TORdex

namespace Monitoring

/-- A change detected by a watcher. -/
structure ChangeEvent where
  id : String
  watcherKind : String
  subject : String
  changeType : String
  previousState : Option Json
  currentState : Json
  detectedAt : OffsetDateTime
  metadata : HashMap String String

/-- A watcher with the time between its polls. -/
structure Watcher where
  name : String
  pollInterval : ℕ
  deriving DecidableEq, Repr

/-- Tracks when each watcher was last polled. -/
structure WatcherEntry where
  watcher : Watcher
  lastPoll : Option ℕ
  deriving DecidableEq, Repr

/-- What lies behind the trait objects: the watchers, and the kernel's event store, objects and event bus.
`W` is their state; `fresh` draws the id and the time of an envelope. -/
structure Host (W : Type) where
  poll : ℕ → W → Except CoreError (List ChangeEvent) × W
  latestVersion : String → W → ℕ
  fresh : W → Ulid × OffsetDateTime × W
  append : EventEnvelope → W → Except EventStoreError Unit × W
  create : String → String → List UInt8 → W → W
  publish : String → List UInt8 → W → W
  /-- `OffsetDateTime::to_string`. -/
  timeText : OffsetDateTime → String

/-! ## The list of due watchers -/

/-- `last.elapsed()` is zero for a later `last`. -/
def WatcherEntry.shouldPoll (entry : WatcherEntry) (now : ℕ) : Bool :=
  match entry.lastPoll with
  | none => true
  | some last => entry.watcher.pollInterval ≤ now - last

/-- The indices of the due watchers; the clock is read for each watcher. -/
def dueWatchers (watchers : List WatcherEntry) (now : ℕ → ℕ) : List ℕ :=
  (watchers.zipIdx.filter fun e => e.1.shouldPoll (now e.2)).map Prod.snd

/-- `entry.last_poll = Some(Instant::now())`. -/
def markPolled (watchers : List WatcherEntry) (idx : ℕ) (now : ℕ) : List WatcherEntry :=
  watchers.modify idx fun entry => { entry with lastPoll := some now }

theorem mem_dueWatchers {watchers : List WatcherEntry} {now : ℕ → ℕ} {idx : ℕ} :
    idx ∈ dueWatchers watchers now ↔
      ∃ entry, watchers[idx]? = some entry ∧ entry.shouldPoll (now idx) := by
  simp [dueWatchers, List.mem_zipIdx_iff_getElem?]

theorem nodup_dueWatchers (watchers : List WatcherEntry) (now : ℕ → ℕ) :
    (dueWatchers watchers now).Nodup := by
  have indices : (watchers.zipIdx.map Prod.snd).Nodup := by
    rw [List.zipIdx_map_snd]
    exact List.nodup_range'
  exact indices.sublist (List.filter_sublist.map _)

/-! ## Emission -/

namespace ChangeEvent

/-- The event of a change. -/
def systemEvent (change : ChangeEvent) : SystemEvent F64 :=
  .monitoringChangeDetected change.id change.watcherKind change.subject change.changeType
    change.previousState change.currentState change.detectedAt

/-- `obj_data`: the keys of a JSON object are sorted. -/
def objData (change : ChangeEvent) (timeText : OffsetDateTime → String) : Json :=
  .obj [("change_type", .str change.changeType), ("current_state", change.currentState),
    ("detected_at", .str (timeText change.detectedAt)), ("id", .str change.id),
    ("metadata", .obj ((sortTexts change.metadata.keys).map fun key =>
      (key, .str ((change.metadata.lookup key).getD "")))),
    ("previous_state", change.previousState.getD .null), ("subject", .str change.subject),
    ("watcher_kind", .str change.watcherKind)]

end ChangeEvent

variable {W : Type} (host : Host W)

/-- Emit a change event through kernel APIs: event store, objects, event bus. -/
def emitChange (change : ChangeEvent) (w : W) : Except CoreError Unit × W :=
  let version := host.latestVersion change.id w + 1
  let (id, now, w) := host.fresh w
  match host.append (change.systemEvent.intoEnvelope version id now) w with
  | (.error e, w) => (.error (.ofEventStore e), w)
  | (.ok (), w) =>
    let data := (change.objData host.timeText).toVec
    let w := host.create "monitoring_change" ("change-" ++ change.id) data w
    (.ok (), host.publish ("monitoring." ++ change.watcherKind) data w)

/-! ## A pass -/

/-- What a pass does at its host. -/
inductive Step where
  | polled (idx : ℕ) (result : Except CoreError (List ChangeEvent))
  | emitted (change : ChangeEvent) (result : Except CoreError Unit)

/-- The state of a pass, with the steps that it has taken. -/
structure Pass (W : Type) where
  watchers : List WatcherEntry
  world : W
  total : ℕ
  steps : List Step

/-- The changes of a poll; a failed poll is logged and has none. -/
def changesOf : Except CoreError (List ChangeEvent) → List ChangeEvent
  | .ok changes => changes
  | .error _ => []

namespace Pass

/-- The critical section in which a watcher is polled. -/
def pollWatcher (p : Pass W) (idx : ℕ) (now : ℕ) : List ChangeEvent × Pass W :=
  let polled := host.poll idx p.world
  (changesOf polled.1, { p with
    watchers := markPolled p.watchers idx now
    world := polled.2
    steps := p.steps ++ [.polled idx polled.1] })

/-- Emit a change, and note that it was. -/
def emit (p : Pass W) (change : ChangeEvent) : Except CoreError Unit × Pass W :=
  let emitted := emitChange host change p.world
  (emitted.1, { p with world := emitted.2, steps := p.steps ++ [.emitted change emitted.1] })

/-- The loop over the changes of a poll.  `poll_due` stops at a failure; the background loop logs it and goes
on. -/
def emitAll (stops : Bool) : List ChangeEvent → Pass W → Except CoreError Unit × Pass W
  | [], p => (.ok (), p)
  | change :: changes, p =>
    match p.emit host change with
    | (.error e, p) =>
      if stops then (.error e, p) else emitAll stops changes { p with total := p.total + 1 }
    | (.ok (), p) => emitAll stops changes { p with total := p.total + 1 }

/-- The loop over the due watchers; the clock is read at each poll. -/
def pollAll (stops : Bool) (now : ℕ → ℕ) : List ℕ → Pass W → Except CoreError Unit × Pass W
  | [], p => (.ok (), p)
  | idx :: due, p =>
    if p.watchers.length ≤ idx then pollAll stops now due p
    else
      let (changes, p) := p.pollWatcher host idx (now idx)
      match p.emitAll host stops changes with
      | (.error e, p) => (.error e, p)
      | (.ok (), p) => pollAll stops now due p

/-- The state in which a pass begins. -/
def begin (watchers : List WatcherEntry) (w : W) : Pass W := ⟨watchers, w, 0, []⟩

end Pass

/-- Poll all watchers whose interval has elapsed. Returns total changes detected. -/
def pollDue (watchers : List WatcherEntry) (listed polled : ℕ → ℕ) (w : W) :
    Except CoreError ℕ × Pass W :=
  match (Pass.begin watchers w).pollAll host true polled (dueWatchers watchers listed) with
  | (.error e, p) => (.error e, p)
  | (.ok (), p) => (.ok p.total, p)

/-- A round of the loop of `start_background`. -/
def backgroundPass (watchers : List WatcherEntry) (listed polled : ℕ → ℕ) (w : W) : Pass W :=
  ((Pass.begin watchers w).pollAll host false polled (dueWatchers watchers listed)).2

end Monitoring

end TORdex
