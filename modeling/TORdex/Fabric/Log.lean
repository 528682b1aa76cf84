import TORdex.Fabric.Steps

/-!
# What the fabric writes to the log

An emit keeps an event exactly when the version it was given follows the event's own aggregate.  When
all ids that a fabric stores satisfy `P`, and no such id begins with `obs_`, no observation is ever
kept: the log consists of the service events of tasks with `P`.
-/

namespace TORdex

open InMemoryEventStore

namespace CollectionFabric

/-! ## Which events an emit keeps -/

section Emit

variable (events : InMemoryEventStore) (e : SystemEvent F64) (ulid : Ulid) (now : OffsetDateTime)

theorem emit_own {a : String} (ha : e.aggregateId = a) :
    emit events a e ulid now = events.push (e.intoEnvelope (events.latestVersion a + 1) ulid now) :=
  appendOk_of_version _ _ _ _ (by rw [ha])

theorem emit_aligned {a : String} (h : events.latestVersion a = events.latestVersion e.aggregateId) :
    emit events a e ulid now = events.push (e.intoEnvelope (events.latestVersion a + 1) ulid now) :=
  appendOk_of_version _ _ _ _ (by rw [h])

theorem emit_misaligned {a : String}
    (h : events.latestVersion a ≠ events.latestVersion e.aggregateId) :
    emit events a e ulid now = events :=
  appendOk_of_version_ne _ _ _ _ fun hv => h (Nat.succ.inj hv)

end Emit

theorem obs_ne (id : String) : "obs_" ++ id ≠ id := by
  intro h
  have lengths := congrArg String.length h
  rw [String.length_append] at lengths
  have : "obs_".length = 4 := rfl
  omega

section Running

variable (f : CollectionFabric) (r : Readings)

theorem runningEvents_eq (id : String) :
    f.runningEvents id r = f.events.push ((runningEvent id).intoEnvelope
      (f.events.latestVersion id + 1) (r.ulid 0) (r.now 1)) :=
  emit_own f.events (runningEvent id) (r.ulid 0) (r.now 1) rfl

/-- The running event counts for the task's aggregate only. -/
theorem latestVersion_runningEvents (id a : String) :
    (f.runningEvents id r).latestVersion a =
      f.events.latestVersion a + if id = a then 1 else 0 := by
  rw [runningEvents_eq, latestVersion_push]
  rfl

end Running

/-! ## The log only grows -/

/-- A store with more events, whose indexes are kept. -/
structure Grows (before after : InMemoryEventStore) : Prop where
  indexed : Indexed before → Indexed after
  kept : ∀ e ∈ before.events, e ∈ after.events

theorem Grows.refl (events : InMemoryEventStore) : Grows events events := ⟨id, fun _ h => h⟩

theorem Grows.trans {a b c : InMemoryEventStore} (h : Grows a b) (h' : Grows b c) : Grows a c :=
  ⟨h'.indexed ∘ h.indexed, fun e he => h'.kept e (h.kept e he)⟩

theorem grows_emit (events : InMemoryEventStore) (a : String) (e : SystemEvent F64) (ulid : Ulid)
    (now : OffsetDateTime) : Grows events (emit events a e ulid now) := by
  refine ⟨fun h => h.appendOk _, fun x hx => ?_⟩
  unfold emit
  rw [appendOk_eq]
  split_ifs
  · exact List.mem_append_left _ hx
  · exact hx

theorem grows_submit (f : CollectionFabric) (task : CollectionTask) (r : Readings) :
    Grows f.events (f.submit task r).2.events := by
  unfold submit
  cases he : f.queue.enqueue task (r.now 1) with
  | error e => simpa only [he] using Grows.refl _
  | ok queue => simpa only [he] using grows_emit _ _ _ _ _

/-- A cancellation writes no event. -/
theorem events_cancel {f f' : CollectionFabric} {taskId : String} {r : Readings}
    {result : Except FabricError Unit} (h : f.cancel taskId r = some (result, f')) :
    f'.events = f.events := by
  unfold cancel at h
  split at h
  · cases h
  · dsimp only at h
    split at h <;> (cases h; rfl)
  · split at h
    · cases h
      rfl
    · split at h <;> (cases h; rfl)

theorem grows_processNext (f : CollectionFabric) (drivers : DriverRegistry) (r : Readings) :
    Grows f.events (f.processNext drivers r).fabric.events := by
  have called := processNext_step f drivers r
  generalize f.processNext drivers r = p at called ⊢
  cases called with
  | stopped _ | empty _ _ | refused _ _ _ _ _ _ => exact Grows.refl _
  | success _ _ _ _ _ _ _ _ _ => exact (grows_emit _ _ _ _ _).trans (grows_emit _ _ _ _ _)
  | failure _ _ _ _ _ _ _ _ _ => exact (grows_emit _ _ _ _ _).trans (grows_emit _ _ _ _ _)

/-! ## Whose events are in the log -/

/-- The id is not the aggregate of an observation. -/
def PlainId (id : String) : Prop := ∀ taskId, id ≠ "obs_" ++ taskId

/-- A registration or an update of a service whose id satisfies `P`. -/
def ServiceEvent (P : String → Prop) : SystemEvent F64 → Prop
  | .serviceRegistered id .. | .serviceUpdated id .. => P id
  | _ => False

theorem ServiceEvent.aggregateId {P : String → Prop} {e : SystemEvent F64}
    (h : ServiceEvent P e) : P e.aggregateId := by
  cases e <;> first | exact h | exact h.elim

/-- The queued tasks, the index and the log are about ids that satisfy `P`. -/
structure Within (P : String → Prop) (f : CollectionFabric) : Prop where
  indexed : Indexed f.events
  queued : ∀ entry ∈ f.queue.heap, P entry.task.id
  named : ∀ id, (f.queue.byId.lookup id).isSome → P id
  logged : ∀ envelope ∈ f.events.events, ∃ e version ulid now,
    envelope = SystemEvent.intoEnvelope e version ulid now ∧ ServiceEvent P e

theorem within_new (P : String → Prop) : Within P (new .new) :=
  ⟨indexed_new, fun _ h => absurd h List.not_mem_nil, fun _ h => absurd h Bool.false_ne_true,
    fun _ h => absurd h List.not_mem_nil⟩

section Within

variable {P : String → Prop} {f : CollectionFabric}

/-- Two fabrics with the same log, the second with no more tasks in its queue. -/
theorem Within.of_subset (h : Within P f) {f' : CollectionFabric} (events : f'.events = f.events)
    (heap : ∀ entry ∈ f'.queue.heap, entry ∈ f.queue.heap)
    (byId : ∀ id, (f'.queue.byId.lookup id).isSome →
      (f.queue.byId.lookup id).isSome ∨ ∃ entry ∈ f.queue.heap, entry.task.id = id) :
    Within P f' := by
  refine ⟨events ▸ h.indexed, fun entry hm => h.queued entry (heap entry hm), fun id hid => ?_,
    events ▸ h.logged⟩
  rcases byId id hid with hid | ⟨entry, hm, rfl⟩
  · exact h.named id hid
  · exact h.queued entry hm

/-- Appending a service event. -/
theorem logged_push {events : InMemoryEventStore} {e : SystemEvent F64}
    (h : ∀ envelope ∈ events.events, ∃ e version ulid now,
      envelope = SystemEvent.intoEnvelope e version ulid now ∧ ServiceEvent P e)
    (he : ServiceEvent P e) (version : ℕ) (ulid : Ulid) (now : OffsetDateTime) :
    ∀ envelope ∈ (events.push (e.intoEnvelope version ulid now)).events, ∃ e version ulid now,
      envelope = SystemEvent.intoEnvelope e version ulid now ∧ ServiceEvent P e := by
  intro envelope hm
  rcases List.mem_append.1 hm with hm | hm
  · exact h envelope hm
  · exact ⟨e, version, ulid, now, List.mem_singleton.1 hm, he⟩

variable (h : Within P f)
include h

/-- The aggregate of an observation has no history. -/
theorem Within.latestVersion_obs (hP : ∀ id, P id → PlainId id) (id : String) :
    f.events.latestVersion ("obs_" ++ id) = 0 := by
  rw [latestVersion_eq h.indexed, List.length_eq_zero_iff, List.filter_eq_nil_iff]
  intro envelope hm ha
  obtain ⟨e, version, ulid, now, rfl, he⟩ := h.logged envelope hm
  exact hP _ he.aggregateId id (by simpa [ofAggregate, SystemEvent.intoEnvelope] using ha)

/-- So no success aligns. -/
theorem Within.not_aligned (hP : ∀ id, P id → PlainId id) (id : String) :
    f.events.latestVersion ("obs_" ++ id) ≠ f.events.latestVersion id + 1 := by
  rw [h.latestVersion_obs hP]
  exact (Nat.succ_ne_zero _).symm

theorem Within.submit {task : CollectionTask} (ht : P task.id) (r : Readings) :
    Within P (f.submit task r).2 := by
  unfold CollectionFabric.submit
  cases he : f.queue.enqueue task (r.now 1) with
  | error e => simpa only [he] using ⟨h.indexed, h.queued, h.named, h.logged⟩
  | ok queue =>
    have heap := (PriorityQueue.enqueue_ok he).2
    have byId := PriorityQueue.byId_enqueue he
    have own : (queuedEvent task).aggregateId = task.id := rfl
    have service : ServiceEvent P (queuedEvent task) := ht
    simp only [he]
    rw [emit_own _ _ _ _ own]
    refine ⟨h.indexed.push _, fun entry hm => ?_, fun id hid => ?_,
      logged_push h.logged service _ _ _⟩
    · rcases List.mem_cons.1 (heap.mem_iff.1 hm) with rfl | hm
      · exact ht
      · exact h.queued entry hm
    · by_cases hk : id = task.id
      · exact hk ▸ ht
      · dsimp only at hid
        rw [byId, Finmap.lookup_insert_of_ne _ hk] at hid
        exact h.named id hid

theorem Within.cancel {f' : CollectionFabric} {taskId : String} {r : Readings}
    {result : Except FabricError Unit} (hc : f.cancel taskId r = some (result, f')) :
    Within P f' := by
  have events := events_cancel hc
  suffices queue : f'.queue = f.queue ∨ f.queue.cancel taskId = some (.ok f'.queue) by
    rcases queue with queue | queue
    · apply h.of_subset events
      · rw [queue]
        exact fun _ hm => hm
      · rw [queue]
        exact fun _ hid => .inl hid
    · exact h.of_subset events (PriorityQueue.cancel_ok queue).1 (PriorityQueue.cancel_ok queue).2
  unfold CollectionFabric.cancel at hc
  split at hc
  · cases hc
  · rename_i queue hq
    right
    rw [hq]
    dsimp only at hc
    split at hc <;> (cases hc; rfl)
  · left
    split at hc
    · cases hc
      rfl
    · split at hc <;> (cases hc; rfl)

/-- What is left in the queue after a dequeue, and the task taken off it. -/
theorem Within.dequeue {task : CollectionTask} {queue : PriorityQueue}
    (hd : f.queue.dequeue = some (task, queue)) :
    P task.id ∧ (∀ entry ∈ queue.heap, P entry.task.id) ∧
      ∀ id, (queue.byId.lookup id).isSome → P id := by
  obtain ⟨⟨entry, rfl, -, heap⟩, byId⟩ := PriorityQueue.dequeue_some hd
  refine ⟨h.queued entry (heap.mem_iff.1 List.mem_cons_self),
    fun x hx => h.queued x (heap.mem_iff.1 (List.mem_cons_of_mem _ hx)), fun id hid => ?_⟩
  rw [byId, Finmap.lookup_isSome] at hid
  exact h.named id (Finmap.lookup_isSome.2 (Finmap.mem_erase.1 hid).2)

theorem Within.processNext (hP : ∀ id, P id → PlainId id) (drivers : DriverRegistry)
    (r : Readings) : Within P (f.processNext drivers r).fabric := by
  have called := processNext_step f drivers r
  generalize f.processNext drivers r = p at called ⊢
  cases called with
  | stopped _ | empty _ _ => exact h
  | refused task queue e hr hd hs =>
    obtain ⟨-, queued, named⟩ := h.dequeue hd
    exact ⟨h.indexed, queued, named, h.logged⟩
  | success task queue s output hr hd hl hq ho =>
    obtain ⟨hid, queued, named⟩ := h.dequeue hd
    have dropped : (f.afterSuccess task queue s output r).events = f.runningEvents task.id r := by
      refine emit_misaligned _ _ _ _ ?_
      rw [latestVersion_runningEvents, latestVersion_runningEvents, if_pos rfl]
      exact fun he => h.not_aligned hP task.id (by simpa [successEvent, (obs_ne task.id).symm,
        SystemEvent.aggregateId] using he.symm)
    have running : ServiceEvent P (runningEvent task.id) := hid
    rw [runningEvents_eq] at dropped
    exact ⟨dropped ▸ h.indexed.push _, queued, named, dropped ▸ logged_push h.logged running _ _ _⟩
  | failure task queue s e hr hd hl hq ho =>
    obtain ⟨hid, queued, named⟩ := h.dequeue hd
    have kept : (f.afterFailure task queue s e r).events = _ :=
      emit_own (f.runningEvents task.id r) (failureEvent task.id) (r.ulid 1) (r.now 4) rfl
    have running : ServiceEvent P (runningEvent task.id) := hid
    have failed : ServiceEvent P (failureEvent task.id) := hid
    rw [runningEvents_eq] at kept
    refine ⟨kept ▸ (h.indexed.push _).push _, ?_, ?_,
      kept ▸ logged_push (logged_push h.logged running _ _ _) failed _ _ _⟩
    · simp only [afterFailure]
      split_ifs
      · obtain ⟨entry, hentry, heap⟩ := requeued_perm hd (r.now 3)
        intro x hx
        rcases List.mem_cons.1 (heap.mem_iff.1 hx) with rfl | hx
        · exact hentry ▸ hid
        · exact queued x hx
      · exact queued
    · simp only [afterFailure]
      split_ifs
      · intro id hk
        unfold requeued at hk
        split at hk
        · exact named id hk
        · rename_i queue' he
          rw [PriorityQueue.byId_enqueue he] at hk
          by_cases same : id = task.id
          · exact same ▸ hid
          · rw [Finmap.lookup_insert_of_ne _ same] at hk
            exact named id hk
      · exact named

end Within

end CollectionFabric

end TORdex
