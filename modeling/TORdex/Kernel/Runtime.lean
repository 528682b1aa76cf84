import TORdex.Core.Agents
import TORdex.Core.EventStoreRuns
import TORdex.Lib.Runs

/-!
# The kernel runtime loop

`run` ticks the agents, reads the events above the last id it has seen and dispatches them one after the other;
others append to the store meanwhile.  What is dispatched is decided by the id and not by the place in the log:
an event is dispatched exactly when its id is above the `cursor` of the loop at the moment it is appended.
-/

namespace TORdex.KernelRuntime

open InMemoryEventStore Agents

/-- Where the loop stands; in a round it holds what `read_since` returned and what of that is left. -/
inductive Position where
  | ticking
  | reading
  | dispatching (newEvents remaining : List EventEnvelope)

/-- The events that the round has left. -/
def Position.remaining : Position → List EventEnvelope
  | .dispatching _ remaining => remaining
  | _ => []

/-- The store, the agents' state and the loop, with the events dispatched so far and the calls they led to. -/
structure State (W : Type) where
  eventStore : InMemoryEventStore
  world : W
  lastEventId : Ulid
  position : Position
  dispatched : List EventEnvelope
  calls : List (AgentId × EventEnvelope)

/-- `Ulid::nil()`. -/
def nil : Ulid := .ofNat 0

/-- Before the first round. -/
def start {W : Type} (world : W) : State W := ⟨.new, world, nil, .ticking, [], []⟩

/-- An append from outside the loop, or the next instruction of the loop with an order of the agents. -/
inductive Action where
  | append (event : EventEnvelope)
  | loop (order : List AgentId)

/-- The instructions of the loop. -/
def Action.isLoop : Action → Bool
  | .append _ => false
  | .loop _ => true

/-- The end of `dispatch_new_events`: the id of the last event read, if it is larger. -/
def advance (lastId : Ulid) (newEvents : List EventEnvelope) : Ulid :=
  match newEvents.getLast? with
  | some last => if lastId.value < last.id.value then last.id else lastId
  | none => lastId

section Step

variable {W : Type} (runtime : InMemoryAgentRuntime W)

/-- The next instruction of the loop; what the agents return is dropped. -/
def loopStep (order : List AgentId) (s : State W) : State W :=
  match s.position with
  | .ticking => { s with world := (runtime.tickAll order s.world).world, position := .reading }
  | .reading =>
    let newEvents := s.eventStore.readSince s.lastEventId
    if newEvents.isEmpty then { s with position := .ticking }
    else { s with position := .dispatching newEvents newEvents }
  | .dispatching newEvents (event :: remaining) =>
    let visit := runtime.dispatchEvent event order s.world
    { s with
      world := visit.world
      position := .dispatching newEvents remaining
      dispatched := s.dispatched ++ [event]
      calls := s.calls ++ visit.calls.map fun call => (call.1, event) }
  | .dispatching newEvents [] =>
    { s with lastEventId := advance s.lastEventId newEvents, position := .ticking }

/-- The effect of an action. -/
def step (s : State W) : Action → State W
  | .append event => { s with eventStore := s.eventStore.appendOk event }
  | .loop order => loopStep runtime order s

/-- One if the loop is back at the beginning. -/
def State.roundEnded (s : State W) : ℕ :=
  match s.position with
  | .ticking => 1
  | _ => 0

/-- How many rounds of the loop a run brings to an end. -/
def rounds : State W → List Action → ℕ
  | _, [] => 0
  | s, .append event :: actions => rounds (step runtime s (.append event)) actions
  | s, .loop order :: actions =>
    (loopStep runtime order s).roundEnded + rounds (loopStep runtime order s) actions

end Step

section Loop

variable {W : Type} {runtime : InMemoryAgentRuntime W} {s : State W} {order : List AgentId} {event : EventEnvelope}

/-- The id from which the next round will read. -/
def State.cursor (s : State W) : Ulid :=
  match s.position with
  | .dispatching newEvents _ => advance s.lastEventId newEvents
  | _ => s.lastEventId

/-- What an agent has been called with. -/
def State.handled (s : State W) (id : AgentId) : List EventEnvelope :=
  (s.calls.filter fun call => call.1 = id).map Prod.snd

variable (runtime order) in
/-- What the next instruction of the loop does with the events. -/
inductive Move (s s' : State W) : Prop where
  | tick (same : s'.cursor = s.cursor) (none : s.position.remaining = [] ∧ s'.position.remaining = [])
      (kept : s'.dispatched = s.dispatched ∧ s'.calls = s.calls)
  | read (none : s.position.remaining = [])
      (found : s'.position.remaining = s.eventStore.readSince s.cursor)
      (moved : s'.cursor = advance s.cursor (s.eventStore.readSince s.cursor))
      (kept : s'.dispatched = s.dispatched ∧ s'.calls = s.calls)
  | dispatch (same : s'.cursor = s.cursor) (event : EventEnvelope)
      (first : s.position.remaining = event :: s'.position.remaining)
      (added : s'.dispatched = s.dispatched ++ [event])
      (called : s'.calls = s.calls ++
        (runtime.dispatchEvent event order s.world).calls.map fun call => (call.1, event))

theorem loopStep_eventStore (s : State W) : (loopStep runtime order s).eventStore = s.eventStore := by
  unfold loopStep
  split
  · rfl
  · dsimp only
    split <;> rfl
  · rfl
  · rfl

theorem move_loopStep (s : State W) : Move runtime order s (loopStep runtime order s) := by
  obtain ⟨eventStore, world, lastEventId, position, dispatched, calls⟩ := s
  cases position with
  | ticking => exact .tick rfl ⟨rfl, rfl⟩ ⟨rfl, rfl⟩
  | reading =>
    by_cases empty : (eventStore.readSince lastEventId).isEmpty
    · simp only [loopStep, empty, ↓reduceIte]
      exact .tick rfl ⟨rfl, rfl⟩ ⟨rfl, rfl⟩
    · simp only [loopStep, empty, Bool.false_eq_true, ↓reduceIte]
      exact .read rfl rfl rfl ⟨rfl, rfl⟩
  | dispatching newEvents remaining =>
    cases remaining with
    | nil => exact .tick rfl ⟨rfl, rfl⟩ ⟨rfl, rfl⟩
    | cons event remaining => exact .dispatch rfl event rfl rfl rfl

theorem le_advance (lastId : Ulid) (newEvents : List EventEnvelope) :
    lastId.value ≤ (advance lastId newEvents).value := by
  unfold advance
  split
  · split_ifs with larger
    · exact le_of_lt larger
    · exact le_rfl
  · exact le_rfl

theorem cursor_step (s : State W) (a : Action) : s.cursor.value ≤ (step runtime s a).cursor.value := by
  cases a with
  | append event => exact le_rfl
  | loop order =>
    rw [step]
    cases @move_loopStep W runtime order s with
    | tick same => exact (congrArg Ulid.value same).ge
    | read _ _ moved => exact moved ▸ le_advance _ _
    | dispatch same => exact (congrArg Ulid.value same).ge

theorem mem_readSince {store : InMemoryEventStore} {lastId : Ulid} :
    event ∈ store.readSince lastId ↔ event ∈ store.events ∧ lastId.value < event.id.value := by
  rw [readSince, List.mem_filter, decide_eq_true_eq]

/-! ## What is dispatched at all -/

/-- The event is out of the loop's reach. -/
def Lost (event : EventEnvelope) (s : State W) : Prop :=
  event.id.value ≤ s.cursor.value ∧ event ∉ s.position.remaining ∧ event ∉ s.dispatched

/-- The rounds that have to end until an event that the loop has not read is dispatched: the one under way, and the
next one if that has read already. -/
def Position.roundsLeft : Position → ℕ
  | .dispatching _ _ => 2
  | _ => 1

/-- The event is dispatched, or the loop will come to it before so many rounds end. -/
def Due (event : EventEnvelope) (n : ℕ) (s : State W) : Prop :=
  event ∈ s.dispatched ∨ event ∈ s.position.remaining ∧ 1 ≤ n ∨
    s.cursor.value < event.id.value ∧ s.position.roundsLeft ≤ n

theorem Lost.step (lost : Lost event s) (a : Action) : Lost event (step runtime s a) := by
  cases a with
  | append other => exact lost
  | loop order =>
    obtain ⟨below, notLeft, notDone⟩ := lost
    refine ⟨below.trans (cursor_step s (.loop order)), ?_⟩
    rw [KernelRuntime.step]
    cases @move_loopStep W runtime order s with
    | tick same none kept => exact ⟨by rw [none.2]; exact List.not_mem_nil, by rwa [kept.1]⟩
    | read none found moved kept =>
      refine ⟨?_, by rwa [kept.1]⟩
      rw [found, mem_readSince]
      exact fun inside => absurd inside.2 (not_lt.2 below)
    | dispatch same e first added =>
      rw [first, List.mem_cons, not_or] at notLeft
      refine ⟨notLeft.2, ?_⟩
      rw [added, List.mem_append, List.mem_singleton, not_or]
      exact ⟨notDone, notLeft.1⟩

theorem mem_appendOk {store : InMemoryEventStore} (inside : event ∈ store.events) (other : EventEnvelope) :
    event ∈ (store.appendOk other).events := by
  rw [appendOk_eq]
  split_ifs
  · exact List.mem_append_left _ inside
  · exact inside

/-- One instruction, and a round fewer if it ends one. -/
theorem Due.loop {n : ℕ} (due : Due event n s) (inside : event ∈ s.eventStore.events) :
    Due event (n - (loopStep runtime order s).roundEnded) (loopStep runtime order s) := by
  obtain ⟨store, world, lastId, position, dispatched, calls⟩ := s
  rcases due with done | ⟨left, soon⟩ | ⟨above, soon⟩
  · refine .inl ?_
    cases @move_loopStep W runtime order ⟨store, world, lastId, position, dispatched, calls⟩ with
    | tick _ _ kept => exact kept.1 ▸ done
    | read _ _ _ kept => exact kept.1 ▸ done
    | dispatch _ e _ added => exact added ▸ List.mem_append_left _ done
  · cases position with
    | ticking => cases left
    | reading => cases left
    | dispatching newEvents remaining =>
      cases remaining with
      | nil => cases left
      | cons e remaining =>
        rcases List.mem_cons.1 left with rfl | later
        · exact .inl (List.mem_append_right _ (List.mem_singleton_self event))
        · exact .inr (.inl ⟨later, soon⟩)
  · cases position with
    | ticking => exact .inr (.inr ⟨above, soon⟩)
    | reading =>
      have read : event ∈ store.readSince lastId := mem_readSince.2 ⟨inside, above⟩
      have some : ¬(store.readSince lastId).isEmpty := fun empty =>
        List.not_mem_nil (List.isEmpty_iff.1 empty ▸ read)
      simp only [loopStep, some, Bool.false_eq_true, ↓reduceIte]
      exact .inr (.inl ⟨read, soon⟩)
    | dispatching newEvents remaining =>
      cases remaining with
      | nil => exact .inr (.inr ⟨above, Nat.le_sub_of_add_le soon⟩)
      | cons e remaining => exact .inr (.inr ⟨above, soon⟩)

/-- The store numbers its events, and the loop only holds events of the store. -/
structure Held (s : State W) : Prop where
  sound : Sound s.eventStore
  remaining : s.position.remaining ⊆ s.eventStore.events
  dispatched : s.dispatched ⊆ s.eventStore.events

theorem held_start (world : W) : Held (start world) :=
  ⟨sound_new, List.nil_subset _, List.nil_subset _⟩

theorem Held.step (held : Held s) (a : Action) : Held (step runtime s a) := by
  obtain ⟨sound, remaining, dispatched⟩ := held
  cases a with
  | append other =>
    exact ⟨sound.appendOk other, fun e he => mem_appendOk (remaining he) other,
      fun e he => mem_appendOk (dispatched he) other⟩
  | loop order =>
    rw [KernelRuntime.step]
    refine ⟨by rwa [loopStep_eventStore], ?_, ?_⟩
    · rw [loopStep_eventStore]
      cases @move_loopStep W runtime order s with
      | tick same none kept => exact none.2 ▸ List.nil_subset _
      | read none found moved kept => exact found ▸ List.filter_subset_self _
      | dispatch same e first added => exact fun x hx => remaining (first ▸ List.mem_cons_of_mem _ hx)
    · rw [loopStep_eventStore]
      cases @move_loopStep W runtime order s with
      | tick same none kept => exact kept.1 ▸ dispatched
      | read none found moved kept => exact kept.1 ▸ dispatched
      | dispatch same e first added =>
        rw [added]
        refine List.append_subset.2 ⟨dispatched, ?_⟩
        exact fun x hx => remaining (first ▸ List.mem_singleton.1 hx ▸ List.mem_cons_self)

/-- An event that the store takes is not in it yet: its version is new for its aggregate. -/
theorem not_mem_of_accepts {store : InMemoryEventStore} (sound : Sound store) (accepts : store.Accepts event) :
    event ∉ store.events := by
  intro inside
  have own : ofAggregate event.aggregateId event = true := beq_self_eq_true _
  have version := List.mem_map_of_mem (f := EventEnvelope.version) (List.mem_filter.2 ⟨inside, own⟩)
  rw [sound.versioned, List.mem_range'_1, ← latestVersion_eq sound.indexed] at version
  rw [Accepts] at accepts
  omega

theorem Due.now (due : Due event 0 s) : event ∈ s.dispatched := by
  rcases due with done | ⟨-, soon⟩ | ⟨-, soon⟩
  · exact done
  · cases soon
  · cases position : s.position <;> simp [position, Position.roundsLeft] at soon

theorem Due.run {actions : List Action} {n : ℕ} (due : Due event n s) (inside : event ∈ s.eventStore.events)
    (enough : n ≤ rounds runtime s actions) : event ∈ (actions.foldl (step runtime) s).dispatched := by
  induction actions generalizing s n with
  | nil =>
    obtain rfl : n = 0 := Nat.le_zero.1 enough
    exact due.now
  | cons a actions ih =>
    cases a with
    | append other => exact ih due (mem_appendOk inside other) enough
    | loop order =>
      rw [rounds] at enough
      have next : Due event (n - (loopStep runtime order s).roundEnded) (loopStep runtime order s) := due.loop inside
      exact ih next ((loopStep_eventStore s).symm ▸ inside) (Nat.sub_le_of_le_add (Nat.add_comm _ _ ▸ enough))

/-- A round that has read goes on for an instruction for each event it has left, and one to end. -/
theorem rounds_pos {actions : List Action} {newEvents remaining : List EventEnvelope}
    (position : s.position = .dispatching newEvents remaining)
    (enough : remaining.length + 1 ≤ actions.countP Action.isLoop) : 1 ≤ rounds runtime s actions := by
  induction actions generalizing s remaining with
  | nil => cases enough
  | cons a actions ih =>
    cases a with
    | append other => exact ih position enough
    | loop order =>
      rw [List.countP_cons_of_pos rfl] at enough
      obtain ⟨store, world, lastId, _, dispatched, calls⟩ := s
      cases position
      cases remaining with
      | nil =>
        rw [rounds]
        exact Nat.le_add_right 1 _
      | cons event remaining =>
        rw [rounds]
        exact (ih rfl (Nat.le_of_succ_le_succ enough)).trans (Nat.le_add_left _ _)

theorem Lost.run (lost : Lost event s) (actions : List Action) :
    Lost event (actions.foldl (KernelRuntime.step runtime) s) := by
  induction actions generalizing s with
  | nil => exact lost
  | cons a actions ih => exact ih (lost.step a)

theorem held_of_reached {allowed : State W → Action → Prop} {world : W}
    (reached : Reached (step runtime) allowed (start world) s) : Held s :=
  reached.invariant (held_start world) fun _ a held _ => held.step a

/-- **An event that the store takes is dispatched if and only if its id is above the cursor of the loop**, and then
before the round under way has ended, and the next one if that has read already, whatever else is appended.  A
round that has read ends. -/
theorem dispatched_iff {world : W} (reached : Reached (step runtime) (fun _ _ => True) (start world) s)
    (accepts : s.eventStore.Accepts event) (later : List Action) :
    let s' := step runtime s (.append event)
    (event.id.value ≤ s.cursor.value → event ∉ (later.foldl (step runtime) s').dispatched) ∧
      (s.cursor.value < event.id.value → s.position.roundsLeft ≤ rounds runtime s' later →
        event ∈ (later.foldl (step runtime) s').dispatched) ∧
      ∀ newEvents remaining, s.position = .dispatching newEvents remaining →
        remaining.length + 1 ≤ later.countP Action.isLoop → 1 ≤ rounds runtime s' later := by
  have held := held_of_reached reached
  have fresh := not_mem_of_accepts held.sound accepts
  refine ⟨fun below => ?_, fun above enough => ?_, fun newEvents remaining position => rounds_pos position⟩
  · have lost : Lost event (step runtime s (.append event)) :=
      ⟨below, fun left => fresh (held.remaining left), fun done => fresh (held.dispatched done)⟩
    exact (lost.run later).2.2
  · have pushed : s.eventStore.appendOk event = s.eventStore.push event :=
      (appendOk_eq _ _).trans (if_pos accepts)
    have taken : event ∈ (s.eventStore.appendOk event).events := by
      rw [pushed]
      exact List.mem_append_right _ (List.mem_singleton_self event)
    exact Due.run (.inr (.inr ⟨above, le_rfl⟩)) taken enough

/-- A loop without agents that has read an event with the id 5 and is about to dispatch it. -/
def afterRead : State Unit :=
  [.append (sampleEvent 5 "a1"), .loop [], .loop []].foldl (step ⟨∅⟩) (start ())

/-- The rest of the round and the next one, with appends before the instructions. -/
def twoRounds : List Action :=
  [.append (sampleEvent 7 "c1"), .loop [], .append (sampleEvent 8 "d1"), .loop [], .append (sampleEvent 9 "e1"),
    .loop [], .loop [], .append (sampleEvent 10 "f1"), .loop [], .loop [], .loop [], .loop [], .loop []]

/-- The ULID 3 was drawn before 5 and appended when 5 has been read: no agent ever sees its event.  The event of 6
comes in the next round, whatever is appended. -/
theorem dispatched_afterRead :
    (∀ later : List Action, sampleEvent 3 "b1" ∉
      (later.foldl (step ⟨∅⟩) (step ⟨∅⟩ afterRead (.append (sampleEvent 3 "b1")))).dispatched) ∧
    sampleEvent 6 "b1" ∈
      (twoRounds.foldl (step ⟨∅⟩) (step ⟨∅⟩ afterRead (.append (sampleEvent 6 "b1")))).dispatched ∧
    1 ≤ rounds ⟨∅⟩ (step ⟨∅⟩ afterRead (.append (sampleEvent 6 "b1"))) (twoRounds.take 4) := by
  have reached : Reached (step ⟨∅⟩) (fun _ _ => True) (start ()) afterRead :=
    reached_foldl _ _ _
  refine ⟨fun later => ?_, ?_, ?_⟩
  · exact (dispatched_iff reached (by decide : _ = _) later).1 (by decide)
  · exact (dispatched_iff reached (by decide : _ = _) _).2.1 (by decide) (by decide)
  · exact (dispatched_iff reached (by decide : _ = _) _).2.2 _ _ rfl (by decide)

/-! ## Exactly once, and in order -/

variable (runtime) in
/-- The loop visits the agents of the map, and the store takes no event whose id is not above all it has. -/
def Orderly (s : State W) : Action → Prop
  | .append event => (s.eventStore.Accepts event → nil.value < event.id.value) ∧ s.eventStore.Above event
  | .loop order => (order : Multiset AgentId) = runtime.agents.keys.val

variable (runtime) in
/-- No registered agent fails to handle an event. -/
def NeverFails : Prop :=
  ∀ id agent, runtime.agents.lookup id = some agent → ∀ event w, (agent.handleEvent event w).1 = .ok ()

/-- The log is what is dispatched, then what the round holds, then what the next round will read. -/
structure InOrder (s : State W) : Prop where
  increasing : s.eventStore.events.Pairwise fun a b => a.id.value < b.id.value
  known : s.cursor = nil ∨ ∃ e ∈ s.eventStore.events, e.id = s.cursor
  split : s.dispatched ++ s.position.remaining ++ s.eventStore.readSince s.cursor = s.eventStore.events

theorem inOrder_start (world : W) : InOrder (start world) := ⟨List.Pairwise.nil, .inl rfl, rfl⟩

theorem advance_eq (lastId : Ulid) (newEvents : List EventEnvelope) :
    advance lastId newEvents = lastId ∨ ∃ e ∈ newEvents, e.id = advance lastId newEvents := by
  unfold advance
  split
  · next last found =>
    split_ifs
    · exact .inr ⟨last, List.mem_of_getLast? found, rfl⟩
    · exact .inl rfl
  · exact .inl rfl

/-- The last event read of an increasing log is its last one: there is nothing above it. -/
theorem readSince_advance {store : InMemoryEventStore} {before : List EventEnvelope} {lastId : Ulid}
    (increasing : store.events.Pairwise fun a b => a.id.value < b.id.value)
    (split : before ++ store.readSince lastId = store.events) :
    store.readSince (advance lastId (store.readSince lastId)) = [] := by
  cases found : (store.readSince lastId).getLast? with
  | none =>
    have empty := List.getLast?_eq_none_iff.1 found
    rw [empty, advance]
    exact empty
  | some last =>
    obtain ⟨front, ends⟩ := List.getLast?_eq_some_iff.1 found
    have atLeast : last.id.value ≤ (advance lastId (store.readSince lastId)).value := by
      rw [advance, found]
      dsimp only
      split_ifs with larger
      · exact le_rfl
      · exact not_lt.1 larger
    rw [ends, ← List.append_assoc] at split
    rw [readSince, List.filter_eq_nil_iff]
    intro e inside
    rw [decide_eq_true_eq, not_lt]
    refine le_trans ?_ atLeast
    rw [← split] at inside increasing
    rcases List.mem_append.1 inside with earlier | here
    · exact le_of_lt ((List.pairwise_append.1 increasing).2.2 e earlier last (List.mem_singleton_self last))
    · exact List.mem_singleton.1 here ▸ le_rfl

theorem InOrder.append (inOrder : InOrder s) (orderly : Orderly runtime s (.append event)) :
    InOrder (step runtime s (.append event)) := by
  obtain ⟨increasing, known, split⟩ := inOrder
  obtain ⟨positive, above⟩ := orderly
  have increasing' := (pairwise_appendOk s.eventStore event).2 ⟨increasing, above⟩
  by_cases accepts : s.eventStore.Accepts event
  · have pushed : (s.eventStore.appendOk event).events = s.eventStore.events ++ [event] := by
      rw [(appendOk_eq _ _).trans (if_pos accepts)]
      rfl
    have beyond : s.cursor.value < event.id.value := by
      rcases known with first | ⟨e, inside, same⟩
      · exact first ▸ positive accepts
      · exact same ▸ above accepts e inside
    refine ⟨increasing', ?_, ?_⟩
    · refine known.imp_right fun ⟨e, inside, same⟩ => ⟨e, mem_appendOk inside event, same⟩
    · show s.dispatched ++ s.position.remaining ++ (s.eventStore.appendOk event).readSince s.cursor = _
      rw [readSince, pushed, List.filter_append, List.filter_cons_of_pos (by simpa using beyond), List.filter_nil,
        ← List.append_assoc]
      exact (congrArg (· ++ [event]) split).trans pushed.symm
  · have same : s.eventStore.appendOk event = s.eventStore := (appendOk_eq _ _).trans (if_neg accepts)
    rw [step, same]
    exact ⟨increasing, known, split⟩

theorem InOrder.loop (inOrder : InOrder s) : InOrder (loopStep runtime order s) := by
  obtain ⟨increasing, known, split⟩ := inOrder
  have store := @loopStep_eventStore W runtime order s
  refine ⟨store ▸ increasing, ?_, ?_⟩
  · rw [store]
    cases @move_loopStep W runtime order s with
    | tick same none kept => exact same ▸ known
    | read none found moved kept =>
      rw [moved]
      rcases advance_eq s.cursor (s.eventStore.readSince s.cursor) with same | ⟨e, read, same⟩
      · rwa [same]
      · exact .inr ⟨e, (mem_readSince.1 read).1, same⟩
    | dispatch same e first added called => exact same ▸ known
  · rw [store]
    cases @move_loopStep W runtime order s with
    | tick same none kept => rwa [same, none.2, kept.1, ← none.1]
    | read none found moved kept =>
      rw [none, List.append_nil] at split
      rw [moved, found, kept.1, readSince_advance increasing split, List.append_nil]
      exact split
    | dispatch same e first added called =>
      rw [first] at split
      rw [same, added, List.append_assoc s.dispatched]
      exact split

theorem InOrder.step (inOrder : InOrder s) (a : Action) (orderly : Orderly runtime s a) :
    InOrder (step runtime s a) := by
  cases a with
  | append event => exact inOrder.append orderly
  | loop order => exact inOrder.loop

theorem goesThrough_of_neverFails (ok : NeverFails runtime) (order : List AgentId) (event : EventEnvelope) (w : W) :
    GoesThrough (·.handleEvent event) (runtime.listed order) w := by
  have each : ∀ e ∈ runtime.listed order, ∀ w, (e.2.handleEvent event w).1 = .ok () := by
    intro e mem
    obtain ⟨id, -, found⟩ := List.mem_filterMap.1 mem
    obtain ⟨agent, lookup, rfl⟩ := Option.map_eq_some_iff.1 found
    exact ok id agent lookup event
  generalize runtime.listed order = agents at each
  induction agents generalizing w with
  | nil => trivial
  | cons e agents ih =>
    cases agents with
    | nil => trivial
    | cons next agents => exact ⟨each e List.mem_cons_self w, ih _ fun e' mem => each e' (List.mem_cons_of_mem _ mem)⟩

/-- An event dispatched without a failure is one call of every agent. -/
theorem handled_dispatch (ok : NeverFails runtime) (keys : (order : Multiset AgentId) = runtime.agents.keys.val)
    {id : AgentId} (registered : id ∈ runtime.agents) (event : EventEnvelope) (w : W) :
    ((((runtime.dispatchEvent event order w).calls.map fun call => (call.1, event)).filter
      fun call => call.1 = id).map Prod.snd) = [event] := by
  have nodup : order.Nodup := by
    rw [← Multiset.coe_nodup, keys]
    exact runtime.agents.keys.nodup
  have listed : id ∈ order := by
    rwa [← Multiset.mem_coe, keys, ← Finset.mem_def, Finmap.mem_keys]
  have called : (runtime.dispatchEvent event order w).calls.map Prod.fst = order :=
    (calls_eq_iff.2 (goesThrough_of_neverFails ok order event w)).trans (ids_listed keys)
  have pairs : ((runtime.dispatchEvent event order w).calls.map fun call => (call.1, event)) =
      order.map fun id => (id, event) := by
    refine Eq.trans ?_ (congrArg (List.map fun id => (id, event)) called)
    rw [List.map_map]
    rfl
  have once : (order.filter fun other => other = id) = [id] := by
    rw [List.filter_eq, List.count_eq_one_of_mem nodup listed]
    rfl
  rw [pairs, List.filter_map, Function.comp_def, once]
  rfl

theorem handled_eq (ok : NeverFails runtime) {world : W}
    (reached : Reached (step runtime) (Orderly runtime) (start world) s) {id : AgentId}
    (registered : id ∈ runtime.agents) : s.handled id = s.dispatched := by
  refine reached.invariant (P := fun s => s.handled id = s.dispatched) rfl fun s a same orderly => ?_
  cases a with
  | append event => exact same
  | loop order =>
    rw [step]
    cases @move_loopStep W runtime order s with
    | tick _ _ kept => rwa [State.handled, kept.2, kept.1]
    | read _ _ _ kept => rwa [State.handled, kept.2, kept.1]
    | dispatch _ e _ added called =>
      rw [State.handled, called, added, List.filter_append, List.map_append,
        handled_dispatch ok orderly registered e s.world]
      exact congrArg (· ++ [e]) same

/-- **While the store takes ids in increasing order and no agent fails, every agent handles every event of the log
exactly once and in the order of the log**; what an agent has not handled is what the round still holds and what
the next round will read. -/
theorem handled_in_order (ok : NeverFails runtime) {world : W}
    (reached : Reached (step runtime) (Orderly runtime) (start world) s) {id : AgentId}
    (registered : id ∈ runtime.agents) :
    s.handled id ++ s.position.remaining ++ s.eventStore.readSince s.cursor = s.eventStore.events ∧
      s.eventStore.events.Nodup := by
  have inOrder := reached.invariant (inOrder_start world) fun _ a h orderly => h.step a orderly
  refine ⟨?_, ?_⟩
  · rw [handled_eq ok reached registered]
    exact inOrder.split
  · exact inOrder.increasing.imp fun below same => absurd (same ▸ below) (lt_irrefl _)

end Loop

/-- One agent that takes every event. -/
def oneAgent : InMemoryAgentRuntime Unit :=
  ⟨(Finmap.singleton (.ofNat 1) (constant (.ok ())) : HashMap AgentId (Agent Unit))⟩

theorem neverFails_oneAgent : NeverFails oneAgent := by
  intro id agent found event w
  have listed : id ∈ oneAgent.agents := Finmap.mem_iff.2 ⟨agent, found⟩
  obtain rfl : id = .ofNat 1 := (Finmap.mem_singleton _ _ _).1 listed
  have only : oneAgent.agents.lookup (.ofNat 1) = some (constant (.ok ())) := by
    rw [oneAgent, Finmap.lookup_singleton_eq]
  obtain rfl : constant (.ok ()) = agent := Option.some.inj (only.symm.trans found)
  rfl

/-- The second event comes while the first one is under way. -/
theorem handled_in_order_oneAgent :
    let s := [.append (sampleEvent 2 "a1"), .loop [.ofNat 1], .loop [.ofNat 1], .append (sampleEvent 4 "b1"),
      .loop [.ofNat 1]].foldl (step oneAgent) (start ())
    s.handled (.ofNat 1) ++ s.position.remaining ++ s.eventStore.readSince s.cursor = s.eventStore.events ∧
      s.eventStore.events.Nodup := by
  have keys : (([.ofNat 1] : List AgentId) : Multiset AgentId) = oneAgent.agents.keys.val := by decide
  refine handled_in_order neverFails_oneAgent (Along.reached ?_) (by decide)
  refine ⟨⟨fun _ => by decide, fun _ e he => absurd he List.not_mem_nil⟩, keys, keys,
    ⟨fun _ => by decide, fun _ e he => ?_⟩, keys, trivial⟩
  rw [List.mem_singleton.1 he]
  decide

end TORdex.KernelRuntime
