import TORdex.Core.Ulid
import TORdex.Core.Json

/-!
# The in-memory event manager

Every acquisition of one of the two locks is a step; a poll takes both, one after the other, and other
clients may come between.  A poll answers with all events of its topic, whatever the subscription has
been given before.
-/

namespace TORdex

/-- An event of a topic. -/
structure Event where
  id : Ulid
  topic : String
  payload : List UInt8
  occurredAt : ℤ
  deriving DecidableEq, Repr

/-- The topics of the subscribers, and the events. -/
structure InMemoryEventManager where
  subscribers : HashMap Ulid String
  events : List Event

namespace InMemoryEventManager

/-- Without subscribers and events. -/
def new : InMemoryEventManager := ⟨∅, []⟩

/-- Publish: the id and the time are drawn before the lock is taken. -/
def publish (m : InMemoryEventManager) (event : Event) : InMemoryEventManager :=
  { m with events := m.events ++ [event] }

/-- Subscribe to a topic, in place of an earlier one. -/
def subscribe (m : InMemoryEventManager) (id : Ulid) (topic : String) : InMemoryEventManager :=
  { m with subscribers := m.subscribers.insert id topic }

/-- End a subscription, and tell whether there was one. -/
def unsubscribe (m : InMemoryEventManager) (id : Ulid) : Bool × InMemoryEventManager :=
  ((m.subscribers.lookup id).isSome, { m with subscribers := m.subscribers.erase id })

/-- The events of a topic. -/
def ofTopic (topic : String) (events : List Event) : List Event :=
  events.filter fun e => e.topic = topic

/-- `poll`, when no other client comes between its two locks. -/
def poll (m : InMemoryEventManager) (id : Ulid) : List Event :=
  match m.subscribers.lookup id with
  | some topic => ofTopic topic m.events
  | none => []

/-! ## Interleavings -/

/-- A step of a client. -/
inductive Action (ι : Type) where
  | publish (event : Event)
  | subscribe (id : Ulid) (topic : String)
  | unsubscribe (id : Ulid)
  /-- The first lock of a poll: the topic is looked up. -/
  | pollBegin (client : ι) (id : Ulid)
  /-- The second lock of a poll: the events are read. -/
  | pollEnd (client : ι)

/-- The manager, the polls that are between their locks, and the results of the finished ones. -/
structure Hub (ι : Type) where
  manager : InMemoryEventManager
  polling : ι → Option (Ulid × String)
  results : List (Ulid × List Event)

namespace Hub

variable {ι : Type} [DecidableEq ι]

/-- Before the first action. -/
def start : Hub ι := ⟨.new, fun _ => none, []⟩

/-- A client that is in a poll begins no other one. -/
def step (h : Hub ι) : Action ι → Hub ι
  | .publish event => { h with manager := h.manager.publish event }
  | .subscribe id topic => { h with manager := h.manager.subscribe id topic }
  | .unsubscribe id => { h with manager := (h.manager.unsubscribe id).2 }
  | .pollBegin client id =>
    if (h.polling client).isSome then h
    else
      match h.manager.subscribers.lookup id with
      | some topic => { h with polling := Function.update h.polling client (some (id, topic)) }
      | none => { h with results := h.results ++ [(id, [])] }
  | .pollEnd client =>
    match h.polling client with
    | some (id, topic) => { h with
        polling := Function.update h.polling client none
        results := h.results ++ [(id, ofTopic topic h.manager.events)] }
    | none => h

/-- The effect of a list of actions. -/
def run (h : Hub ι) (actions : List (Action ι)) : Hub ι := actions.foldl step h

/-- All that the polls of a subscription have returned. -/
def received (h : Hub ι) (id : Ulid) : List Event :=
  (h.results.filter fun r => r.1 = id).flatMap (·.2)

/-- The step finishes a poll of the subscription. -/
def finishes (h : Hub ι) (id : Ulid) : Action ι → Bool
  | .pollEnd client => (h.polling client).any fun p => p.1 = id
  | _ => false

/-- The events that a list of steps publishes on a topic. -/
def published (topic : String) (actions : List (Action ι)) : List Event :=
  ofTopic topic (actions.filterMap fun
    | .publish event => some event
    | _ => none)

/-- For each poll of the subscription that the steps finish, what they have published on the topic
before it. -/
def sights (h : Hub ι) (id : Ulid) (topic : String) (since : List Event) :
    List (Action ι) → List (List Event)
  | [] => []
  | action :: actions =>
    (if h.finishes id action then [since] else []) ++
      (h.step action).sights id topic (since ++ published topic [action]) actions

/-- The step draws the id for a subscription. -/
def Draws (id : Ulid) : Action ι → Prop
  | .subscribe id' _ => id' = id
  | _ => False

/-- The step ends the subscription. -/
def Ends (id : Ulid) : Action ι → Prop
  | .unsubscribe id' => id' = id
  | _ => False

/-! ## The log of a topic -/

section Log

variable {topic : String}

theorem ofTopic_append (l l' : List Event) : ofTopic topic (l ++ l') = ofTopic topic l ++ ofTopic topic l' :=
  List.filter_append ..

omit [DecidableEq ι] in
theorem published_append (l l' : List (Action ι)) :
    published topic (l ++ l') = published topic l ++ published topic l' := by
  simp only [published, List.filterMap_append, ofTopic_append]

/-- A step adds to the log of a topic what it publishes there. -/
theorem ofTopic_step (h : Hub ι) (action : Action ι) :
    ofTopic topic (h.step action).manager.events =
      ofTopic topic h.manager.events ++ published topic [action] := by
  cases action with
  | publish event => exact ofTopic_append _ _
  | pollBegin client id =>
    simp only [step]
    split_ifs
    · simp [published, ofTopic]
    · split <;> simp [published, ofTopic]
  | pollEnd client =>
    simp only [step]
    split <;> simp [published, ofTopic]
  | _ => simp [step, subscribe, unsubscribe, published, ofTopic]

theorem ofTopic_run (h : Hub ι) (actions : List (Action ι)) :
    ofTopic topic (h.run actions).manager.events =
      ofTopic topic h.manager.events ++ published topic actions := by
  induction actions generalizing h with
  | nil => simp [run, published, ofTopic]
  | cons action actions ih =>
    have rest := ih (h.step action)
    rw [ofTopic_step, List.append_assoc, ← published_append] at rest
    exact rest

end Log

/-! ## A subscription -/

section Subscription

variable {h : Hub ι} {id : Ulid} {topic : String} {action : Action ι}

/-- The id has not been drawn: its polls have found nothing. -/
structure Unknown (h : Hub ι) (id : Ulid) : Prop where
  subscribers : h.manager.subscribers.lookup id = none
  polling : ∀ client topic, h.polling client ≠ some (id, topic)
  received : h.received id = []

omit [DecidableEq ι] in
theorem received_concat (id : Ulid) (results : List (Ulid × List Event)) (id' : Ulid) (events : List Event) :
    (Hub.mk h.manager h.polling (results ++ [(id', events)])).received id =
      (Hub.mk h.manager h.polling results).received id ++ if id' = id then events else [] := by
  unfold received
  rw [List.filter_append, List.flatMap_append]
  by_cases hid : id' = id
  · simp [hid]
  · simp [hid]

/-- A client is in the poll that began now, or in the one it was in. -/
theorem polling_update {client client' : ι} {begun : Option (Ulid × String)} {poll : Ulid × String}
    (hp : Function.update h.polling client begun client' = some poll) :
    begun = some poll ∨ h.polling client' = some poll := by
  by_cases hc : client' = client
  · rw [hc, Function.update_self] at hp
    exact .inl hp
  · rw [Function.update_of_ne hc] at hp
    exact .inr hp

theorem Unknown.step (u : h.Unknown id) (fresh : ¬Draws id action) : (h.step action).Unknown id := by
  cases action with
  | publish event => exact ⟨u.subscribers, u.polling, u.received⟩
  | subscribe id' topic =>
    have other : id ≠ id' := fun same => fresh same.symm
    exact ⟨(Finmap.lookup_insert_of_ne _ other).trans u.subscribers, u.polling, u.received⟩
  | unsubscribe id' =>
    refine ⟨?_, u.polling, u.received⟩
    show (h.manager.subscribers.erase id').lookup id = none
    by_cases same : id = id'
    · subst same
      exact Finmap.lookup_erase _ _
    · exact (Finmap.lookup_erase_ne same).trans u.subscribers
  | pollBegin client id' =>
    simp only [Hub.step]
    split_ifs
    · exact u
    · split
      · rename_i topic found
        have other : id' ≠ id := by
          rintro rfl
          rw [u.subscribers] at found
          cases found
        refine ⟨u.subscribers, fun client' topic' hp => ?_, u.received⟩
        rcases polling_update hp with begun | old
        · exact other (Prod.mk.inj (Option.some.inj begun)).1
        · exact u.polling client' topic' old
      · refine ⟨u.subscribers, u.polling, ?_⟩
        rw [received_concat, show (Hub.mk h.manager h.polling h.results) = h from rfl, u.received]
        split_ifs <;> rfl
  | pollEnd client =>
    simp only [Hub.step]
    split
    · rename_i id' topic pending
      have other : id' ≠ id := by
        rintro rfl
        exact u.polling client topic pending
      refine ⟨u.subscribers, fun client' topic' hp => ?_, ?_⟩
      · rcases polling_update hp with begun | old
        · cases begun
        · exact u.polling client' topic' old
      · have := received_concat (h := h) id h.results id' (ofTopic topic h.manager.events)
        rw [if_neg other, List.append_nil] at this
        exact this.trans u.received
    · exact u

/-- The subscription is live, and its polls look at its topic. -/
structure Live (h : Hub ι) (id : Ulid) (topic : String) : Prop where
  subscribers : h.manager.subscribers.lookup id = some topic
  polling : ∀ client topic', h.polling client = some (id, topic') → topic' = topic

theorem Unknown.subscribe (u : h.Unknown id) : (h.step (.subscribe id topic)).Live id topic where
  subscribers := Finmap.lookup_insert _
  polling client topic' hp := absurd hp (u.polling client topic')

theorem Live.step (l : h.Live id topic) (fresh : ¬Draws id action) (kept : ¬Ends id action) :
    (h.step action).Live id topic := by
  cases action with
  | publish event => exact ⟨l.subscribers, l.polling⟩
  | subscribe id' topic' =>
    have other : id ≠ id' := fun same => fresh same.symm
    exact ⟨(Finmap.lookup_insert_of_ne _ other).trans l.subscribers, l.polling⟩
  | unsubscribe id' =>
    have other : id ≠ id' := fun same => kept same.symm
    exact ⟨(Finmap.lookup_erase_ne other).trans l.subscribers, l.polling⟩
  | pollBegin client id' =>
    simp only [Hub.step]
    split_ifs
    · exact l
    · split
      · rename_i found' found
        refine ⟨l.subscribers, fun client' topic' hp => ?_⟩
        rcases polling_update hp with begun | old
        · obtain ⟨rfl, rfl⟩ := Prod.mk.inj (Option.some.inj begun)
          rw [l.subscribers] at found
          exact (Option.some.inj found).symm
        · exact l.polling client' topic' old
      · exact ⟨l.subscribers, l.polling⟩
  | pollEnd client =>
    simp only [Hub.step]
    split
    · refine ⟨l.subscribers, fun client' topic' hp => ?_⟩
      rcases polling_update hp with begun | old
      · cases begun
      · exact l.polling client' topic' old
    · exact l

/-- A step that finishes a poll of the subscription returns the log of its topic. -/
theorem Live.received_step (l : h.Live id topic) : (h.step action).received id =
    h.received id ++ if h.finishes id action then ofTopic topic h.manager.events else [] := by
  cases action with
  | pollBegin client id' =>
    rw [if_neg (show ¬h.finishes id (.pollBegin client id') from Bool.false_ne_true), List.append_nil]
    simp only [Hub.step]
    split_ifs
    · rfl
    · split
      · rfl
      · have results := received_concat (h := h) id h.results id' []
        simpa using results
  | pollEnd client =>
    simp only [Hub.step]
    split
    · rename_i id' topic' pending
      have finished : h.finishes id (.pollEnd client) = decide (id' = id) := by
        simp [finishes, pending]
      refine (received_concat (h := h) id h.results id' _).trans ?_
      simp only [finished, decide_eq_true_eq]
      by_cases same : id' = id
      · subst same
        rw [l.polling client topic' pending]
      · simp only [same, if_false]
    · rename_i idle
      simp [finishes, idle]
  | _ => simp [Hub.step, finishes, received]

end Subscription

/-! ## Runs -/

section Run

variable {h : Hub ι} {id : Ulid} {topic : String} {actions : List (Action ι)}

theorem Unknown.run (u : h.Unknown id) (fresh : ∀ a ∈ actions, ¬Draws id a) :
    (h.run actions).Unknown id := by
  induction actions generalizing h with
  | nil => exact u
  | cons action actions ih =>
    exact ih (u.step (fresh action List.mem_cons_self)) fun a ha =>
      fresh a (List.mem_cons_of_mem _ ha)

/-- Every poll returns what was there before the subscription and what came since. -/
theorem Live.received_run (l : h.Live id topic) {old since : List Event}
    (fresh : ∀ a ∈ actions, ¬Draws id a) (kept : ∀ a ∈ actions, ¬Ends id a)
    (log : ofTopic topic h.manager.events = old ++ since) : (h.run actions).received id =
      h.received id ++ ((h.sights id topic since actions).map (old ++ ·)).flatten := by
  induction actions generalizing h since with
  | nil => simp [run, sights]
  | cons action actions ih =>
    have log' : ofTopic topic (h.step action).manager.events =
        old ++ (since ++ published topic [action]) := by
      rw [ofTopic_step, log, List.append_assoc]
    have next := ih (l.step (fresh action List.mem_cons_self) (kept action List.mem_cons_self))
      (fun a ha => fresh a (List.mem_cons_of_mem _ ha))
      (fun a ha => kept a (List.mem_cons_of_mem _ ha)) log'
    refine next.trans ?_
    rw [l.received_step, log, sights, List.map_append, List.flatten_append, List.append_assoc]
    congr 2
    split_ifs <;> simp

end Run

/-- Repeating a list of reports gives the last report exactly when there was nothing to repeat. -/
theorem flatten_eq_last {α : Type*} {old : List α} {sights : List (List α)} :
    (sights.map (old ++ ·)).flatten = sights.getLastD [] ↔
      (sights ≠ [] → old = [] ∧ ∀ seen ∈ sights.dropLast, seen = []) := by
  rcases List.eq_nil_or_concat sights with rfl | ⟨init, last, rfl⟩
  · simp
  · rw [List.concat_eq_append]
    have repeated : (init.map (old ++ ·)).flatten = [] ↔ ∀ seen ∈ init, old = [] ∧ seen = [] := by
      simp [List.flatten_eq_nil_iff]
    simp only [List.map_append, List.flatten_append, List.map_singleton, List.flatten_singleton,
      List.getLastD_concat, List.dropLast_concat, ← List.append_assoc, List.append_left_eq_self,
      List.append_eq_nil_iff, repeated]
    constructor
    · exact fun ⟨quiet, hold⟩ _ => ⟨hold, fun seen hs => (quiet seen hs).2⟩
    · intro quiet
      obtain ⟨hold, unseen⟩ := quiet (by simp)
      exact ⟨fun seen hs => ⟨hold, unseen seen hs⟩, hold⟩

/-- What a subscription gets: over any interleaving, the results of its polls are the events published
on its topic since it subscribed and before its last poll exactly when it had nothing to get before that
poll. -/
theorem received_iff (before after : List (Action ι)) (id : Ulid) (topic : String)
    (unknown : ∀ a ∈ before, ¬Draws id a) (fresh : ∀ a ∈ after, ¬Draws id a)
    (live : ∀ a ∈ after, ¬Ends id a) :
    let subscribed := (start.run before).step (.subscribe id topic)
    let sights := subscribed.sights id topic [] after
    (subscribed.run after).received id = sights.getLastD [] ↔
      (sights ≠ [] → published topic before = [] ∧ ∀ seen ∈ sights.dropLast, seen = []) := by
  intro subscribed sights
  have start : (start : Hub ι).Unknown id := ⟨rfl, nofun, rfl⟩
  have before_unknown := start.run unknown
  have log : ofTopic topic subscribed.manager.events = published topic before ++ [] := by
    rw [List.append_nil]
    exact ofTopic_run Hub.start before
  have nothing : subscribed.received id = [] := before_unknown.received
  rw [before_unknown.subscribe.received_run fresh live log, nothing, List.nil_append]
  exact flatten_eq_last

/-- An event for all subscribers. -/
def sampleEvent : Event := ⟨.ofNat 1, "all", [104, 105], 0⟩

/-- One poll of one client. -/
def samplePoll : List (Action Unit) := [.pollBegin () (.ofNat 7), .pollEnd ()]

theorem received_sample :
    (((start.run []).step (.subscribe (.ofNat 7) "all")).run
      (.publish sampleEvent :: samplePoll)).received (.ofNat 7) = [sampleEvent] :=
  (received_iff [] (.publish sampleEvent :: samplePoll) (.ofNat 7) "all" (by simp)
    (by simp [samplePoll, Draws]) (by simp [samplePoll, Ends])).2 (by decide)

/-- A second poll returns the event again. -/
theorem received_twice :
    let subscribed := (start.run []).step (.subscribe (.ofNat 7) "all")
    let after := .publish sampleEvent :: (samplePoll ++ samplePoll)
    (subscribed.run after).received (.ofNat 7) = [sampleEvent, sampleEvent] ∧
      (subscribed.run after).received (.ofNat 7) ≠
        (subscribed.sights (.ofNat 7) "all" [] after).getLastD [] := by
  decide

end Hub

end InMemoryEventManager

end TORdex
