import Mathlib.Data.List.Basic
import Mathlib.Logic.Function.Basic
import TORdex.Core.Json
import TORdex.Core.Ulid

/-!
# Inter-process messages

A mailbox for each endpoint.  The mailboxes and the endpoints have a lock each, and `send` and
`register_endpoint` take one after the other: between the two, other calls run.
-/

namespace TORdex

/-- A message between two endpoints. -/
structure Message where
  id : Ulid
  source : Ulid
  target : Ulid
  kind : String
  payload : List UInt8
  replyTo : Option Ulid

/-- The mailboxes, and the registered endpoints. -/
structure InMemoryIpc where
  mailboxes : HashMap Ulid (List Message)
  endpoints : HashMap Ulid Bool

namespace InMemoryIpc

/-- Without mailboxes and endpoints. -/
def new : InMemoryIpc := ⟨∅, ∅⟩

/-! ## Critical sections -/

/-- The first section of `send`. -/
def checkTarget (ipc : InMemoryIpc) (msg : Message) : Except String Unit :=
  if (ipc.endpoints.lookup msg.target).isSome then .ok ()
  else .error ("unknown endpoint: " ++ msg.target.toString)

/-- The second section of `send`: `entry(msg.target).or_default().push(msg)`. -/
def push (ipc : InMemoryIpc) (msg : Message) : InMemoryIpc :=
  { ipc with mailboxes :=
      ipc.mailboxes.insert msg.target ((ipc.mailboxes.lookup msg.target).getD [] ++ [msg]) }

/-- Take all messages out of a mailbox. -/
def receive (ipc : InMemoryIpc) (endpoint : Ulid) : List Message × InMemoryIpc :=
  ((ipc.mailboxes.lookup endpoint).getD [], { ipc with mailboxes := ipc.mailboxes.erase endpoint })

/-- The first section of `register_endpoint`. -/
def insertEndpoint (ipc : InMemoryIpc) (id : Ulid) : InMemoryIpc :=
  { ipc with endpoints := ipc.endpoints.insert id true }

/-- The second section of `register_endpoint`: `entry(id).or_default()`. -/
def insertMailbox (ipc : InMemoryIpc) (id : Ulid) : InMemoryIpc :=
  { ipc with mailboxes := ipc.mailboxes.insert id ((ipc.mailboxes.lookup id).getD []) }

/-- Take an endpoint off the register, and tell whether it was there. -/
def unregisterEndpoint (ipc : InMemoryIpc) (id : Ulid) : Bool × InMemoryIpc :=
  ((ipc.endpoints.lookup id).isSome, { ipc with endpoints := ipc.endpoints.erase id })

/-- The messages in a mailbox; there are none where there is no mailbox. -/
def mailbox (ipc : InMemoryIpc) (endpoint : Ulid) : List Message := (ipc.mailboxes.lookup endpoint).getD []

section Sections

variable (ipc : InMemoryIpc) (endpoint : Ulid)

theorem mailbox_push (msg : Message) :
    (ipc.push msg).mailbox endpoint =
      ipc.mailbox endpoint ++ if msg.target = endpoint then [msg] else [] := by
  unfold mailbox push
  by_cases same : msg.target = endpoint
  · subst same
    rw [Finmap.lookup_insert, if_pos rfl, Option.getD_some]
  · rw [Finmap.lookup_insert_of_ne _ (Ne.symm same), if_neg same, List.append_nil]

theorem mailbox_receive (emptied : Ulid) :
    (ipc.receive emptied).2.mailbox endpoint = if emptied = endpoint then [] else ipc.mailbox endpoint := by
  unfold mailbox receive
  by_cases same : emptied = endpoint
  · subst same
    rw [Finmap.lookup_erase, if_pos rfl, Option.getD_none]
  · rw [Finmap.lookup_erase_ne (Ne.symm same), if_neg same]

/-- A new mailbox is empty, and one that is there stays. -/
theorem mailbox_insertMailbox (id : Ulid) : (ipc.insertMailbox id).mailbox endpoint = ipc.mailbox endpoint := by
  unfold mailbox insertMailbox
  by_cases same : endpoint = id
  · subst same
    rw [Finmap.lookup_insert, Option.getD_some]
  · rw [Finmap.lookup_insert_of_ne _ same]

end Sections

end InMemoryIpc

/-! ## Interleaved calls -/

/-- What a party is doing between two critical sections. -/
inductive Party where
  | idle
  /-- In `send`, and the target was registered. -/
  | sending (msg : Message)
  /-- In `register_endpoint`, and the endpoint is registered. -/
  | registering (id : Ulid)

/-- The messages and endpoints, what every party is doing, and the results of the calls that have returned:
of `send` in the order of their last sections, and of `receive`. -/
structure Exchange (ι : Type) where
  ipc : InMemoryIpc
  parties : ι → Party
  sends : List (Message × Except String Ulid)
  receives : List (Ulid × List Message)

/-- A critical section of a party. -/
inductive IpcAction (ι : Type) where
  | checkTarget (party : ι) (msg : Message)
  | push (party : ι)
  | receive (party : ι) (endpoint : Ulid)
  | insertEndpoint (party : ι) (id : Ulid)
  | insertMailbox (party : ι)
  | unregisterEndpoint (party : ι) (id : Ulid)

namespace Exchange

variable {ι : Type}

/-- Before the first action. -/
def start : Exchange ι := ⟨.new, fun _ => .idle, [], []⟩

/-- A call starts when its party is idle, and a second section follows the first. -/
def step [DecidableEq ι] (s : Exchange ι) : IpcAction ι → Exchange ι
  | .checkTarget party msg =>
    match s.parties party, s.ipc.checkTarget msg with
    | .idle, .ok () => { s with parties := Function.update s.parties party (.sending msg) }
    | .idle, .error e => { s with sends := s.sends ++ [(msg, .error e)] }
    | _, _ => s
  | .push party =>
    match s.parties party with
    | .sending msg => { s with
        ipc := s.ipc.push msg
        parties := Function.update s.parties party .idle
        sends := s.sends ++ [(msg, .ok msg.id)] }
    | _ => s
  | .receive party endpoint =>
    match s.parties party with
    | .idle =>
      let (batch, ipc) := s.ipc.receive endpoint
      { s with ipc, receives := s.receives ++ [(endpoint, batch)] }
    | _ => s
  | .insertEndpoint party id =>
    match s.parties party with
    | .idle => { s with
        ipc := s.ipc.insertEndpoint id
        parties := Function.update s.parties party (.registering id) }
    | _ => s
  | .insertMailbox party =>
    match s.parties party with
    | .registering id => { s with
        ipc := s.ipc.insertMailbox id
        parties := Function.update s.parties party .idle }
    | _ => s
  | .unregisterEndpoint party id =>
    match s.parties party with
    | .idle => { s with ipc := (s.ipc.unregisterEndpoint id).2 }
    | _ => s

/-- The messages whose `send` to an endpoint returned `Ok`, in the order of their insertions. -/
def sentTo (s : Exchange ι) (endpoint : Ulid) : List Message :=
  (s.sends.filter fun x => x.2.isOk && x.1.target = endpoint).map Prod.fst

/-- What the calls of `receive` for an endpoint returned, one after the other. -/
def receivedBy (s : Exchange ι) (endpoint : Ulid) : List Message :=
  (s.receives.filter fun x => x.1 = endpoint).flatMap Prod.snd

/-- What was sent to an endpoint was received, or is in its mailbox. -/
def Delivered (s : Exchange ι) : Prop :=
  ∀ endpoint, s.receivedBy endpoint ++ s.ipc.mailbox endpoint = s.sentTo endpoint

section Step

variable {s : Exchange ι} (h : Delivered s)
include h

/-- What leaves the mailboxes and the results of `receive` alone, and adds no message to the results of
`send`, keeps the law. -/
theorem Delivered.of_eq {s' : Exchange ι} (mailbox : ∀ e, s'.ipc.mailbox e = s.ipc.mailbox e)
    (receives : s'.receives = s.receives) (sentTo : ∀ e, s'.sentTo e = s.sentTo e) : Delivered s' := by
  intro endpoint
  rw [receivedBy, receives, mailbox, sentTo]
  exact h endpoint

theorem Delivered.push (msg : Message) (parties : ι → Party) :
    Delivered ⟨s.ipc.push msg, parties, s.sends ++ [(msg, .ok msg.id)], s.receives⟩ := by
  intro endpoint
  have before : s.receivedBy endpoint ++ s.ipc.mailbox endpoint = s.sentTo endpoint := h endpoint
  show s.receivedBy endpoint ++ (s.ipc.push msg).mailbox endpoint = _
  rw [InMemoryIpc.mailbox_push, ← List.append_assoc, before, sentTo, sentTo, List.filter_append,
    List.map_append]
  by_cases same : msg.target = endpoint <;> simp [same, Except.isOk, Except.toBool]

theorem Delivered.receive (endpoint : Ulid) (parties : ι → Party) :
    Delivered ⟨(s.ipc.receive endpoint).2, parties, s.sends,
      s.receives ++ [(endpoint, (s.ipc.receive endpoint).1)]⟩ := by
  intro other
  have before : s.receivedBy other ++ s.ipc.mailbox other = s.sentTo other := h other
  show _ ++ (s.ipc.receive endpoint).2.mailbox other = s.sentTo other
  rw [InMemoryIpc.mailbox_receive, ← before, receivedBy, receivedBy, List.filter_append, List.flatMap_append]
  by_cases same : endpoint = other
  · subst same
    simp [InMemoryIpc.receive, InMemoryIpc.mailbox]
  · simp [same]

/-- Every critical section keeps the law. -/
theorem Delivered.step [DecidableEq ι] (action : IpcAction ι) : Delivered (s.step action) := by
  cases action with
  | checkTarget party msg =>
    simp only [Exchange.step]
    split
    · exact h.of_eq (fun _ => rfl) rfl fun _ => rfl
    · refine h.of_eq (fun _ => rfl) rfl fun e => ?_
      simp [sentTo, Except.isOk, Except.toBool]
    · exact h
  | push party =>
    simp only [Exchange.step]
    split
    · exact h.push _ _
    · exact h
  | receive party endpoint =>
    simp only [Exchange.step]
    split
    · exact h.receive _ _
    · exact h
  | insertEndpoint party id =>
    simp only [Exchange.step]
    split
    · exact h.of_eq (fun _ => rfl) rfl fun _ => rfl
    · exact h
  | insertMailbox party =>
    simp only [Exchange.step]
    split
    · exact h.of_eq (fun e => InMemoryIpc.mailbox_insertMailbox _ e _) rfl fun _ => rfl
    · exact h
  | unregisterEndpoint party id =>
    simp only [Exchange.step]
    split
    · exact h.of_eq (fun _ => rfl) rfl fun _ => rfl
    · exact h

end Step

theorem Delivered.run [DecidableEq ι] {s : Exchange ι} (h : Delivered s) (actions : List (IpcAction ι)) :
    Delivered (actions.foldl Exchange.step s) := by
  induction actions generalizing s with
  | nil => exact h
  | cons action actions ih => exact ih (h.step action)

theorem target_of_mem_sentTo {s : Exchange ι} {endpoint : Ulid} {msg : Message} (h : msg ∈ s.sentTo endpoint) :
    msg.target = endpoint := by
  obtain ⟨x, hx, rfl⟩ := List.mem_map.1 h
  have kept := (List.mem_filter.1 hx).2
  rw [Bool.and_eq_true, decide_eq_true_iff] at kept
  exact kept.2

/-- In every interleaving: what an endpoint received and its mailbox are what was sent to it, in order, and
no message is in the mailbox of another endpoint. -/
theorem delivered_once [DecidableEq ι] (actions : List (IpcAction ι)) (endpoint : Ulid) :
    let s : Exchange ι := actions.foldl step start
    s.receivedBy endpoint ++ s.ipc.mailbox endpoint = s.sentTo endpoint ∧
      ∀ msg ∈ s.ipc.mailbox endpoint, msg.target = endpoint := by
  have first : Delivered (start : Exchange ι) := fun _ => rfl
  have delivered := first.run actions endpoint
  refine ⟨delivered, fun msg hmsg => ?_⟩
  have sent : msg ∈ (actions.foldl step start : Exchange ι).sentTo endpoint :=
    delivered ▸ List.mem_append_right _ hmsg
  exact target_of_mem_sentTo sent

end Exchange

end TORdex
