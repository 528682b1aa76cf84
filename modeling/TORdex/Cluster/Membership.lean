import TORdex.Cluster.Task
import TORdex.Lib.Expiring
import TORdex.Lib.Runs

/-!
# Cluster membership

A node has a record and a heartbeat, two Redis keys that expire, and an entry in the set of the nodes, which does
not.  Every method is a sequence of Redis commands; the commands of all clients interleave, and one that fails ends
its call.  What the readers answer is decided by the last command on the key that they read.
-/

namespace TORdex.Cluster

/-- A node is known by a ULID. -/
abbrev NodeId := Ulid

/-- Node registration info published to Redis. -/
structure NodeInfo where
  id : NodeId
  role : NodeRole
  host : String
  port : UInt16
  startedAt : OffsetDateTime
  version : String
  tags : List String
  deriving DecidableEq

/-- The key of a record. -/
def nodeKey (id : NodeId) : String := "tordex:cluster:node:" ++ id.toString

/-- The key of a heartbeat. -/
def heartbeatKey (id : NodeId) : String := "tordex:cluster:heartbeat:" ++ id.toString

theorem nodeKey_injective : Function.Injective nodeKey := fun _ _ same =>
  Ulid.toString_injective (String.append_right_inj _ |>.1 same)

theorem node_ne_heartbeat (text text' : String) :
    "tordex:cluster:node:" ++ text ≠ "tordex:cluster:heartbeat:" ++ text' := by
  intro same
  have letters := congrArg (fun s => s.toList[15]?) same
  simp only [String.toList_append] at letters
  rw [List.getElem?_append_left (by decide), List.getElem?_append_left (by decide)] at letters
  exact absurd letters (by decide)

theorem nodeKey_ne_heartbeatKey (id id' : NodeId) : nodeKey id ≠ heartbeatKey id' := node_ne_heartbeat _ _

/-- The commands on keys, and on the set `tordex:cluster:nodes`. -/
inductive RedisCommand where
  | set (key value : String) (ttl : ℕ)
  | del (key : String)
  | sadd (member : String)
  | srem (member : String)

/-- Redis refuses an expire time of zero. -/
def RedisCommand.valid : RedisCommand → Bool
  | .set _ _ ttl => 0 < ttl
  | _ => true

/-- What is executed, and the seconds that pass. -/
inductive LogEntry where
  | command (command : RedisCommand)
  | wait (seconds : ℕ)

/-- What an entry does to the keys. -/
def LogEntry.effect : LogEntry → Expiring.Effect String String
  | command (.set key value ttl) => .set key value ttl
  | command (.del key) => .delete key
  | command _ => .none
  | wait seconds => .wait seconds

/-- `serde_json` on the record of a node. -/
structure NodeSerde where
  nodeToString : NodeInfo → Except String String
  nodeFromStr : String → Except String NodeInfo

/-- A record that was written is read back. -/
def NodeSerde.ReadsBack (serde : NodeSerde) : Prop :=
  ∀ info text, serde.nodeToString info = .ok text → serde.nodeFromStr text = .ok info

/-- The methods that write, with the clock reading of a heartbeat. -/
inductive MembershipCall where
  | register (info : NodeInfo) (heartbeatTtlSecs : ℕ)
  | heartbeat (info : NodeInfo) (now : String) (heartbeatTtlSecs : ℕ)
  | deregister (id : NodeId)

namespace MembershipCall

variable (serde : NodeSerde)

/-- The Redis commands of a call, in their order. -/
def commands : MembershipCall → List RedisCommand
  | register info ttl =>
    match serde.nodeToString info with
    | .error _ => []
    | .ok json => [.set (nodeKey info.id) json ttl, .sadd info.id.toString]
  | heartbeat info now ttl => [.set (heartbeatKey info.id) now ttl]
  | deregister id => [.srem id.toString, .del (nodeKey id), .del (heartbeatKey id)]

end MembershipCall

/-- Redis, what is left of the call of each client, and what was executed, the latest first. -/
structure Membership where
  strings : Expiring.Store String String
  members : Finset String
  calls : ℕ → List RedisCommand
  log : List LogEntry

/-- A client begins a call or sends its next command, of which the execution or the reply may fail; or time
passes. -/
inductive MembershipAction where
  | call (client : ℕ) (call : MembershipCall)
  | command (client : ℕ) (executed replied : Bool)
  | wait (seconds : ℕ)

namespace Membership

variable (serde : NodeSerde)

/-- Before the first command. -/
def start : Membership := ⟨.empty, ∅, fun _ => [], []⟩

/-- Redis executes a command. -/
def execute (s : Membership) (c : RedisCommand) : Membership where
  strings := s.strings.apply (LogEntry.command c).effect
  members :=
    match c with
    | .sadd member => insert member s.members
    | .srem member => s.members.erase member
    | _ => s.members
  calls := s.calls
  log := .command c :: s.log

/-- What is left of the call of a client. -/
def setCalls (s : Membership) (client : ℕ) (rest : List RedisCommand) : Membership :=
  { s with calls := Function.update s.calls client rest }

/-- The effect of an action.  A failed command, or one whose reply is lost, ends the call. -/
def step (s : Membership) : MembershipAction → Membership
  | .call client call => if (s.calls client).isEmpty then s.setCalls client (call.commands serde) else s
  | .command client executed replied =>
    match s.calls client with
    | [] => s
    | c :: rest =>
      if executed && c.valid then (s.execute c).setCalls client (if replied then rest else [])
      else s.setCalls client []
  | .wait seconds => { s with strings := s.strings.apply (.wait seconds), log := .wait seconds :: s.log }

/-! ## The readers -/

/-- The errors of the commands that read: of `SMEMBERS`, and of `GET` and `EXISTS` on the keys of each node. -/
structure Failures where
  smembers : Option String
  get : NodeId → Option String
  keyExists : NodeId → Option String

/-- Every command is answered. -/
def noFailures : Failures := ⟨none, fun _ => none, fun _ => none⟩

/-- The reply to a command, or its error. -/
def reply {α : Type} (failure : Option String) (value : α) : Except String α :=
  match failure with
  | some e => .error e
  | none => .ok value

variable (failures : Failures)

/-- List all registered node IDs. -/
def listNodes (s : Membership) : Except String (Multiset NodeId) :=
  (reply failures.smembers s.members.val).map (Multiset.filterMap Ulid.fromString)

/-- Get node info by ID. -/
def getNode (s : Membership) (id : NodeId) : Except String (Option NodeInfo) :=
  match reply (failures.get id) (s.strings.get (nodeKey id)) with
  | .error e => .error e
  | .ok (some json) => (serde.nodeFromStr json).map some
  | .ok none => .ok none

/-- Check if a node is alive (has recent heartbeat). -/
def isAlive (s : Membership) (id : NodeId) : Except String Bool :=
  reply (failures.keyExists id) (s.strings.get (heartbeatKey id)).isSome

/-- The loop of `cluster_list_nodes`, with the status of each node; a node whose status is not answered is dead. -/
def nodesOf (s : Membership) : List NodeId → Except String (List (NodeInfo × Bool))
  | [] => .ok []
  | id :: ids =>
    match s.getNode serde failures id with
    | .error e => .error e
    | .ok none => s.nodesOf ids
    | .ok (some info) => (s.nodesOf ids).map ((info, (s.isAlive failures id).toOption.getD false) :: ·)

/-- `cluster_list_nodes`, when nothing else happens meanwhile.  Redis gives the members in some order. -/
def clusterListNodes (order : Multiset NodeId → List NodeId) (s : Membership) :
    Except String (List (NodeInfo × Bool)) :=
  match s.listNodes failures with
  | .error e => .error e
  | .ok ids => s.nodesOf serde failures (order ids)

/-! ## What the readers answer -/

/-- The command belongs to a call. -/
def Issued (c : RedisCommand) : Prop := ∃ call : MembershipCall, c ∈ call.commands serde

/-- The last command on the member adds it. -/
def Added (member : String) (log : List LogEntry) : Prop :=
  ∃ later before, log = later ++ .command (.sadd member) :: before ∧ .command (.srem member) ∉ later

theorem added_cons {member : String} {e : LogEntry} {log : List LogEntry} :
    Added member (e :: log) ↔
      e = .command (.sadd member) ∨ e ≠ .command (.srem member) ∧ Added member log := by
  constructor
  · rintro ⟨later, before, split, kept⟩
    cases later with
    | nil => exact .inl (List.cons.inj split).1
    | cons e' later =>
      obtain ⟨rfl, rfl⟩ := List.cons.inj split
      rw [List.mem_cons, not_or] at kept
      exact .inr ⟨Ne.symm kept.1, later, before, rfl, kept.2⟩
  · rintro (rfl | ⟨kept, later, before, rfl, others⟩)
    · exact ⟨[], log, rfl, List.not_mem_nil⟩
    · exact ⟨e :: later, before, rfl, by simpa using ⟨kept.symm, others⟩⟩

/-- Redis holds what the executed commands made of it, and all commands come from calls. -/
structure Sound (s : Membership) : Prop where
  strings : s.strings = Expiring.replay LogEntry.effect s.log
  members : ∀ member, member ∈ s.members ↔ Added member s.log
  calls : ∀ client, ∀ c ∈ s.calls client, Issued serde c
  log : ∀ c, .command c ∈ s.log → Issued serde c

variable {serde failures} {s : Membership}

theorem sound_start : Sound serde start := by
  refine ⟨rfl, fun member => iff_of_false (Finset.notMem_empty _) ?_, fun _ _ h => absurd h List.not_mem_nil,
    fun _ h => absurd h List.not_mem_nil⟩
  rintro ⟨later, before, split, -⟩
  cases later <;> cases split

theorem Sound.setCalls (sound : Sound serde s) {client : ℕ} {rest : List RedisCommand}
    (issued : ∀ c ∈ rest, Issued serde c) : Sound serde (s.setCalls client rest) := by
  refine ⟨sound.strings, sound.members, fun other c mem => ?_, sound.log⟩
  have mem : c ∈ Function.update s.calls client rest other := mem
  by_cases same : other = client
  · subst same
    rw [Function.update_self] at mem
    exact issued c mem
  · rw [Function.update_of_ne same] at mem
    exact sound.calls other c mem

theorem Sound.execute (sound : Sound serde s) {c : RedisCommand} (issued : Issued serde c) :
    Sound serde (s.execute c) := by
  refine ⟨?_, fun member => ?_, sound.calls, fun c' mem => ?_⟩
  · exact congrArg (·.apply (LogEntry.command c).effect) sound.strings
  · show _ ↔ Added member (.command c :: s.log)
    rw [added_cons, ← sound.members]
    cases c with
    | sadd other => simp [Membership.execute, eq_comm]
    | srem other => simp [Membership.execute, eq_comm]
    | set key value ttl => simp [Membership.execute]
    | del key => simp [Membership.execute]
  · rcases List.mem_cons.1 mem with same | earlier
    · cases same
      exact issued
    · exact sound.log c' earlier

theorem Sound.step (sound : Sound serde s) (a : MembershipAction) : Sound serde (s.step serde a) := by
  cases a with
  | call client call =>
    rw [Membership.step]
    split_ifs
    · exact sound.setCalls fun c mem => ⟨call, mem⟩
    · exact sound
  | command client executed replied =>
    rw [Membership.step]
    cases pending : s.calls client with
    | nil => exact sound
    | cons c rest =>
      have issued : ∀ c' ∈ c :: rest, Issued serde c' := pending ▸ sound.calls client
      dsimp only
      split_ifs
      · exact (sound.execute (issued c List.mem_cons_self)).setCalls fun c' mem =>
          issued c' (List.mem_cons_of_mem _ mem)
      · exact (sound.execute (issued c List.mem_cons_self)).setCalls fun c' mem => absurd mem List.not_mem_nil
      · exact sound.setCalls fun c' mem => absurd mem List.not_mem_nil
  | wait seconds =>
    refine ⟨congrArg (·.apply (.wait seconds)) sound.strings, fun member => ?_, sound.calls, fun c mem => ?_⟩
    · show _ ↔ Added member (.wait seconds :: s.log)
      rw [added_cons, ← sound.members]
      simp [Membership.step]
    · rcases List.mem_cons.1 mem with same | earlier
      · cases same
      · exact sound.log c earlier

theorem sound_of_reached {allowed : Membership → MembershipAction → Prop}
    (reached : Reached (step serde) allowed start s) : Sound serde s :=
  reached.invariant sound_start fun _ a sound _ => sound.step a

/-- Only a registration writes the record of a node, and it writes the record of its own. -/
theorem Issued.record {id : NodeId} {json : String} {ttl : ℕ} (issued : Issued serde (.set (nodeKey id) json ttl)) :
    ∃ info, info.id = id ∧ serde.nodeToString info = .ok json := by
  obtain ⟨call, mem⟩ := issued
  cases call with
  | register info ttl' =>
    rw [MembershipCall.commands] at mem
    cases text : serde.nodeToString info with
    | error e =>
      rw [text] at mem
      cases mem
    | ok json' =>
      rw [text] at mem
      rcases List.mem_cons.1 mem with same | other
      · obtain ⟨key, rfl, -⟩ := RedisCommand.set.inj same
        exact ⟨info, nodeKey_injective key.symm, text⟩
      · cases List.mem_singleton.1 other
  | heartbeat info now ttl' =>
    obtain ⟨key, -⟩ := RedisCommand.set.inj (List.mem_singleton.1 mem)
    exact absurd key (nodeKey_ne_heartbeatKey _ _)
  | deregister id' => simp [MembershipCall.commands] at mem

theorem Issued.member {member : String} (issued : Issued serde (.sadd member)) :
    ∃ id : NodeId, member = id.toString := by
  obtain ⟨call, mem⟩ := issued
  cases call with
  | register info ttl =>
    rw [MembershipCall.commands] at mem
    split at mem
    · cases mem
    · exact ⟨info.id, by simpa using mem⟩
  | heartbeat info now ttl => simp [MembershipCall.commands] at mem
  | deregister id => simp [MembershipCall.commands] at mem

@[simp] theorem reply_none {α : Type} (value : α) : reply none value = .ok value := rfl

theorem reply_eq_ok {α : Type} {failure : Option String} {value got : α} :
    reply failure value = .ok got ↔ failure = none ∧ value = got := by
  cases failure <;> simp [reply]

theorem listNodes_eq_ok {ids : Multiset NodeId} : s.listNodes failures = .ok ids ↔
    failures.smembers = none ∧ s.members.val.filterMap Ulid.fromString = ids := by
  cases fails : failures.smembers <;> simp [listNodes, reply, fails, Except.map]

theorem Sound.mem_listed (sound : Sound serde s) (id : NodeId) :
    id ∈ s.members.val.filterMap Ulid.fromString ↔ Added id.toString s.log := by
  rw [← sound.members, Multiset.mem_filterMap]
  constructor
  · rintro ⟨member, mem, parsed⟩
    obtain ⟨later, before, split, -⟩ := (sound.members member).1 mem
    have logged : LogEntry.command (.sadd member) ∈ s.log := split ▸ List.mem_append_right _ List.mem_cons_self
    obtain ⟨id', rfl⟩ := (sound.log _ logged).member
    rw [Ulid.fromString_toString, Option.some_inj] at parsed
    exact parsed ▸ mem
  · exact fun mem => ⟨_, mem, Ulid.fromString_toString id⟩

/-- The last command on the record of a node that sets it. -/
def Recorded (serde : NodeSerde) (info : NodeInfo) (ttl : ℕ) (log : List LogEntry) (age : ℕ) : Prop :=
  ∃ json, serde.nodeToString info = .ok json ∧
    Expiring.LastSet LogEntry.effect (nodeKey info.id) json ttl log age

theorem effect_eq_set {e : LogEntry} {key value : String} {ttl : ℕ} (h : e.effect = .set key value ttl) :
    e = .command (.set key value ttl) := by
  rcases e with c | seconds
  · cases c <;> simp_all [LogEntry.effect]
  · cases h

theorem Sound.getNode (sound : Sound serde s) (readsBack : serde.ReadsBack) {id : NodeId}
    (answered : failures.get id = none) :
    ∃ found, s.getNode serde failures id = .ok found ∧
      ∀ info, found = some info ↔ info.id = id ∧ ∃ ttl age, Recorded serde info ttl s.log age ∧ age < ttl := by
  have written : ∀ {json ttl age}, Expiring.LastSet LogEntry.effect (nodeKey id) json ttl s.log age →
      ∃ info, info.id = id ∧ serde.nodeToString info = .ok json := by
    rintro json ttl age ⟨later, e, before, split, set, -⟩
    obtain rfl := effect_eq_set set
    exact (sound.log _ (split ▸ List.mem_append_right _ List.mem_cons_self)).record
  rw [Membership.getNode, answered, reply_none, sound.strings]
  cases got : (Expiring.replay LogEntry.effect s.log).get (nodeKey id) with
  | none =>
    refine ⟨none, rfl, fun info => iff_of_false (fun h => nomatch h) ?_⟩
    rintro ⟨rfl, ttl, age, ⟨json, -, last⟩, young⟩
    rw [Expiring.get_replay_eq_some_iff.2 ⟨ttl, age, last, young⟩] at got
    cases got
  | some json =>
    obtain ⟨ttl, age, last, young⟩ := Expiring.get_replay_eq_some_iff.1 got
    obtain ⟨info, own, text⟩ := written last
    dsimp only
    rw [readsBack info json text]
    refine ⟨some info, rfl, fun info' => ⟨?_, ?_⟩⟩
    · rintro ⟨⟩
      exact ⟨own, ttl, age, ⟨json, text, own ▸ last⟩, young⟩
    · rintro ⟨own', ttl', age', ⟨json', text', last'⟩, young'⟩
      rw [own'] at last'
      have same := Expiring.get_replay_eq_some_iff.2 ⟨ttl', age', last', young'⟩
      obtain rfl := Option.some.inj (got.symm.trans same)
      rw [← Except.ok.inj ((readsBack info json text).symm.trans (readsBack info' json text'))]

theorem getNode_of_failure {id : NodeId} {e : String} (failed : failures.get id = some e) :
    s.getNode serde failures id = .error e := by
  rw [getNode, failed]
  rfl

/-- What `get_node` answers, if its command is answered. -/
theorem Sound.getNode_ok (sound : Sound serde s) (readsBack : serde.ReadsBack) {id : NodeId}
    {found : Option NodeInfo} (got : s.getNode serde failures id = .ok found) (info : NodeInfo) :
    found = some info ↔ info.id = id ∧ ∃ ttl age, Recorded serde info ttl s.log age ∧ age < ttl := by
  cases answered : failures.get id with
  | none =>
    obtain ⟨found', got', same⟩ := sound.getNode readsBack answered
    obtain rfl := Except.ok.inj (got.symm.trans got')
    exact same info
  | some e => exact nomatch got.symm.trans (getNode_of_failure answered)

/-- What `is_alive` answers, if its command is answered. -/
theorem Sound.isAlive_ok (sound : Sound serde s) {id : NodeId} {alive : Bool}
    (got : s.isAlive failures id = .ok alive) : alive = true ↔ ∃ now ttl age,
      Expiring.LastSet LogEntry.effect (heartbeatKey id) now ttl s.log age ∧ age < ttl := by
  obtain ⟨-, rfl⟩ := reply_eq_ok.1 got
  rw [sound.strings, Option.isSome_iff_exists]
  simp only [Expiring.get_replay_eq_some_iff]

/-- **In every interleaving of the clients' commands**, a node is listed exactly when the last command on it that
was executed adds it, it has the record of the last registration unless that is older than its time or the record
was deleted since, and it is alive in the same way by its heartbeats.  A reader fails exactly when its own command
does. -/
theorem answers {allowed : Membership → MembershipAction → Prop} (readsBack : serde.ReadsBack)
    (reached : Reached (step serde) allowed start s) (failures : Failures) (id : NodeId) :
    (∀ ids, s.listNodes failures = .ok ids → (id ∈ ids ↔ Added id.toString s.log)) ∧
      (∀ found, s.getNode serde failures id = .ok found → ∀ info, found = some info ↔
        info.id = id ∧ ∃ ttl age, Recorded serde info ttl s.log age ∧ age < ttl) ∧
      (∀ alive, s.isAlive failures id = .ok alive → (alive = true ↔ ∃ now ttl age,
        Expiring.LastSet LogEntry.effect (heartbeatKey id) now ttl s.log age ∧ age < ttl)) ∧
      ∀ e, (s.listNodes failures = .error e ↔ failures.smembers = some e) ∧
        (s.getNode serde failures id = .error e ↔ failures.get id = some e) ∧
        (s.isAlive failures id = .error e ↔ failures.keyExists id = some e) := by
  have sound := sound_of_reached reached
  refine ⟨fun ids listed => ?_, fun found got => sound.getNode_ok readsBack got,
    fun alive got => sound.isAlive_ok got, fun e => ⟨?_, ?_, ?_⟩⟩
  · obtain ⟨-, rfl⟩ := listNodes_eq_ok.1 listed
    exact sound.mem_listed id
  · cases fails : failures.smembers <;> simp [listNodes, reply, fails, Except.map]
  · cases answered : failures.get id with
    | none =>
      obtain ⟨found, got, -⟩ := sound.getNode readsBack answered
      simp [got]
    | some e' => simp [getNode_of_failure answered]
  · cases fails : failures.keyExists id <;> simp [isAlive, reply, fails]

/-! Three workers register for 10 seconds, and their commands cross. -/

/-- A worker with that number. -/
def worker (n : ℕ) : NodeInfo := ⟨.ofNat n, .collector, "0.0.0.0", 8080, 0, "0.1.0", []⟩

/-- The text of its record. -/
def workerJson (n : ℕ) : String :=
  "\x7b\"id\":\"" ++ (worker n).id.toString ++ "\",\"role\":\"Collector\",\"host\":\"0.0.0.0\",\"port\":8080," ++
    "\"started_at\":[1970,1,0,0,0,0,0,0,0],\"version\":\"0.1.0\",\"tags\":[]\x7d"

/-- `serde_json` on the records of the workers. -/
def workerSerde : NodeSerde where
  nodeToString info := if info = worker info.id.value then .ok (workerJson info.id.value) else .error "unknown"
  nodeFromStr text :=
    match Ulid.fromString (String.ofList ((text.toList.drop 7).take 26)) with
    | some id => if text = workerJson id.value then .ok (worker id.value) else .error "unknown"
    | none => .error "unknown"

theorem readsBack_workerSerde : workerSerde.ReadsBack := by
  intro info text written
  simp only [workerSerde] at written ⊢
  split_ifs at written with same
  obtain rfl := Except.ok.inj written
  have own : (worker info.id.value).id = info.id := congrArg NodeInfo.id same.symm
  have text : ((workerJson info.id.value).toList.drop 7).take 26 = info.id.toString.toList := by
    rw [workerJson, own]
    simp only [String.toList_append, List.append_assoc]
    have front : "\x7b\"id\":\"".toList.length = 7 := by decide
    rw [List.drop_left' front, List.take_left' (by rw [String.length_toList, Ulid.length_toString])]
  rw [text, String.ofList_toList, Ulid.fromString_toString]
  simp only [if_true]
  exact congrArg Except.ok same.symm

/-- Worker 7 sends a heartbeat, whose reply is lost, and is left alone until its record is too old; worker 8
deregisters but for its last command; worker 9 registers late. -/
def crossed : Membership :=
  [.call 0 (.register (worker 7) 10), .call 1 (.register (worker 8) 10), .command 0 true true, .command 1 true true,
    .command 1 true true, .command 0 true true, .wait 4, .call 0 (.heartbeat (worker 7) "4" 10),
    .call 1 (.deregister (worker 8).id), .command 1 true true, .command 0 true false, .command 1 true true,
    .command 1 false false, .call 2 (.register (worker 9) 10), .wait 6, .command 2 true true,
    .command 2 true true].foldl (Membership.step workerSerde) start

theorem reached_crossed : Reached (Membership.step workerSerde) (fun _ _ => True) start crossed :=
  reached_foldl _ _ _

/-- `GET` is not answered for worker 8. -/
def unanswered : Failures := ⟨none, fun id => if id = (worker 8).id then some "timed out" else none, fun _ => none⟩

theorem getNode_worker9 : crossed.getNode workerSerde unanswered (worker 9).id = .ok (some (worker 9)) := by
  have held : crossed.strings.get (nodeKey (worker 9).id) = some (workerJson 9) := by decide +kernel
  have own : unanswered.get (worker 9).id = none := by decide
  rw [getNode, own, held, reply_none]
  dsimp only
  rw [readsBack_workerSerde (worker 9) (workerJson 9) (by decide +kernel)]
  rfl

/-- Worker 7 is in the list and alive, but its record is too old; worker 8 is no longer in the list, and its record
cannot be asked for; worker 9 has a record and no heartbeat. -/
theorem answers_crossed :
    Added (worker 7).id.toString crossed.log ∧ ¬Added (worker 8).id.toString crossed.log ∧
      (∀ info ttl age, info.id = (worker 7).id → Recorded workerSerde info ttl crossed.log age → ttl ≤ age) ∧
      (∃ ttl age, Recorded workerSerde (worker 9) ttl crossed.log age ∧ age < ttl) ∧
      (∃ now ttl age,
        Expiring.LastSet LogEntry.effect (heartbeatKey (worker 7).id) now ttl crossed.log age ∧ age < ttl) ∧
      (¬∃ now ttl age,
        Expiring.LastSet LogEntry.effect (heartbeatKey (worker 9).id) now ttl crossed.log age ∧ age < ttl) ∧
      crossed.getNode workerSerde unanswered (worker 8).id = .error "timed out" := by
  obtain ⟨listed, record, alive, -⟩ := answers readsBack_workerSerde reached_crossed unanswered (worker 7).id
  obtain ⟨listed', -, -, fails⟩ := answers readsBack_workerSerde reached_crossed unanswered (worker 8).id
  obtain ⟨-, record', alive', -⟩ := answers readsBack_workerSerde reached_crossed unanswered (worker 9).id
  refine ⟨(listed _ rfl).1 (by decide), fun added => absurd ((listed' _ rfl).2 added) (by decide), ?_, ?_,
    (alive true (by decide)).1 rfl, fun beats => absurd ((alive' false (by decide)).2 beats) (by decide),
    (fails "timed out").2.1.2 (by decide)⟩
  · exact fun info ttl age own set => not_lt.1 fun young =>
      nomatch (record none rfl info).2 ⟨own, ttl, age, set, young⟩
  · exact ((record' _ getNode_worker9 (worker 9)).1 rfl).2

/-! ## A node that registers once -/

/-- The command writes the record of the node or takes the node off the list. -/
def Concerns (id : NodeId) : RedisCommand → Prop
  | .set key _ _ | .del key => key = nodeKey id
  | .srem member => member = id.toString
  | .sadd _ => False

variable (serde) in
/-- No call is begun that concerns the node; its heartbeats may go on. -/
def Leaves (id : NodeId) : MembershipAction → Prop
  | .call _ call => ∀ c ∈ call.commands serde, ¬Concerns id c
  | _ => True

theorem leaves_heartbeat (id : NodeId) (client : ℕ) (info : NodeInfo) (now : String) (ttl : ℕ) :
    Leaves serde id (.call client (.heartbeat info now ttl)) := by
  intro c mem same
  rw [List.mem_singleton.1 mem] at same
  exact nodeKey_ne_heartbeatKey _ _ same.symm

/-- The seconds that pass. -/
def waited (actions : List MembershipAction) : ℕ :=
  (actions.map fun | .wait seconds => seconds | _ => 0).sum

/-- Nothing is under way that concerns the node. -/
def Undisturbed (id : NodeId) (s : Membership) : Prop := ∀ client, ∀ c ∈ s.calls client, ¬Concerns id c

theorem Undisturbed.setCalls {id : NodeId} (undisturbed : Undisturbed id s) {client : ℕ} {rest : List RedisCommand}
    (quiet : ∀ c ∈ rest, ¬Concerns id c) : Undisturbed id (s.setCalls client rest) := by
  intro other c mem
  have mem : c ∈ Function.update s.calls client rest other := mem
  by_cases own : other = client
  · rw [own, Function.update_self] at mem
    exact quiet c mem
  · rw [Function.update_of_ne own] at mem
    exact undisturbed other c mem

/-- The entries do not concern the node and take so much time. -/
structure Quiet (id : NodeId) (time : ℕ) (entries : List LogEntry) : Prop where
  commands : ∀ c, .command c ∈ entries → ¬Concerns id c
  elapsed : Expiring.elapsed LogEntry.effect entries = time

theorem quiet_nil (id : NodeId) : Quiet id 0 [] := ⟨fun _ h => absurd h List.not_mem_nil, rfl⟩

theorem quiet_command {id : NodeId} {c : RedisCommand} (h : ¬Concerns id c) : Quiet id 0 [.command c] := by
  refine ⟨fun c' mem => ?_, by cases c <;> rfl⟩
  obtain rfl := LogEntry.command.inj (List.mem_singleton.1 mem)
  exact h

theorem Quiet.append {id : NodeId} {time time' : ℕ} {later entries : List LogEntry} (h' : Quiet id time' later)
    (h : Quiet id time entries) : Quiet id (time + time') (later ++ entries) := by
  refine ⟨fun c mem => (List.mem_append.1 mem).elim (h'.commands c) (h.commands c), ?_⟩
  rw [Expiring.elapsed, List.map_append, List.sum_append, Nat.add_comm]
  exact congrArg₂ (· + ·) h.elapsed h'.elapsed

/-- What a step adds to the log, the latest first. -/
theorem log_step {id : NodeId} (undisturbed : Undisturbed id s) {a : MembershipAction} (leaves : Leaves serde id a) :
    Undisturbed id (s.step serde a) ∧
      ∃ entries, (s.step serde a).log = entries ++ s.log ∧ Quiet id (waited [a]) entries := by
  cases a with
  | call client call =>
    rw [Membership.step]
    split_ifs
    · exact ⟨undisturbed.setCalls leaves, [], rfl, quiet_nil id⟩
    · exact ⟨undisturbed, [], rfl, quiet_nil id⟩
  | command client executed replied =>
    rw [Membership.step]
    cases calls : s.calls client with
    | nil => exact ⟨undisturbed, [], rfl, quiet_nil id⟩
    | cons c rest =>
      have quiet : ∀ c' ∈ c :: rest, ¬Concerns id c' := calls ▸ undisturbed client
      have done : Undisturbed id (s.execute c) := undisturbed
      have logged := quiet_command (quiet c List.mem_cons_self)
      have none : ∀ c' ∈ ([] : List RedisCommand), ¬Concerns id c' := fun _ mem => absurd mem List.not_mem_nil
      dsimp only
      split_ifs
      · exact ⟨done.setCalls fun c' mem => quiet c' (List.mem_cons_of_mem _ mem), [.command c], rfl, logged⟩
      · exact ⟨done.setCalls none, [.command c], rfl, logged⟩
      · exact ⟨undisturbed.setCalls none, [], rfl, quiet_nil id⟩
  | wait seconds => exact ⟨undisturbed, [.wait seconds], rfl, fun c mem => by simp at mem, rfl⟩

theorem log_run {id : NodeId} (undisturbed : Undisturbed id s) {actions : List MembershipAction}
    (leaves : ∀ a ∈ actions, Leaves serde id a) :
    ∃ later, (actions.foldl (Membership.step serde) s).log = later ++ s.log ∧ Quiet id (waited actions) later := by
  induction actions generalizing s with
  | nil => exact ⟨[], rfl, quiet_nil id⟩
  | cons a actions ih =>
    obtain ⟨here, leaves⟩ := List.forall_mem_cons.1 leaves
    obtain ⟨undisturbed', entries, log, quiet⟩ := log_step undisturbed here
    obtain ⟨later, log', quiet'⟩ := ih undisturbed' leaves
    have total : waited [a] + waited actions = waited (a :: actions) := by simp [waited]
    refine ⟨later ++ entries, ?_, total ▸ quiet'.append quiet⟩
    rw [List.foldl_cons, log', log, List.append_assoc]

theorem Quiet.untouched {id : NodeId} {time : ℕ} {later : List LogEntry} (quiet : Quiet id time later) :
    Expiring.Untouched LogEntry.effect (nodeKey id) later := by
  rintro (c | seconds) mem writes
  · refine quiet.commands c mem ?_
    cases c <;> simp_all [LogEntry.effect, Expiring.Effect.Writes, Concerns]
  · exact writes

theorem added_append {id : NodeId} {time : ℕ} {later log : List LogEntry} (quiet : Quiet id time later)
    (added : Added id.toString log) : Added id.toString (later ++ log) := by
  obtain ⟨middle, before, rfl, kept⟩ := added
  refine ⟨later ++ middle, before, by simp, ?_⟩
  rw [List.mem_append, not_or]
  exact ⟨fun mem => quiet.commands _ mem rfl, kept⟩

theorem recorded_append {info : NodeInfo} {time ttl : ℕ} {later log : List LogEntry}
    (quiet : Quiet info.id time later) :
    (∃ age, Recorded serde info ttl (later ++ log) age ∧ age < ttl) ↔
      ∃ age, Recorded serde info ttl log age ∧ age + time < ttl := by
  constructor
  · rintro ⟨age, ⟨json, text, last⟩, young⟩
    obtain ⟨age', last', rfl⟩ := last.of_append quiet.untouched
    exact ⟨age', ⟨json, text, last'⟩, quiet.elapsed ▸ young⟩
  · rintro ⟨age, ⟨json, text, last⟩, young⟩
    exact ⟨age + time, ⟨json, text, quiet.elapsed ▸ last.append quiet.untouched⟩, young⟩

/-- The nodes shown are the listed ones with a record. -/
theorem mem_nodesOf (own : ∀ id info, s.getNode serde failures id = .ok (some info) → info.id = id)
    {ids : List NodeId} {nodes : List (NodeInfo × Bool)} (shown : s.nodesOf serde failures ids = .ok nodes)
    (id : NodeId) : (∃ node ∈ nodes, node.1.id = id) ↔
      id ∈ ids ∧ ∃ info, s.getNode serde failures id = .ok (some info) := by
  induction ids generalizing nodes with
  | nil =>
    cases shown
    simp
  | cons other ids ih =>
    rw [nodesOf] at shown
    cases got : s.getNode serde failures other with
    | error e =>
      rw [got] at shown
      cases shown
    | ok found =>
      rw [got] at shown
      cases found with
      | none =>
        rw [ih shown, List.mem_cons]
        refine and_congr_left fun ⟨info, read⟩ => (or_iff_right fun same => ?_).symm
        rw [same, got] at read
        cases read
      | some info =>
        cases rest : s.nodesOf serde failures ids with
        | error e =>
          simp only [rest, Except.map] at shown
          cases shown
        | ok nodes' =>
          simp only [rest, Except.map] at shown
          cases shown
          have ours := own other info got
          rw [List.exists_mem_cons_iff, ih rest, List.mem_cons, ours]
          constructor
          · rintro (rfl | ⟨mem, read⟩)
            · exact ⟨.inl rfl, info, got⟩
            · exact ⟨.inr mem, read⟩
          · rintro ⟨rfl | mem, read⟩
            · exact .inl rfl
            · exact .inr ⟨mem, read⟩

/-- The loop stops at a record that cannot be read. -/
theorem getNode_of_nodesOf {ids : List NodeId} {nodes : List (NodeInfo × Bool)}
    (shown : s.nodesOf serde failures ids = .ok nodes) :
    ∀ id ∈ ids, ∃ found, s.getNode serde failures id = .ok found := by
  induction ids generalizing nodes with
  | nil => exact fun id mem => absurd mem List.not_mem_nil
  | cons other ids ih =>
    rw [nodesOf] at shown
    cases got : s.getNode serde failures other with
    | error e =>
      rw [got] at shown
      cases shown
    | ok found =>
      refine List.forall_mem_cons.2 ⟨⟨found, got⟩, ?_⟩
      rw [got] at shown
      cases found with
      | none => exact ih shown
      | some info =>
        cases rest : s.nodesOf serde failures ids with
        | error e =>
          simp only [rest, Except.map] at shown
          cases shown
        | ok nodes' => exact ih rest

theorem exists_nodesOf (readable : ∀ id, ∃ found, s.getNode serde failures id = .ok found) (ids : List NodeId) :
    ∃ nodes, s.nodesOf serde failures ids = .ok nodes := by
  induction ids with
  | nil => exact ⟨[], rfl⟩
  | cons id ids ih =>
    obtain ⟨nodes, shown⟩ := ih
    obtain ⟨found, got⟩ := readable id
    rw [nodesOf, got]
    cases found with
    | none => exact ⟨nodes, shown⟩
    | some info => exact ⟨_, by simp only [shown]; rfl⟩

/-- **While a node is neither registered again nor deregistered, its record lasts as long as its last registration
said, whatever heartbeats come.**  The node stays in the list of the ids, and is alive by its heartbeats, but the
API, which answers if its commands are answered, shows the node only as long as it has its record. -/
theorem record_lasts (readsBack : serde.ReadsBack) (reached : Reached (step serde) (fun _ _ => True) start s)
    {id : NodeId} (undisturbed : Undisturbed id s) {actions : List MembershipAction}
    (leaves : ∀ a ∈ actions, Leaves serde id a) (failures : Failures) :
    let s' := actions.foldl (Membership.step serde) s
    let Lasts := fun info => ∃ ttl age, Recorded serde info ttl s.log age ∧ age + waited actions < ttl
    (∀ ids, s'.listNodes failures = .ok ids → Added id.toString s.log → id ∈ ids) ∧
      (∀ alive, s'.isAlive failures id = .ok alive → (alive = true ↔ ∃ now ttl age,
        Expiring.LastSet LogEntry.effect (heartbeatKey id) now ttl s'.log age ∧ age < ttl)) ∧
      (∀ found, s'.getNode serde failures id = .ok found →
        ∀ info, found = some info ↔ info.id = id ∧ Lasts info) ∧
      ∀ order, (∀ ids : Multiset NodeId, (order ids : Multiset NodeId) = ids) →
        (failures.smembers = none → (∀ id, failures.get id = none) →
          ∃ nodes, s'.clusterListNodes serde failures order = .ok nodes) ∧
        ∀ nodes, s'.clusterListNodes serde failures order = .ok nodes →
          ((∃ node ∈ nodes, node.1.id = id) ↔ Added id.toString s'.log ∧ ∃ info, info.id = id ∧ Lasts info) := by
  intro s' Lasts
  have sound' : Sound serde s' := sound_of_reached (reached.trans (reached_foldl _ _ _))
  obtain ⟨later, log, quiet⟩ := log_run undisturbed leaves
  have record (info : NodeInfo) :
      (info.id = id ∧ ∃ ttl age, Recorded serde info ttl s'.log age ∧ age < ttl) ↔ info.id = id ∧ Lasts info := by
    refine and_congr_right ?_
    rintro rfl
    rw [log]
    exact exists_congr fun ttl => recorded_append quiet
  have read : ∀ found, s'.getNode serde failures id = .ok found →
      ∀ info, found = some info ↔ info.id = id ∧ Lasts info := fun found got info =>
    (sound'.getNode_ok readsBack got info).trans (record info)
  have own : ∀ other info, s'.getNode serde failures other = .ok (some info) → info.id = other :=
    fun other info got => ((sound'.getNode_ok readsBack got info).1 rfl).1
  refine ⟨fun ids listed added => ?_, fun alive got => sound'.isAlive_ok got, read,
    fun order whole => ⟨fun answered gets => ?_, ?_⟩⟩
  · obtain ⟨-, rfl⟩ := listNodes_eq_ok.1 listed
    rw [sound'.mem_listed, log]
    exact added_append quiet added
  · rw [clusterListNodes, listNodes_eq_ok.2 ⟨answered, rfl⟩]
    exact exists_nodesOf (fun other => (sound'.getNode readsBack (gets other)).imp fun _ h => h.1) _
  · intro nodes shown
    rw [clusterListNodes] at shown
    cases listed : s'.listNodes failures with
    | error e =>
      rw [listed] at shown
      cases shown
    | ok ids =>
      rw [listed] at shown
      obtain ⟨-, rfl⟩ := listNodes_eq_ok.1 listed
      rw [mem_nodesOf own shown, ← Multiset.mem_coe, whole, sound'.mem_listed]
      refine and_congr_right fun added => ?_
      have mem := (sound'.mem_listed id).2 added
      rw [← whole (s'.members.val.filterMap Ulid.fromString), Multiset.mem_coe] at mem
      obtain ⟨found, got⟩ := getNode_of_nodesOf shown id mem
      refine exists_congr fun info => ?_
      rw [got, Except.ok.injEq]
      exact read found got info

/-- Two workers have registered. -/
def registered : Membership :=
  [.call 0 (.register (worker 7) 10), .call 1 (.register (worker 8) 30), .command 0 true true, .command 1 true true,
    .command 0 true true, .command 1 true true].foldl (Membership.step workerSerde) start

/-- Both send heartbeats, one of which is lost. -/
def beats : List MembershipAction :=
  [.wait 5, .call 0 (.heartbeat (worker 7) "5" 10), .command 0 true true, .call 1 (.heartbeat (worker 8) "5" 10),
    .wait 5, .command 1 false false, .call 0 (.heartbeat (worker 7) "10" 10), .command 0 true true]

theorem reached_registered : Reached (Membership.step workerSerde) (fun _ _ => True) start registered :=
  reached_foldl _ _ _

theorem undisturbed_registered (n : ℕ) : Undisturbed (worker n).id registered := by
  intro client c mem
  have idle : registered.calls client = [] := by
    by_cases first : client = 0
    · subst first
      rfl
    by_cases second : client = 1
    · subst second
      rfl
    calc registered.calls client
        = _ := Function.update_of_ne second _ _
      _ = _ := Function.update_of_ne first _ _
      _ = _ := Function.update_of_ne second _ _
      _ = _ := Function.update_of_ne first _ _
      _ = _ := Function.update_of_ne second _ _
      _ = [] := Function.update_of_ne first _ _
  rw [idle] at mem
  exact absurd mem List.not_mem_nil

theorem leaves_beats (id : NodeId) : ∀ a ∈ beats, Leaves workerSerde id a := by
  intro a mem
  simp only [beats, List.mem_cons, List.not_mem_nil, or_false] at mem
  rcases mem with rfl | rfl | rfl | rfl | rfl | rfl | rfl | rfl
  any_goals trivial
  all_goals exact leaves_heartbeat _ _ _ _ _

/-- The two after their heartbeats. -/
def beaten : Membership := beats.foldl (Membership.step workerSerde) registered

theorem getNode_worker8 : beaten.getNode workerSerde noFailures (worker 8).id = .ok (some (worker 8)) := by
  have held : beaten.strings.get (nodeKey (worker 8).id) = some (workerJson 8) := by decide +kernel
  rw [getNode, held, noFailures, reply_none]
  dsimp only
  rw [readsBack_workerSerde (worker 8) (workerJson 8) (by decide +kernel)]
  rfl

/-- Worker 7 stays in the list and is alive, but its record is gone and the API shows worker 8 only. -/
theorem record_lasts_beats :
    (∀ ids, beaten.listNodes noFailures = .ok ids → (worker 7).id ∈ ids) ∧
      (∃ now ttl age,
        Expiring.LastSet LogEntry.effect (heartbeatKey (worker 7).id) now ttl beaten.log age ∧ age < ttl) ∧
      (∀ info ttl age, info.id = (worker 7).id → Recorded workerSerde info ttl registered.log age → ttl ≤ age + 10) ∧
      (∃ ttl age, Recorded workerSerde (worker 8) ttl registered.log age ∧ age + 10 < ttl) ∧
      ∃ nodes, beaten.clusterListNodes workerSerde noFailures Multiset.toList = .ok nodes ∧
        (¬∃ node ∈ nodes, node.1.id = (worker 7).id) ∧ ∃ node ∈ nodes, node.1.id = (worker 8).id := by
  obtain ⟨listed, alive, record, shown⟩ :=
    record_lasts readsBack_workerSerde reached_registered (undisturbed_registered 7) (leaves_beats _) noFailures
  obtain ⟨-, -, record', shown'⟩ :=
    record_lasts readsBack_workerSerde reached_registered (undisturbed_registered 8) (leaves_beats _) noFailures
  have sound : Sound workerSerde registered := sound_of_reached reached_registered
  have sound' : Sound workerSerde beaten := sound_of_reached (reached_registered.trans (reached_foldl _ _ _))
  have old : ∀ info ttl age, info.id = (worker 7).id → Recorded workerSerde info ttl registered.log age →
      ttl ≤ age + 10 := fun info ttl age own set => not_lt.1 fun young =>
    nomatch (record none rfl info).2 ⟨own, ttl, age, set, young⟩
  obtain ⟨nodes, answer⟩ := (shown Multiset.toList Multiset.coe_toList).1 rfl fun _ => rfl
  have young := ((record' _ getNode_worker8 (worker 8)).1 rfl).2
  refine ⟨fun ids listed' => listed ids listed' ?_, (alive true (by decide)).1 rfl, old, young, nodes, answer, ?_, ?_⟩
  · exact (sound.mem_listed _).1 (by decide)
  · rw [(shown Multiset.toList Multiset.coe_toList).2 nodes answer]
    rintro ⟨-, info, own, ttl, age, set, young⟩
    exact absurd young (not_lt.2 (old info ttl age own set))
  · rw [(shown' Multiset.toList Multiset.coe_toList).2 nodes answer]
    exact ⟨(sound'.mem_listed _).1 (by decide), worker 8, rfl, young⟩

end Membership

end TORdex.Cluster
