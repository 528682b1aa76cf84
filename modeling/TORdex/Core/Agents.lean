import Mathlib.Data.List.Infix
import TORdex.Core.EventStore
import TORdex.Lib.FiniteMap

/-!
# The agent runtime

`tick_all` and `dispatch_event` call the registered agents one after the other, in the order in which the map
lists them, and return with the first error: the agents behind a failing one are not called.  `W` is the state
of the kernel and of the agents.
-/

namespace TORdex.Agents

/-- An agent is known by a ULID. -/
abbrev AgentId := Ulid

/-- The hooks of an agent that the runtime calls for all agents. -/
structure Agent (W : Type) where
  tick : W → Except CoreError Unit × W
  handleEvent : EventEnvelope → W → Except CoreError Unit × W

/-- The registered agents. -/
structure InMemoryAgentRuntime (W : Type) where
  agents : HashMap AgentId (Agent W)

/-- The calls of a loop over the agents with what they returned, and what the loop returns. -/
structure Visit (W : Type) where
  calls : List (AgentId × Except CoreError Unit)
  result : Except CoreError Unit
  world : W

section Loop

variable {W : Type} (call : Agent W → W → Except CoreError Unit × W)

/-- `for agent in &agents { call(agent)?; }`. -/
def visit : List (AgentId × Agent W) → W → Visit W
  | [], w => ⟨[], .ok (), w⟩
  | (id, agent) :: agents, w =>
    match call agent w with
    | (.error e, w) => ⟨[(id, .error e)], .error e, w⟩
    | (.ok (), w) =>
      let rest := visit agents w
      ⟨(id, .ok ()) :: rest.calls, rest.result, rest.world⟩

/-- No agent but the last one fails. -/
def GoesThrough : List (AgentId × Agent W) → W → Prop
  | (_, agent) :: next :: agents, w =>
    (call agent w).1 = .ok () ∧ GoesThrough (next :: agents) (call agent w).2
  | _, _ => True

end Loop

namespace InMemoryAgentRuntime

variable {W : Type} (runtime : InMemoryAgentRuntime W)

/-- The registered agents, in some order of the map. -/
def listed (order : List AgentId) : List (AgentId × Agent W) :=
  order.filterMap fun id => (runtime.agents.lookup id).map fun agent => (id, agent)

/-- Tick all agents, in the order of the listing. -/
def tickAll (order : List AgentId) : W → Visit W := visit (·.tick) (runtime.listed order)

/-- Give an event to all agents, in the order of the listing. -/
def dispatchEvent (event : EventEnvelope) (order : List AgentId) : W → Visit W :=
  visit (·.handleEvent event) (runtime.listed order)

end InMemoryAgentRuntime

/-- Every registered agent is called exactly once, and a failure is reported. -/
structure Fair {W : Type} (runtime : InMemoryAgentRuntime W) (v : Visit W) : Prop where
  once : ∀ id ∈ runtime.agents, (v.calls.map Prod.fst).count id = 1
  reports : (∃ c ∈ v.calls, ∃ e, c.2 = .error e) → ∃ e, v.result = .error e

section Visits

variable {W : Type} {call : Agent W → W → Except CoreError Unit × W} {agents : List (AgentId × Agent W)}
    {w : W}

theorem calls_isPrefix : ((visit call agents w).calls.map Prod.fst) <+: agents.map Prod.fst := by
  induction agents generalizing w with
  | nil => exact List.prefix_rfl
  | cons e agents ih =>
    obtain ⟨id, agent⟩ := e
    rw [visit]
    split
    · exact List.prefix_append [id] _
    · exact (List.prefix_cons_inj id).2 ih

/-- All agents are called exactly when the loop is not left before the last one. -/
theorem calls_eq_iff :
    ((visit call agents w).calls.map Prod.fst = agents.map Prod.fst) ↔ GoesThrough call agents w := by
  induction agents generalizing w with
  | nil => exact iff_of_true rfl trivial
  | cons e agents ih =>
    obtain ⟨id, agent⟩ := e
    rw [visit]
    split
    · next error w' failed =>
      cases agents with
      | nil => exact iff_of_true rfl trivial
      | cons next agents =>
        refine iff_of_false (fun same => ?_) fun through => ?_
        · simpa using congrArg List.length same
        · have ok := through.1
          rw [failed] at ok
          cases ok
    · next w' passed =>
      rw [List.map_cons, List.map_cons, List.cons_inj_right, ih]
      cases agents with
      | nil => exact iff_of_true trivial trivial
      | cons next agents => rw [GoesThrough, passed, and_iff_right rfl]

/-- A failure ends the loop, and is what it returns. -/
theorem result_eq_error {id : AgentId} {e : CoreError} (h : (id, .error e) ∈ (visit call agents w).calls) :
    (visit call agents w).result = .error e := by
  induction agents generalizing w with
  | nil => cases h
  | cons a agents ih =>
    obtain ⟨id', agent⟩ := a
    rw [visit] at h ⊢
    split at h
    · next error w' failed =>
      obtain ⟨-, same⟩ := Prod.mk.inj (List.mem_singleton.1 h)
      rw [same]
    · rcases List.mem_cons.1 h with same | later
      · cases (Prod.mk.inj same).2
      · exact ih later

end Visits

section Runtime

variable {W : Type} {runtime : InMemoryAgentRuntime W} {order : List AgentId}

theorem ids_listed (keys : (order : Multiset AgentId) = runtime.agents.keys.val) :
    (runtime.listed order).map Prod.fst = order := by
  have found : ∀ id ∈ order, (runtime.agents.lookup id).isSome := by
    intro id mem
    have inside : id ∈ runtime.agents.keys.val := keys ▸ Multiset.mem_coe.2 mem
    exact Finmap.lookup_isSome.2 (Finmap.mem_keys.1 inside)
  rw [InMemoryAgentRuntime.listed]
  clear keys
  induction order with
  | nil => rfl
  | cons id order ih =>
    obtain ⟨agent, first⟩ := Option.isSome_iff_exists.1 (found id List.mem_cons_self)
    rw [List.filterMap_cons_some (by rw [first]; rfl), List.map_cons,
      ih fun id mem => found id (List.mem_cons_of_mem _ mem)]

/-- The loop is fair exactly when no agent but the last one fails. -/
theorem fair_visit_iff (call : Agent W → W → Except CoreError Unit × W) (w : W)
    (keys : (order : Multiset AgentId) = runtime.agents.keys.val) :
    Fair runtime (visit call (runtime.listed order) w) ↔ GoesThrough call (runtime.listed order) w := by
  have nodup : order.Nodup := by
    rw [← Multiset.coe_nodup, keys]
    exact runtime.agents.keys.nodup
  have registered : ∀ id, id ∈ runtime.agents ↔ id ∈ order := by
    intro id
    rw [← Finmap.mem_keys, Finset.mem_def, ← keys, Multiset.mem_coe]
  rw [← calls_eq_iff, ids_listed keys]
  constructor
  · intro fair
    have first := @calls_isPrefix W call (runtime.listed order) w
    rw [ids_listed keys] at first
    have all : order ⊆ (visit call (runtime.listed order) w).calls.map Prod.fst := fun id mem =>
      List.count_pos_iff.1 (by rw [fair.once id ((registered id).2 mem)]; exact Nat.one_pos)
    exact first.eq_of_length_le (nodup.subperm all).length_le
  · intro all
    refine ⟨fun id mem => ?_, ?_⟩
    · rw [all]
      exact List.count_eq_one_of_mem nodup ((registered id).1 mem)
    · rintro ⟨⟨id, result⟩, mem, e, rfl⟩
      exact ⟨e, result_eq_error mem⟩

/-- **Ticks and events reach every registered agent exactly when no agent but the last one fails.** -/
theorem fair_iff (runtime : InMemoryAgentRuntime W) (order : List AgentId) (w : W)
    (keys : (order : Multiset AgentId) = runtime.agents.keys.val) :
    (Fair runtime (runtime.tickAll order w) ↔ GoesThrough (·.tick) (runtime.listed order) w) ∧
      ∀ event, Fair runtime (runtime.dispatchEvent event order w) ↔
        GoesThrough (·.handleEvent event) (runtime.listed order) w :=
  ⟨fair_visit_iff _ w keys, fun _ => fair_visit_iff _ w keys⟩

end Runtime

/-- An agent that returns the same whenever it is called. -/
def constant (result : Except CoreError Unit) : Agent Unit := ⟨fun w => (result, w), fun _ w => (result, w)⟩

/-- Two agents, of which the first one fails. -/
def twoAgents : InMemoryAgentRuntime Unit :=
  ⟨(Finmap.singleton (.ofNat 2) (constant (.ok ()))).insert (.ofNat 1) (constant (.error (.agent "failed")))⟩

theorem keys_twoAgents :
    (([.ofNat 1, .ofNat 2] : List AgentId) : Multiset AgentId) = twoAgents.agents.keys.val := by
  decide

theorem fair_twoAgents :
    (Fair twoAgents (twoAgents.tickAll [.ofNat 1, .ofNat 2] ()) ↔
        GoesThrough (·.tick) (twoAgents.listed [.ofNat 1, .ofNat 2]) ()) ∧
      ∀ event, Fair twoAgents (twoAgents.dispatchEvent event [.ofNat 1, .ofNat 2] ()) ↔
        GoesThrough (·.handleEvent event) (twoAgents.listed [.ofNat 1, .ofNat 2]) () :=
  fair_iff twoAgents [.ofNat 1, .ofNat 2] () keys_twoAgents

/-- The second agent is not called when the map lists the failing one first. -/
theorem tick_starves :
    ([.ofNat 1, .ofNat 2] : List AgentId) = twoAgents.agents.keys.val ∧
      ¬Fair twoAgents (twoAgents.tickAll [.ofNat 1, .ofNat 2] ()) := by
  refine ⟨keys_twoAgents, fun fair => ?_⟩
  have once := fair.once (.ofNat 2) (by decide)
  exact absurd once (by decide)

end TORdex.Agents
