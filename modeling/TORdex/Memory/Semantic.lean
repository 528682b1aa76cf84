import Mathlib.Data.Multiset.OrderedMonoid
import TORdex.Knowledge.Core
import TORdex.Lib.Runs
import TORdex.TemporalGraph.Graph
import TORdex.Vm.Services

/-!
# Semantic memory

Facts under their ids, with an edge for each fact about a string.  The identifiers that are generated, and the
readings of the clock, come with the calls.
-/

namespace TORdex

open Vm KnowledgeBase

/-- The facts, with the knowledge and the graph made of them. -/
structure DefaultSemanticMemory where
  knowledge : KnowledgeCore
  graph : TemporalGraph
  facts : HashMap Ulid SemanticFact

namespace DefaultSemanticMemory

/-- Without facts. -/
def new : DefaultSemanticMemory := ⟨.new, .new, ∅⟩

/-- The relationship of a fact about a string. -/
def relationshipOf (fact : SemanticFact) (relationshipId : Ulid) (target : String) : TORdex.Relationship where
  id := relationshipId
  kind := fact.predicate
  sourceId := fact.subject
  targetId := target
  sourceType := "entity"
  targetType := "entity"
  properties := ∅
  firstSeen := fact.createdAt
  lastSeen := fact.createdAt
  createdAt := fact.createdAt
  metadata := ∅

/-- `store_fact`, with the identifiers from `KnowledgeId::generate` and `RelationshipId::generate`. -/
def storeFact (env : Env) (m : DefaultSemanticMemory) (fact : SemanticFact)
    (knowledgeId relationshipId : Ulid) (now : ℕ → OffsetDateTime) : DefaultSemanticMemory :=
  let kc : KnowledgeBase.Knowledge := {
    id := knowledgeId
    kind := "fact:" ++ fact.predicate
    content := .obj [("object", fact.object), ("predicate", .str fact.predicate),
      ("subject", .str fact.subject)]
    confidence := fact.confidence
    sourceIds := fact.sourceIds
    metadata := ∅ }
  { knowledge := (m.knowledge.ingest env kc now).2
    graph :=
      match fact.object.asStr with
      | some s => m.graph.ingestRelationship (relationshipOf fact relationshipId s)
      | none => m.graph
    facts := m.facts.insert fact.id fact }

/-- Delete a fact; the graph is left as it is. -/
def deleteFact (m : DefaultSemanticMemory) (id : Ulid) : Except String DefaultSemanticMemory :=
  match m.facts.lookup id with
  | some _ => .ok { m with facts := m.facts.erase id }
  | none => .error ("fact " ++ id.toString ++ " not found")

/-- Delete all facts; the graph is left as it is. -/
def clear (m : DefaultSemanticMemory) : DefaultSemanticMemory := { m with facts := ∅ }

end DefaultSemanticMemory

/-- A call, with what it takes from outside. -/
inductive SemanticCall where
  | storeFact (fact : SemanticFact) (knowledgeId relationshipId : Ulid) (now : ℕ → OffsetDateTime)
  | deleteFact (id : Ulid)
  | clear

/-- The memory after a call; a call that returns an error leaves it as it is. -/
def DefaultSemanticMemory.step (env : Env) (m : DefaultSemanticMemory) : SemanticCall → DefaultSemanticMemory
  | .storeFact fact knowledgeId relationshipId now => m.storeFact env fact knowledgeId relationshipId now
  | .deleteFact id =>
    match m.deleteFact id with
    | .ok m' => m'
    | .error _ => m
  | .clear => m.clear

end TORdex

/-!
## The graph of semantic memory

The edges are those of the facts about strings, and those of the facts that were replaced, deleted or
cleared.  So the graph mirrors the facts as long as no fact about a string is given up.
-/

namespace TORdex

open Vm KnowledgeBase

namespace DefaultSemanticMemory

variable {env : Env} {m : DefaultSemanticMemory} {call : SemanticCall} {calls : List SemanticCall}

/-- Source, kind and target of an edge, or subject, predicate and object of a fact. -/
abbrev Triple := String × String × String

/-- The triple of an edge. -/
def edgeTriple (e : TemporalEdge) : Triple := (e.sourceId, e.kind, e.targetId)

/-- The triple of a fact whose object is a text. -/
def factTriple (f : SemanticFact) : Option Triple := f.object.asStr.map fun s => (f.subject, f.predicate, s)

/-- The edges of the graph. -/
def edges (m : DefaultSemanticMemory) : Multiset Triple :=
  (FiniteMap.values m.graph.state.edges).map edgeTriple

/-- The triples of all facts. -/
def triplesOf (facts : HashMap Ulid SemanticFact) : Multiset Triple :=
  (FiniteMap.values facts).filterMap factTriple

/-- The facts about strings. -/
def stringFacts (m : DefaultSemanticMemory) : Multiset Triple := triplesOf m.facts

/-- There is an edge for each fact about a string, and no other one. -/
def Mirrors (m : DefaultSemanticMemory) : Prop := m.edges = m.stringFacts

/-- For each fact about a string there is exactly one edge like it, and no other edge. -/
def ExactlyOne (m : DefaultSemanticMemory) : Prop :=
  (∀ t ∈ m.stringFacts, m.edges.count t = 1) ∧ ∀ t ∈ m.edges, t ∈ m.stringFacts

/-- The fact under an id, if it is about a string. -/
def stringFact (m : DefaultSemanticMemory) (id : Ulid) : Multiset Triple :=
  ((m.facts.lookup id).bind factTriple).toList

/-- The facts about strings that a call gives up. -/
def givenUp (m : DefaultSemanticMemory) : SemanticCall → Multiset Triple
  | .storeFact fact _ _ _ => m.stringFact fact.id
  | .deleteFact id => m.stringFact id
  | .clear => m.stringFacts

/-- The identifier that is generated for a relationship is not that of an edge. -/
def Fresh (m : DefaultSemanticMemory) : SemanticCall → Prop
  | .storeFact _ _ relationshipId _ => m.graph.state.edges.lookup relationshipId.toString = none
  | _ => True

/-- No fact about a string is replaced, deleted or cleared. -/
def Keeps (m : DefaultSemanticMemory) : SemanticCall → Prop
  | .storeFact fact _ _ _ => ∀ old, m.facts.lookup fact.id = some old → old.object.asStr = none
  | .deleteFact id => ∀ old, m.facts.lookup id = some old → old.object.asStr = none
  | .clear => ∀ id old, m.facts.lookup id = some old → old.object.asStr = none

/-! ### One call -/

theorem triplesOf_insert (facts : HashMap Ulid SemanticFact) (id : Ulid) (f : SemanticFact) :
    triplesOf (facts.insert id f) =
      ((factTriple f).toList : Multiset Triple) + triplesOf (facts.erase id) := by
  rw [triplesOf, FiniteMap.values_insert]
  cases triple : factTriple f with
  | none => exact (Multiset.filterMap_cons_none _ _ triple).trans (Multiset.zero_add _).symm
  | some t => exact Multiset.filterMap_cons_some _ _ _ triple

theorem triplesOf_erase (facts : HashMap Ulid SemanticFact) (id : Ulid) :
    triplesOf facts =
      (((facts.lookup id).bind factTriple).toList : Multiset Triple) + triplesOf (facts.erase id) := by
  cases found : facts.lookup id with
  | none =>
    rw [FiniteMap.erase_of_lookup_eq_none found]
    exact (Multiset.zero_add _).symm
  | some f =>
    rw [Option.bind_some, ← triplesOf_insert, triplesOf, triplesOf, FiniteMap.values_insert,
      FiniteMap.values_of_lookup found]

theorem edges_storeFact {fact : SemanticFact} {knowledgeId relationshipId : Ulid} {now : ℕ → OffsetDateTime}
    (fresh : m.Fresh (.storeFact fact knowledgeId relationshipId now)) :
    (m.storeFact env fact knowledgeId relationshipId now).edges =
      ((factTriple fact).toList : Multiset Triple) + m.edges := by
  unfold storeFact edges factTriple
  cases fact.object.asStr with
  | none => exact (Multiset.zero_add _).symm
  | some s =>
    let edge := TemporalGraph.edgeOf (relationshipOf fact relationshipId s)
    have values : FiniteMap.values (m.graph.state.edges.insert relationshipId.toString edge) =
        edge ::ₘ FiniteMap.values m.graph.state.edges := by
      rw [FiniteMap.values_insert, FiniteMap.erase_of_lookup_eq_none fresh]
    exact (congrArg (Multiset.map edgeTriple) values).trans (Multiset.map_cons ..)

/-- What a call gives up of the facts stays in the graph. -/
theorem edges_step (env : Env) (fresh : m.Fresh call) :
    (m.step env call).edges + m.stringFacts = (m.step env call).stringFacts + m.edges + m.givenUp call := by
  cases call with
  | storeFact fact knowledgeId relationshipId now =>
    have facts : (m.storeFact env fact knowledgeId relationshipId now).stringFacts = _ :=
      triplesOf_insert m.facts fact.id fact
    have old : m.stringFacts = _ := triplesOf_erase m.facts fact.id
    rw [step, edges_storeFact fresh, facts, old, givenUp, stringFact]
    ac_rfl
  | deleteFact id =>
    have old : m.stringFacts = _ := triplesOf_erase m.facts id
    rw [step, deleteFact, givenUp, stringFact]
    cases found : m.facts.lookup id with
    | none => exact (add_comm _ _).trans (Multiset.add_zero _).symm
    | some f =>
      rw [old, found]
      change m.edges + _ = triplesOf (m.facts.erase id) + m.edges + _
      ac_rfl
  | clear =>
    change m.edges + m.stringFacts = triplesOf ∅ + m.edges + m.stringFacts
    rw [show triplesOf ∅ = 0 from rfl, Multiset.zero_add]

theorem givenUp_eq_zero_iff (m : DefaultSemanticMemory) (call : SemanticCall) :
    m.givenUp call = 0 ↔ m.Keeps call := by
  have one (id : Ulid) : m.stringFact id = 0 ↔
      ∀ old, m.facts.lookup id = some old → old.object.asStr = none := by
    unfold stringFact
    cases m.facts.lookup id with
    | none => simp
    | some f => simp [factTriple]
  cases call with
  | storeFact fact _ _ _ => exact one fact.id
  | deleteFact id => exact one id
  | clear =>
    simp only [givenUp, stringFacts, triplesOf, Keeps, Multiset.eq_zero_iff_forall_notMem,
      Multiset.mem_filterMap, FiniteMap.mem_values]
    constructor
    · intro none id old found
      rw [Option.eq_none_iff_forall_ne_some]
      exact fun s object => none _ ⟨old, ⟨id, found⟩, by rw [factTriple, object]; rfl⟩
    · rintro keeps t ⟨f, ⟨id, found⟩, triple⟩
      rw [factTriple, keeps id f found] at triple
      cases triple

/-! ### Runs -/

/-- The facts about strings that the calls of a run give up. -/
def stale (env : Env) : DefaultSemanticMemory → List SemanticCall → Multiset Triple
  | _, [] => 0
  | m, call :: calls => m.givenUp call + stale env (m.step env call) calls

theorem edges_run (fresh : Along (step env) Fresh m calls) :
    (calls.foldl (step env) m).edges + m.stringFacts =
      (calls.foldl (step env) m).stringFacts + m.edges + stale env m calls := by
  induction calls generalizing m with
  | nil => exact (add_comm _ _).trans (Multiset.add_zero _).symm
  | cons call calls ih =>
    have now := edges_step env fresh.1
    have later := ih fresh.2
    rw [List.foldl_cons, stale]
    refine add_right_cancel (b := (m.step env call).stringFacts) ?_
    calc
      _ = (calls.foldl (step env) (m.step env call)).edges + (m.step env call).stringFacts +
          m.stringFacts := by ac_rfl
      _ = (calls.foldl (step env) (m.step env call)).stringFacts + stale env (m.step env call) calls +
          ((m.step env call).edges + m.stringFacts) := by rw [later]; ac_rfl
      _ = _ := by rw [now]; ac_rfl

theorem stale_eq_zero_iff : stale env m calls = 0 ↔ Along (step env) Keeps m calls := by
  induction calls generalizing m with
  | nil => exact iff_of_true rfl trivial
  | cons call calls ih => rw [stale, add_eq_zero, givenUp_eq_zero_iff, ih, Along]

theorem edges_eq (fresh : Along (step env) Fresh new calls) :
    (calls.foldl (step env) new).edges = (calls.foldl (step env) new).stringFacts + stale env new calls := by
  have run := edges_run fresh
  rwa [show new.stringFacts = 0 from rfl, show new.edges = 0 from rfl, add_zero, add_zero] at run

/-- **The graph mirrors the facts exactly if no fact about a string is given up**, and has exactly one edge
like each of them if these are different as well. -/
theorem mirrors_iff (env : Env) (calls : List SemanticCall) (fresh : Along (step env) Fresh new calls) :
    (Mirrors (calls.foldl (step env) new) ↔ Along (step env) Keeps new calls) ∧
      (ExactlyOne (calls.foldl (step env) new) ↔
        Along (step env) Keeps new calls ∧ (calls.foldl (step env) new).stringFacts.Nodup) := by
  have balance := edges_eq fresh
  rw [← stale_eq_zero_iff]
  generalize calls.foldl (step env) new = m at balance
  have mirrors : Mirrors m ↔ stale env new calls = 0 := by
    rw [Mirrors, balance]
    exact add_eq_left
  refine ⟨mirrors, ?_⟩
  rw [← mirrors]
  constructor
  · rintro ⟨once, others⟩
    have fewer : m.stringFacts ≤ m.edges := balance ▸ Multiset.le_add_right _ _
    have counts (t : Triple) : m.stringFacts.count t ≤ 1 ∧ m.edges.count t = m.stringFacts.count t := by
      have le := Multiset.count_le_of_le t fewer
      by_cases mem : t ∈ m.stringFacts
      · have pos := Multiset.one_le_count_iff_mem.2 mem
        rw [once t mem] at le ⊢
        exact ⟨le, pos.antisymm le⟩
      · have absent : t ∉ _ := fun edge => mem (others t edge)
        rw [Multiset.count_eq_zero_of_notMem mem, Multiset.count_eq_zero_of_notMem absent]
        exact ⟨Nat.zero_le 1, rfl⟩
    exact ⟨Multiset.ext.2 fun t => (counts t).2, Multiset.nodup_iff_count_le_one.2 fun t => (counts t).1⟩
  · rintro ⟨mirror, distinct⟩
    rw [ExactlyOne, mirror]
    exact ⟨fun t mem => Multiset.count_eq_one_of_mem distinct mem, fun t mem => mem⟩

/-- One digest for everything. -/
def sampleEnv : Env := ⟨fun _ => Vector.replicate 32 0, id⟩

/-- A fact about a string is stored. -/
def storeSample : SemanticCall :=
  .storeFact ⟨.ofNat 0, "a", "knows", .str "b", .finite ⟨false, 1, 0⟩, [], 0, none⟩ (.ofNat 1) (.ofNat 2)
    fun _ => 0

theorem exactlyOne_sample : ExactlyOne ([storeSample].foldl (step sampleEnv) new) := by
  refine (mirrors_iff sampleEnv [storeSample] ⟨rfl, trivial⟩).2.2 ⟨⟨fun old found => ?_, trivial⟩, ?_⟩
  · cases found
  · exact Multiset.nodup_singleton ("a", "knows", "b")

/-- The edge of a fact stays when the memory is cleared. -/
theorem not_mirrors : Along (step sampleEnv) Fresh new [storeSample, .clear] ∧
    ¬Mirrors ([storeSample, .clear].foldl (step sampleEnv) new) ∧
    ¬ExactlyOne ([storeSample, .clear].foldl (step sampleEnv) new) := by
  have edge : ([storeSample, .clear].foldl (step sampleEnv) new).edges = {("a", "knows", "b")} := rfl
  have none : ([storeSample, .clear].foldl (step sampleEnv) new).stringFacts = 0 := rfl
  refine ⟨⟨rfl, trivial, trivial⟩, fun mirror => ?_, fun exact => ?_⟩
  · rw [Mirrors, edge, none] at mirror
    exact Multiset.singleton_ne_zero _ mirror
  · have mem := exact.2 ("a", "knows", "b") (edge ▸ Multiset.mem_singleton_self _)
    rw [none] at mem
    exact Multiset.notMem_zero _ mem

end DefaultSemanticMemory

end TORdex
