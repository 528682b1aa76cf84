import TORdex.Lib.FiniteMap
import TORdex.TemporalGraph.Interval
import TORdex.Vifs.Types

/-!
# The temporal graph

The state of the graph, its snapshots and their history.  A snapshot lists the nodes and edges of the state in
an order that is not specified, so it is taken with a listing of them.
-/

namespace TORdex

/-- A node that exists for an interval. -/
structure TemporalNode where
  id : String
  kind : String
  label : String
  interval : TimeInterval
  attributes : HashMap String String

/-- An edge that exists for an interval. -/
structure TemporalEdge where
  id : String
  kind : String
  sourceId : String
  targetId : String
  interval : TimeInterval
  properties : HashMap String String

/-- The nodes and edges of an instant. -/
structure GraphSnapshot where
  timestamp : OffsetDateTime
  nodes : List TemporalNode
  edges : List TemporalEdge

/-- All nodes and edges by their ids. -/
structure GraphState where
  nodes : HashMap String TemporalNode
  edges : HashMap String TemporalEdge

namespace GraphState

/-- Without nodes and edges. -/
def new : GraphState := ⟨∅, ∅⟩

/-- Add an edge, in place of one with its id. -/
def addEdge (g : GraphState) (edge : TemporalEdge) : GraphState :=
  { g with edges := g.edges.insert edge.id edge }

/-- The nodes and the edges of a state, each one once, in the order of the hash maps. -/
structure Listing (g : GraphState) where
  nodes : List TemporalNode
  edges : List TemporalEdge
  nodes_eq : (nodes : Multiset TemporalNode) = FiniteMap.values g.nodes
  edges_eq : (edges : Multiset TemporalEdge) = FiniteMap.values g.edges

variable {g : GraphState}

theorem nonempty_listing (g : GraphState) : Nonempty g.Listing :=
  ⟨⟨_, _, Multiset.coe_toList _, Multiset.coe_toList _⟩⟩

/-- The nodes and edges whose intervals contain the instant. -/
def snapshot (l : g.Listing) (timestamp : OffsetDateTime) : GraphSnapshot where
  timestamp := timestamp
  nodes := l.nodes.filter fun n => n.interval.contains timestamp
  edges := l.edges.filter fun e => e.interval.contains timestamp

/-- A snapshot has the edges of the state whose intervals contain its timestamp. -/
theorem mem_snapshot_edges {l : g.Listing} {t : OffsetDateTime} {e : TemporalEdge} :
    e ∈ (snapshot l t).edges ↔ (∃ id, g.edges.lookup id = some e) ∧ e.interval.contains t := by
  rw [snapshot, List.mem_filter, ← Multiset.mem_coe, l.edges_eq, FiniteMap.mem_values]

end GraphState

/-- The snapshots in the order in which they were appended. -/
structure GraphHistory where
  snapshots : List GraphSnapshot

namespace GraphHistory

/-- Without snapshots. -/
def new : GraphHistory := ⟨[]⟩

/-- Add a snapshot behind the others. -/
def append (h : GraphHistory) (snapshot : GraphSnapshot) : GraphHistory := ⟨h.snapshots ++ [snapshot]⟩

/-- The snapshot that was appended last. -/
def latest (h : GraphHistory) : Option GraphSnapshot := h.snapshots.getLast?

/-- The last snapshot that is not after a timestamp. -/
def stateAt (h : GraphHistory) (timestamp : OffsetDateTime) : Option GraphSnapshot :=
  h.snapshots.reverse.find? fun s => s.timestamp ≤ timestamp

end GraphHistory

/-- How often the kinds of nodes and edges were observed. -/
structure GraphPredictor where
  nodeTypeFrequencies : HashMap String ℕ
  edgeTypeFrequencies : HashMap String ℕ
  totalObservations : ℕ

namespace GraphPredictor

/-- Nothing has been observed. -/
def new : GraphPredictor := ⟨∅, ∅, 0⟩

/-- `*entry(kind).or_insert(0) += 1`. -/
def count (frequencies : HashMap String ℕ) (kind : String) : HashMap String ℕ :=
  frequencies.insert kind ((frequencies.lookup kind).getD 0 + 1)

/-- Count the kinds in snapshots. -/
def observe (p : GraphPredictor) (snapshots : List GraphSnapshot) : GraphPredictor :=
  snapshots.foldl (fun p snap => {
    nodeTypeFrequencies := (snap.nodes.map TemporalNode.kind).foldl count p.nodeTypeFrequencies
    edgeTypeFrequencies := (snap.edges.map TemporalEdge.kind).foldl count p.edgeTypeFrequencies
    totalObservations := p.totalObservations + (snap.nodes.length + snap.edges.length) }) p

end GraphPredictor

/-- A graph with its history. -/
structure TemporalGraph where
  state : GraphState
  history : GraphHistory
  predictor : GraphPredictor

namespace TemporalGraph

/-- An empty graph. -/
def new : TemporalGraph := ⟨.new, .new, .new⟩

/-- The edge of a relationship. -/
def edgeOf (rel : Relationship) : TemporalEdge where
  id := rel.id.toString
  kind := rel.kind
  sourceId := rel.sourceId
  targetId := rel.targetId
  interval := .bounded rel.firstSeen rel.lastSeen
  properties := rel.properties

/-- Add a relationship as an edge. -/
def ingestRelationship (g : TemporalGraph) (rel : Relationship) : TemporalGraph :=
  { g with state := g.state.addEdge (edgeOf rel) }

/-- Append a snapshot of the graph to its history. -/
def snapshot (g : TemporalGraph) (l : g.state.Listing) (timestamp : OffsetDateTime) : TemporalGraph :=
  let history := g.history.append (GraphState.snapshot l timestamp)
  { g with
    history
    predictor :=
      match history.latest with
      | some latest => g.predictor.observe [latest]
      | none => g.predictor }

/-- The state at an instant, from the history. -/
def stateAt (g : TemporalGraph) (timestamp : OffsetDateTime) : Option GraphSnapshot :=
  g.history.stateAt timestamp

end TemporalGraph

end TORdex

/-!
## Relationships while they are observed

The edge of a relationship is there up to the last observation, exclusively.
-/

namespace TORdex.TemporalGraph

variable {g g' : TemporalGraph} {rel : Relationship} {allowed : Relationship → Prop}

/-- A relationship is ingested, or a snapshot is taken. -/
inductive Step (allowed : Relationship → Prop) : TemporalGraph → TemporalGraph → Prop where
  | ingest (g : TemporalGraph) {rel : Relationship} (h : allowed rel) :
    Step allowed g (g.ingestRelationship rel)
  | snapshot (g : TemporalGraph) (l : g.state.Listing) (t : OffsetDateTime) : Step allowed g (g.snapshot l t)

/-- A graph after some of these steps. -/
abbrev Later (allowed : Relationship → Prop) : TemporalGraph → TemporalGraph → Prop :=
  Relation.ReflTransGen (Step allowed)

/-- The edge stays under its id while other relationships are ingested. -/
theorem lookup_of_later (later : Later (fun r => r.id ≠ rel.id) (g.ingestRelationship rel) g') :
    g'.state.edges.lookup rel.id.toString = some (edgeOf rel) := by
  induction later with
  | refl => exact Finmap.lookup_insert _
  | tail _ step ih =>
    cases step with
    | @ingest other ne =>
      have ne : rel.id.toString ≠ other.id.toString := fun same => ne (Ulid.toString_injective same).symm
      exact (Finmap.lookup_insert_of_ne _ ne).trans ih
    | snapshot l t => exact ih

/-- At this instant a snapshot has the edge of a relationship exactly if the relationship was observed around
it. -/
def VisibleWhileObserved (g : TemporalGraph) (rel : Relationship) (t : OffsetDateTime) : Prop :=
  ∀ l : g.state.Listing, edgeOf rel ∈ (GraphState.snapshot l t).edges ↔ rel.firstSeen ≤ t ∧ t ≤ rel.lastSeen

theorem mem_snapshot_iff (stored : g.state.edges.lookup rel.id.toString = some (edgeOf rel))
    (l : g.state.Listing) (t : OffsetDateTime) :
    edgeOf rel ∈ (GraphState.snapshot l t).edges ↔ rel.firstSeen ≤ t ∧ t < rel.lastSeen := by
  rw [GraphState.mem_snapshot_edges, and_iff_right ⟨_, stored⟩]
  exact TimeInterval.contains_bounded_iff

/-- **An edge is visible while it is observed, but for the last instant.** -/
theorem visibleWhileObserved_iff (observed : rel.firstSeen ≤ rel.lastSeen)
    (later : Later (fun r => r.id ≠ rel.id) (g.ingestRelationship rel) g') (t : OffsetDateTime) :
    VisibleWhileObserved g' rel t ↔ t ≠ rel.lastSeen := by
  have listed := GraphState.nonempty_listing g'.state
  unfold VisibleWhileObserved
  simp only [mem_snapshot_iff (lookup_of_later later), forall_const]
  constructor
  · rintro same rfl
    exact lt_irrefl _ (same.2 ⟨observed, le_rfl⟩).2
  · exact fun ne => and_congr_right fun _ => ⟨le_of_lt, fun le => lt_of_le_of_ne le ne⟩

/-- A relationship that was observed from the instant 0 to the instant 10. -/
def observedRelationship : Relationship := ⟨.ofNat 0, "knows", "entity", "a", "entity", "b", ∅, 0, 10, 0, ∅⟩

/-- Another one, that comes in its place between the same entities. -/
def laterRelationship : Relationship := ⟨.ofNat 1, "knows", "entity", "a", "entity", "b", ∅, 3, 4, 0, ∅⟩

theorem visible_at_five : VisibleWhileObserved
    ((new.ingestRelationship observedRelationship).ingestRelationship laterRelationship) observedRelationship 5 := by
  have later : Later (fun r => r.id ≠ observedRelationship.id) (new.ingestRelationship observedRelationship)
      ((new.ingestRelationship observedRelationship).ingestRelationship laterRelationship) :=
    .tail .refl (.ingest _ (by decide))
  exact (visibleWhileObserved_iff (by decide) later 5).2 (by decide)

/-- At the last instant the edge is not there. -/
theorem not_visibleWhileObserved :
    ¬VisibleWhileObserved (new.ingestRelationship observedRelationship) observedRelationship 10 := by
  intro visible
  have listed := GraphState.nonempty_listing (new.ingestRelationship observedRelationship).state
  have found := (visible listed.some).2 ⟨by decide, by decide⟩
  rw [mem_snapshot_iff (Finmap.lookup_insert _)] at found
  exact absurd found.2 (by decide)

end TORdex.TemporalGraph
