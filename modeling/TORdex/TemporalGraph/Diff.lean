import TORdex.Core.Storage
import TORdex.Lib.MapDiff
import TORdex.TemporalGraph.Graph

/-!
# Differences of snapshots

Nodes and edges are compared under their ids, by their attributes and intervals only.  The lists of a
difference, but for those of the attributes, are in the order of hash maps; here they are multisets.
-/

namespace TORdex

/-- A value that was added, removed or changed. -/
structure AttributeDelta where
  key : String
  oldValue : Option String
  newValue : Option String
  deriving DecidableEq

/-- How a node changed. -/
structure NodeChange where
  id : String
  attributeChanges : List AttributeDelta
  intervalChanged : Bool
  deriving DecidableEq

/-- How an edge changed. -/
structure EdgeChange where
  id : String
  propertyChanges : List AttributeDelta
  intervalChanged : Bool
  deriving DecidableEq

/-- What changed between two snapshots. -/
structure GraphDiff where
  fromTime : OffsetDateTime
  toTime : OffsetDateTime
  addedNodes : Multiset TemporalNode
  removedNodes : Multiset String
  addedEdges : Multiset TemporalEdge
  removedEdges : Multiset String
  modifiedNodes : Multiset NodeChange
  modifiedEdges : Multiset EdgeChange

/-- The body of `diff_node_attributes` and of `diff_edge_properties`: the keys are those of a `BTreeSet`. -/
def diffAttributes (before after : HashMap String String) : List AttributeDelta :=
  (sortTexts (before.keys ∪ after.keys)).filterMap fun key =>
    let old := before.lookup key
    let new := after.lookup key
    if old ≠ new then some ⟨key, old, new⟩ else none

/-- How the attributes of a node changed. -/
def diffNodeAttributes (before after : TemporalNode) : List AttributeDelta :=
  diffAttributes before.attributes after.attributes

/-- How the properties of an edge changed. -/
def diffEdgeProperties (before after : TemporalEdge) : List AttributeDelta :=
  diffAttributes before.properties after.properties

/-- The map that is collected from a list of records, by their ids. -/
def indexBy {α : Type} (id : α → String) (l : List α) : HashMap String α :=
  l.foldl (fun m x => m.insert (id x) x) ∅

/-- The change of a record under its id, if there is one. -/
def recordChange {α C : Type} (mk : String → List AttributeDelta → Bool → C)
    (diff : α → α → List AttributeDelta)
    (interval : α → TimeInterval) (id : String) (before after : α) : Option C :=
  let changes := diff before after
  let intervalChanged := decide (interval before ≠ interval after)
  if !changes.isEmpty || intervalChanged then some (mk id changes intervalChanged) else none

/-- The change of a node, if it changed. -/
def nodeChange : String → TemporalNode → TemporalNode → Option NodeChange :=
  recordChange NodeChange.mk diffNodeAttributes TemporalNode.interval

/-- The change of an edge, if it changed. -/
def edgeChange : String → TemporalEdge → TemporalEdge → Option EdgeChange :=
  recordChange EdgeChange.mk diffEdgeProperties TemporalEdge.interval

namespace GraphDiff

/-- What changed from one snapshot to another. -/
def between (before after : GraphSnapshot) : GraphDiff :=
  let beforeNodes := indexBy TemporalNode.id before.nodes
  let afterNodes := indexBy TemporalNode.id after.nodes
  let beforeEdges := indexBy TemporalEdge.id before.edges
  let afterEdges := indexBy TemporalEdge.id after.edges
  { fromTime := before.timestamp
    toTime := after.timestamp
    addedNodes := MapDiff.added beforeNodes afterNodes
    removedNodes := MapDiff.removed beforeNodes afterNodes
    addedEdges := MapDiff.added beforeEdges afterEdges
    removedEdges := MapDiff.removed beforeEdges afterEdges
    modifiedNodes := MapDiff.modified nodeChange beforeNodes afterNodes
    modifiedEdges := MapDiff.modified edgeChange beforeEdges afterEdges }

/-- The number of changes. -/
def changeCount (d : GraphDiff) : ℕ :=
  d.addedNodes.card + d.removedNodes.card + d.addedEdges.card + d.removedEdges.card + d.modifiedNodes.card +
    d.modifiedEdges.card

/-- Something changed. -/
def hasChanges (d : GraphDiff) : Bool := d.changeCount > 0

end GraphDiff

end TORdex

/-!
## What a difference tells of the newer snapshot

Everything under new ids; under old ids the attributes, and whether the interval is another one.
-/

namespace TORdex

/-! ### Attributes -/

section Attributes

variable {m n n' : HashMap String String} {d : AttributeDelta}

theorem mem_diffAttributes : d ∈ diffAttributes m n ↔
    m.lookup d.key = d.oldValue ∧ n.lookup d.key = d.newValue ∧ d.oldValue ≠ d.newValue := by
  obtain ⟨key, old, new⟩ := d
  simp only [diffAttributes, List.mem_filterMap, mem_sortTexts, Finset.mem_union, Finmap.mem_keys,
    Option.ite_none_right_eq_some, Option.some.injEq, AttributeDelta.mk.injEq]
  constructor
  · rintro ⟨_, -, changed, rfl, rfl, rfl⟩
    exact ⟨rfl, rfl, changed⟩
  · rintro ⟨rfl, rfl, changed⟩
    refine ⟨key, ?_, changed, rfl, rfl, rfl⟩
    by_contra absent
    rw [not_or, ← Finmap.lookup_eq_none, ← Finmap.lookup_eq_none] at absent
    exact changed (absent.1.trans absent.2.symm)

/-- The changes of attributes determine the new ones. -/
theorem diffAttributes_injective (same : diffAttributes m n = diffAttributes m n') : n = n' := by
  have half {p q : HashMap String String} (same : diffAttributes m p = diffAttributes m q) (k : String)
      (changed : m.lookup k ≠ p.lookup k) : p.lookup k = q.lookup k := by
    have mem : ⟨k, m.lookup k, p.lookup k⟩ ∈ diffAttributes m q :=
      same ▸ mem_diffAttributes.2 ⟨rfl, rfl, changed⟩
    exact (mem_diffAttributes.1 mem).2.1.symm
  refine Finmap.ext_lookup fun k => ?_
  by_cases changed : m.lookup k = n.lookup k
  · by_cases changed' : m.lookup k = n'.lookup k
    · exact changed.symm.trans changed'
    · exact (half same.symm k changed').symm
  · exact half same k changed

theorem diffAttributes_eq_nil_iff : diffAttributes m n = [] ↔ m = n := by
  have none : diffAttributes m m = [] := List.eq_nil_iff_forall_not_mem.2 fun d mem =>
    have ⟨old, new, changed⟩ := mem_diffAttributes.1 mem
    changed (old.symm.trans new)
  constructor
  · exact fun same => diffAttributes_injective (none.trans same.symm)
  · rintro rfl
    exact none

end Attributes

/-! ### Records -/

section Records

variable {α C : Type} {mk : String → List AttributeDelta → Bool → C} {attributes : α → HashMap String String}
  {interval : α → TimeInterval} {id : String} {x y z : α}

/-- The comparison of the attributes of two records. -/
abbrev diffBy (attributes : α → HashMap String String) (before after : α) : List AttributeDelta :=
  diffAttributes (attributes before) (attributes after)

theorem recordChange_eq_none_iff : recordChange mk (diffBy attributes) interval id x y = none ↔
    interval x = interval y ∧ attributes x = attributes y := by
  rw [recordChange, ite_eq_right_iff, imp_iff_not (Option.some_ne_none _)]
  simp [diffAttributes_eq_nil_iff, and_comm]

/-- What is known of a record in one map, by what is known in another one, when their differences from a third
are equal. -/
def Determined (interval : α → TimeInterval) (attributes : α → HashMap String String) :
    Option α → Option α → Option α → Prop
  | none, y, z => y = z
  | some x, some y, some z =>
    attributes y = attributes z ∧ (interval x = interval y ↔ interval x = interval z)
  | some _, y, z => y = none ∧ z = none

theorem determined_of_recordChange (inj : ∀ c i c' i', mk id c i = mk id c' i' → c = c' ∧ i = i')
    (same : recordChange mk (diffBy attributes) interval id x y =
      recordChange mk (diffBy attributes) interval id x z) :
    attributes y = attributes z ∧ (interval x = interval y ↔ interval x = interval z) := by
  cases changed : recordChange mk (diffBy attributes) interval id x y with
  | none =>
    obtain ⟨first, second⟩ := recordChange_eq_none_iff.1 changed
    obtain ⟨first', second'⟩ := recordChange_eq_none_iff.1 (same.symm.trans changed)
    exact ⟨second.symm.trans second', iff_of_true first first'⟩
  | some c =>
    have changed' := same.symm.trans changed
    unfold recordChange at changed changed'
    rw [Option.ite_none_right_eq_some, Option.some.injEq] at changed changed'
    obtain ⟨attrs, flags⟩ := inj _ _ _ _ (changed.2.trans changed'.2.symm)
    refine ⟨diffAttributes_injective attrs, ?_⟩
    rw [decide_eq_decide] at flags
    exact not_iff_not.1 flags

variable {m n n' : HashMap String α}

/-- Nothing is different exactly if there are the same records, up to what is not compared. -/
theorem no_recordChange_iff : (MapDiff.added m n = 0 ∧ MapDiff.removed m n = 0 ∧
      MapDiff.modified (recordChange mk (diffBy attributes) interval) m n = 0) ↔
    ∀ id, (m.lookup id).map (fun x => (interval x, attributes x)) =
      (n.lookup id).map fun x => (interval x, attributes x) := by
  rw [MapDiff.no_difference_iff]
  refine forall_congr' fun id => ?_
  simp only [recordChange_eq_none_iff]
  cases m.lookup id with
  | none => cases n.lookup id <;> simp
  | some x => cases n.lookup id <;> simp

/-- Records that tell their ids, and differences that are equal. -/
theorem determined_of_eq (mk : String → List AttributeDelta → Bool → C) {idOf : α → String}
    (idOfChange : C → String) (keyed : ∀ id x, n.lookup id = some x → idOf x = id)
    (keyed' : ∀ id x, n'.lookup id = some x → idOf x = id) (told : ∀ id c i, idOfChange (mk id c i) = id)
    (inj : ∀ id c i c' i', mk id c i = mk id c' i' → c = c' ∧ i = i')
    (added : MapDiff.added m n = MapDiff.added m n')
    (removed : MapDiff.removed m n = MapDiff.removed m n')
    (modified : MapDiff.modified (recordChange mk (diffBy attributes) interval) m n =
      MapDiff.modified (recordChange mk (diffBy attributes) interval) m n') (id : String) :
    Determined interval attributes (m.lookup id) (n.lookup id) (n'.lookup id) := by
  cases old : m.lookup id with
  | none => exact MapDiff.lookup_eq_of_added keyed keyed' added old
  | some x =>
    have keys := MapDiff.isSome_eq_of_removed removed old
    cases new : n.lookup id with
    | none =>
      cases new' : n'.lookup id with
      | none => exact ⟨rfl, rfl⟩
      | some z => rw [new, new'] at keys; cases keys
    | some y =>
      cases new' : n'.lookup id with
      | none => rw [new, new'] at keys; cases keys
      | some z =>
        refine determined_of_recordChange (inj id)
          (MapDiff.change_eq_of_modified idOfChange ?_ modified old new new')
        intro id x y c changed
        unfold recordChange at changed
        rw [Option.ite_none_right_eq_some, Option.some.injEq] at changed
        rw [← changed.2, told]

end Records

/-! ### Snapshots -/

section Snapshots

/-- The records of a list are stored under their ids. -/
theorem indexBy_keyed {α : Type} (idOf : α → String) (l : List α) (id : String) (x : α)
    (h : (indexBy idOf l).lookup id = some x) : idOf x = id := by
  suffices ∀ m : HashMap String α, (∀ id x, m.lookup id = some x → idOf x = id) →
      ∀ id x, (l.foldl (fun m x => m.insert (idOf x) x) m).lookup id = some x → idOf x = id by
    exact this ∅ (fun id x found => by cases found) id x h
  clear h
  induction l with
  | nil => exact fun m keyed => keyed
  | cons y l ih => exact fun m keyed => ih _ (FiniteMap.forall_insert keyed rfl)

namespace GraphSnapshot

/-- The nodes of a snapshot under their ids. -/
def nodesById (s : GraphSnapshot) : HashMap String TemporalNode := indexBy TemporalNode.id s.nodes

/-- The edges by their ids. -/
def edgesById (s : GraphSnapshot) : HashMap String TemporalEdge := indexBy TemporalEdge.id s.edges

end GraphSnapshot

variable {a b c : GraphSnapshot}

/-- What is compared of the records is the same in two snapshots. -/
def SameRecords (a b : GraphSnapshot) : Prop :=
  (∀ id, (a.nodesById.lookup id).map (fun n => (n.interval, n.attributes)) =
    (b.nodesById.lookup id).map fun n => (n.interval, n.attributes)) ∧
  ∀ id, (a.edgesById.lookup id).map (fun e => (e.interval, e.properties)) =
    (b.edgesById.lookup id).map fun e => (e.interval, e.properties)

/-- What differences from a snapshot tell of the newer ones. -/
def DeterminedFrom (a b c : GraphSnapshot) : Prop :=
  (∀ id, Determined TemporalNode.interval TemporalNode.attributes (a.nodesById.lookup id)
    (b.nodesById.lookup id) (c.nodesById.lookup id)) ∧
  ∀ id, Determined TemporalEdge.interval TemporalEdge.properties (a.edgesById.lookup id)
    (b.edgesById.lookup id) (c.edgesById.lookup id)

theorem hasChanges_eq_false_iff (a b : GraphSnapshot) :
    (GraphDiff.between a b).hasChanges = false ↔ SameRecords a b := by
  have counted (d : GraphDiff) : d.hasChanges = false ↔
      (d.addedNodes = 0 ∧ d.removedNodes = 0 ∧ d.modifiedNodes = 0) ∧
        d.addedEdges = 0 ∧ d.removedEdges = 0 ∧ d.modifiedEdges = 0 := by
    rw [GraphDiff.hasChanges, decide_eq_false_iff_not, GraphDiff.changeCount]
    simp only [← Multiset.card_eq_zero]
    omega
  exact (counted _).trans (and_congr no_recordChange_iff no_recordChange_iff)

/-- **Differences are complete, up to what they compare.** -/
theorem between_complete (a b c : GraphSnapshot) :
    ((GraphDiff.between a b).hasChanges = false ↔ SameRecords a b) ∧
      (GraphDiff.between a b = GraphDiff.between a c → DeterminedFrom a b c) := by
  refine ⟨hasChanges_eq_false_iff a b, fun same => ⟨?_, ?_⟩⟩
  · exact determined_of_eq NodeChange.mk NodeChange.id (indexBy_keyed _ _) (indexBy_keyed _ _)
      (fun _ _ _ => rfl) (fun _ _ _ _ _ h => by cases h; exact ⟨rfl, rfl⟩)
      (congrArg GraphDiff.addedNodes same)
      (congrArg GraphDiff.removedNodes same) (congrArg GraphDiff.modifiedNodes same)
  · exact determined_of_eq EdgeChange.mk EdgeChange.id (indexBy_keyed _ _) (indexBy_keyed _ _)
      (fun _ _ _ => rfl) (fun _ _ _ _ _ h => by cases h; exact ⟨rfl, rfl⟩)
      (congrArg GraphDiff.addedEdges same)
      (congrArg GraphDiff.removedEdges same) (congrArg GraphDiff.modifiedEdges same)

/-- A snapshot with one node. -/
def oneNode (kind : String) (interval : TimeInterval) : GraphSnapshot :=
  ⟨0, [⟨"n", kind, "n", interval, ∅⟩], []⟩

theorem lookup_oneNode (kind : String) (interval : TimeInterval) :
    (oneNode kind interval).nodesById.lookup "n" = some ⟨"n", kind, "n", interval, ∅⟩ :=
  Finmap.lookup_insert _

theorem between_oneNode {kind : String} {interval interval' : TimeInterval} (ne : interval ≠ interval') :
    GraphDiff.between (oneNode kind interval) (oneNode kind interval') =
      ⟨0, 0, 0, 0, 0, 0, {⟨"n", [], true⟩}, 0⟩ := by
  have nil : diffNodeAttributes ⟨"n", kind, "n", interval, ∅⟩ ⟨"n", kind, "n", interval', ∅⟩ = [] :=
    diffAttributes_eq_nil_iff.2 rfl
  have single (i : TimeInterval) : indexBy TemporalNode.id (oneNode kind i).nodes =
      Finmap.singleton "n" ⟨"n", kind, "n", i, ∅⟩ := rfl
  have changed : nodeChange "n" ⟨"n", kind, "n", interval, ∅⟩ ⟨"n", kind, "n", interval', ∅⟩ =
      some ⟨"n", [], true⟩ := by
    rw [nodeChange, recordChange, nil]
    simp [ne]
  have modified : MapDiff.modified nodeChange (Finmap.singleton "n" ⟨"n", kind, "n", interval, ∅⟩)
      (Finmap.singleton "n" ⟨"n", kind, "n", interval', ∅⟩) = {⟨"n", [], true⟩} := by
    refine Multiset.filterMap_cons_some _ _ 0 ?_
    rw [Finmap.lookup_singleton_eq]
    exact changed
  rw [GraphDiff.between, single, single, modified]
  rfl

theorem between_complete_oneNode :
    DeterminedFrom (oneNode "entity" (.startingAt 0)) (oneNode "entity" (.startingAt 1))
    (oneNode "entity" (.startingAt 2)) :=
  (between_complete _ _ _).2 ((between_oneNode (by decide)).trans (between_oneNode (by decide)).symm)

/-- A node of another kind is no change, and intervals that changed in two ways make the same difference. -/
theorem not_between_complete :
    (∃ a b : GraphSnapshot, (GraphDiff.between a b).hasChanges = false ∧ a.nodesById ≠ b.nodesById) ∧
      ∃ a b c : GraphSnapshot, GraphDiff.between a b = GraphDiff.between a c ∧ b.nodesById ≠ c.nodesById := by
  refine ⟨⟨oneNode "entity" (.startingAt 0), oneNode "artifact" (.startingAt 0), ?_, fun same => ?_⟩,
    oneNode "entity" (.startingAt 0), oneNode "entity" (.startingAt 1), oneNode "entity" (.startingAt 2),
    (between_oneNode (by decide)).trans (between_oneNode (by decide)).symm, fun same => ?_⟩
  · refine (hasChanges_eq_false_iff _ _).2 ⟨fun id => ?_, fun _ => rfl⟩
    by_cases named : id = "n"
    · rw [named, lookup_oneNode, lookup_oneNode]
      rfl
    · have absent (kind : String) : (oneNode kind (.startingAt 0)).nodesById.lookup id = none :=
        Finmap.lookup_insert_of_ne _ named
      rw [absent, absent]
  · have kinds := congrArg (Finmap.lookup "n") same
    rw [lookup_oneNode, lookup_oneNode, Option.some.injEq, TemporalNode.mk.injEq] at kinds
    exact absurd kinds.2.1 (by decide)
  · have intervals := congrArg (Finmap.lookup "n") same
    rw [lookup_oneNode, lookup_oneNode, Option.some.injEq, TemporalNode.mk.injEq] at intervals
    exact absurd intervals.2.2.2.1 (by decide)

end Snapshots

end TORdex

/-!
## Going through a history

The attributes in every snapshot are known from the first snapshot and the differences from there on.
-/

namespace TORdex

/-- All consecutive differences. -/
def GraphHistory.allDiffs (h : GraphHistory) : List GraphDiff :=
  List.zipWith GraphDiff.between h.snapshots h.snapshots.tail

/-- The difference to the snapshot before. -/
def GraphHistory.diffAt (h : GraphHistory) (idx : ℕ) : Option GraphDiff :=
  if idx = 0 then none
  else do
    let before ← h.snapshots[idx - 1]?
    let after ← h.snapshots[idx]?
    return GraphDiff.between before after

/-! ### Patches -/

/-- The attributes with their new values. -/
def patchAttributes (deltas : List AttributeDelta) (attributes : HashMap String String) : HashMap String String :=
  deltas.foldl (fun m d => match d.newValue with | some v => m.insert d.key v | none => m.erase d.key) attributes

theorem lookup_patchAttributes {deltas : List AttributeDelta} {m n : HashMap String String}
    (told : ∀ d ∈ deltas, n.lookup d.key = d.newValue) (key : String) :
    (patchAttributes deltas m).lookup key =
      if key ∈ deltas.map (·.key) then n.lookup key else m.lookup key := by
  induction deltas using List.reverseRecOn with
  | nil => rfl
  | append_singleton deltas d ih =>
    obtain ⟨before, last⟩ := List.forall_mem_append.1 told
    have new := last d List.mem_cons_self
    rw [patchAttributes, List.foldl_concat, ← patchAttributes]
    by_cases here : key = d.key
    · subst here
      rw [if_pos (by simp), new]
      cases d.newValue with
      | some v => exact Finmap.lookup_insert _
      | none => exact Finmap.lookup_erase _ _
    · have member : key ∈ (deltas ++ [d]).map (·.key) ↔ key ∈ deltas.map (·.key) := by simp [here]
      simp only [member, ← ih before]
      cases d.newValue with
      | some v => exact Finmap.lookup_insert_of_ne _ here
      | none => exact Finmap.lookup_erase_ne here

theorem patchAttributes_diffAttributes (m n : HashMap String String) :
    patchAttributes (diffAttributes m n) m = n := by
  refine Finmap.ext_lookup fun key => ?_
  rw [lookup_patchAttributes fun d mem => (mem_diffAttributes.1 mem).2.1]
  split_ifs with changed
  · rfl
  · by_contra ne
    exact changed (List.mem_map.2 ⟨⟨key, m.lookup key, n.lookup key⟩, mem_diffAttributes.2 ⟨rfl, rfl, ne⟩, rfl⟩)

section Patch

variable {α C : Type} (idOf : α → String) (attributes : α → HashMap String String) (idOfChange : C → String)
  (deltas : C → List AttributeDelta)

/-- The attributes of the records under their ids. -/
def recordView (m : HashMap String α) (id : String) : Option (HashMap String String) := (m.lookup id).map attributes

/-- The attributes under an id after some records were added, removed and modified. -/
noncomputable def patchRecords (added : Multiset α) (removed : Multiset String) (modified : Multiset C)
    (view : String → Option (HashMap String String)) (id : String) : Option (HashMap String String) :=
  match view id with
  | none => (added.toList.find? (idOf · = id)).map attributes
  | some old =>
    if id ∈ removed then none
    else match modified.toList.find? (idOfChange · = id) with
      | some change => some (patchAttributes (deltas change) old)
      | none => some old

variable {idOf attributes idOfChange deltas}

theorem patchRecords_between {mk : String → List AttributeDelta → Bool → C} {interval : α → TimeInterval}
    {m n : HashMap String α} (keyed : ∀ id x, n.lookup id = some x → idOf x = id)
    (told : ∀ id c i, idOfChange (mk id c i) = id ∧ deltas (mk id c i) = c) :
    patchRecords idOf attributes idOfChange deltas (MapDiff.added m n) (MapDiff.removed m n)
      (MapDiff.modified (recordChange mk (diffBy attributes) interval) m n) (recordView attributes m) =
        recordView attributes n := by
  funext id
  rw [patchRecords, recordView, recordView]
  cases old : m.lookup id with
  | none =>
    show Option.map attributes ((MapDiff.added m n).toList.find? (idOf · = id)) = (n.lookup id).map attributes
    refine congrArg (Option.map attributes) ?_
    cases found : (MapDiff.added m n).toList.find? (idOf · = id) with
    | none =>
      refine (Option.eq_none_iff_forall_ne_some.2 fun y new => ?_).symm
      have mem := Multiset.mem_toList.2 (MapDiff.mem_added.2 ⟨id, old, new⟩)
      exact absurd (decide_eq_true (keyed id y new)) (List.find?_eq_none.1 found y mem)
    | some y =>
      obtain ⟨k, -, new⟩ := MapDiff.mem_added.1 (Multiset.mem_toList.1 (List.mem_of_find?_eq_some found))
      have here : idOf y = id := by simpa using List.find?_some found
      rw [← here, keyed k y new, new]
  | some x =>
    dsimp only [Option.map_some]
    cases new : n.lookup id with
    | none => exact if_pos (MapDiff.mem_removed.2 ⟨by rw [old]; rfl, new⟩)
    | some y =>
      have stays : id ∉ MapDiff.removed m n := fun gone => by
        rw [(MapDiff.mem_removed.1 gone).2] at new
        cases new
      have change_eq : ∀ {k x y c}, recordChange mk (diffBy attributes) interval k x y = some c →
          idOfChange c = k ∧ deltas c = diffBy attributes x y := by
        intro k x y c changed
        rw [recordChange, Option.ite_none_right_eq_some, Option.some.injEq] at changed
        rw [← changed.2]
        exact told _ _ _
      rw [if_neg stays]
      cases found : (MapDiff.modified (recordChange mk (diffBy attributes) interval) m n).toList.find?
          (idOfChange · = id) with
      | none =>
        have unchanged : recordChange mk (diffBy attributes) interval id x y = none := by
          refine Option.eq_none_iff_forall_ne_some.2 fun c changed => ?_
          have mem := Multiset.mem_toList.2 (MapDiff.mem_modified.2 ⟨id, x, y, old, new, changed⟩)
          exact absurd (decide_eq_true (change_eq changed).1) (List.find?_eq_none.1 found c mem)
        exact congrArg some (recordChange_eq_none_iff.1 unchanged).2
      | some change =>
        obtain ⟨k, x', y', old', new', changed⟩ :=
          MapDiff.mem_modified.1 (Multiset.mem_toList.1 (List.mem_of_find?_eq_some found))
        obtain ⟨named, deltas_eq⟩ := change_eq changed
        have here : idOfChange change = id := by simpa using List.find?_some found
        obtain rfl := named.symm.trans here
        obtain rfl := Option.some.inj (old.symm.trans old')
        obtain rfl := Option.some.inj (new.symm.trans new')
        dsimp only [Option.map_some]
        rw [deltas_eq, patchAttributes_diffAttributes]

end Patch

/-! ### Histories -/

/-- The attributes of the nodes and of the edges of a snapshot. -/
structure GraphView where
  nodes : String → Option (HashMap String String)
  edges : String → Option (HashMap String String)

/-- The attributes and properties of a snapshot by id. -/
def GraphSnapshot.view (s : GraphSnapshot) : GraphView :=
  ⟨recordView TemporalNode.attributes s.nodesById, recordView TemporalEdge.properties s.edgesById⟩

/-- The view with the changes made to it. -/
noncomputable def GraphView.patch (v : GraphView) (d : GraphDiff) : GraphView where
  nodes := patchRecords TemporalNode.id TemporalNode.attributes NodeChange.id NodeChange.attributeChanges
    d.addedNodes d.removedNodes d.modifiedNodes v.nodes
  edges := patchRecords TemporalEdge.id TemporalEdge.properties EdgeChange.id EdgeChange.propertyChanges
    d.addedEdges d.removedEdges d.modifiedEdges v.edges

theorem patch_between (a b : GraphSnapshot) : a.view.patch (GraphDiff.between a b) = b.view := by
  rw [GraphView.patch, GraphSnapshot.view, GraphSnapshot.view, GraphView.mk.injEq]
  exact ⟨patchRecords_between (indexBy_keyed _ _) fun _ _ _ => ⟨rfl, rfl⟩,
    patchRecords_between (indexBy_keyed _ _) fun _ _ _ => ⟨rfl, rfl⟩⟩

namespace GraphHistory

variable {h : GraphHistory}

theorem getElem?_allDiffs (h : GraphHistory) (idx : ℕ) : h.allDiffs[idx]? = h.diffAt (idx + 1) := by
  rw [allDiffs, List.getElem?_zipWith, List.getElem?_tail, diffAt, if_neg (Nat.succ_ne_zero idx), Nat.add_sub_cancel]
  cases h.snapshots[idx]? <;> cases h.snapshots[idx + 1]? <;> rfl

/-- **From the attributes in one snapshot the differences behind it give those in every later one**, whatever the order
of what they list. -/
theorem replay (h : GraphHistory) {i j : ℕ} {before after : GraphSnapshot} (first : h.snapshots[i]? = some before)
    (last : h.snapshots[j]? = some after) (later : i ≤ j) :
    ((h.allDiffs.drop i).take (j - i)).foldl GraphView.patch before.view = after.view := by
  obtain ⟨k, rfl⟩ := Nat.exists_eq_add_of_le later
  rw [Nat.add_sub_cancel_left]
  induction k generalizing after with
  | zero =>
    obtain rfl := Option.some.inj (first.symm.trans last)
    rfl
  | succ k ih =>
    have inside := (List.getElem?_eq_some_iff.1 last).1
    obtain ⟨middle, found⟩ : ∃ middle, h.snapshots[i + k]? = some middle :=
      ⟨_, List.getElem?_eq_getElem (by omega)⟩
    have diff : (h.allDiffs.drop i)[k]? = some (GraphDiff.between middle after) := by
      rw [List.getElem?_drop, getElem?_allDiffs, diffAt, if_neg (Nat.succ_ne_zero _), Nat.add_sub_cancel, found,
        Nat.add_assoc, last]
      rfl
    rw [List.take_add_one, diff, Option.toList_some, List.foldl_append, ih found (Nat.le_add_right i k)]
    exact patch_between middle after

/-- A node that appears, and one that disappears again. -/
theorem replay_oneNode :
    let h : GraphHistory := ⟨[⟨0, [], []⟩, oneNode "entity" (.startingAt 0), ⟨2, [], []⟩]⟩
    ((h.allDiffs.drop 0).take (2 - 0)).foldl GraphView.patch (GraphSnapshot.mk 0 [] []).view =
      (GraphSnapshot.mk 2 [] []).view :=
  replay ⟨[⟨0, [], []⟩, oneNode "entity" (.startingAt 0), ⟨2, [], []⟩]⟩ rfl rfl (by decide)

end GraphHistory

end TORdex
