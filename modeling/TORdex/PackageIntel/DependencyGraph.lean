import TORdex.Lib.Delimiters
import TORdex.Lib.Ranking
import TORdex.PackageIntel.Manifests

/-!
# The dependency graph

A package comes into the graph with its own manifest, or as a dependency of another one, and what came first
stays.  So the order in which manifests are scanned makes a difference exactly if a package with a manifest is
a dependency of another one.
-/

namespace TORdex.PackageIntel

open Ranking (firstOfEach pushNew)

/-- A node in the unified dependency graph. -/
structure PackageNode where
  id : String
  name : String
  version : Option String
  ecosystem : Ecosystem
  filePath : Option String
  metadata : HashMap String String

/-- A dependency between two packages. -/
structure DependencyEdge where
  sourceId : String
  targetId : String
  constraint : Option String
  kind : DependencyKind

/-- The packages and their dependencies. -/
structure DependencyGraph where
  nodes : List PackageNode
  edges : List DependencyEdge

namespace DependencyGraph

/-- Without packages. -/
def new : DependencyGraph := ⟨[], []⟩

/-- The graph with the node, and the id of the node. -/
def addNode (g : DependencyGraph) (node : PackageNode) : DependencyGraph × String :=
  (if g.nodes.any fun n => n.id = node.id then g else { g with nodes := g.nodes ++ [node] }, node.id)

/-- Add an edge, unless there is one between the two. -/
def addEdge (g : DependencyGraph) (edge : DependencyEdge) : DependencyGraph :=
  if g.edges.any fun e => e.sourceId = edge.sourceId && e.targetId = edge.targetId then g
  else { g with edges := g.edges ++ [edge] }

end DependencyGraph

end TORdex.PackageIntel

namespace TORdex

open PackageIntel Ranking

/-- The engine parses manifests and builds a unified dependency graph. -/
structure PackageIntel where
  graph : DependencyGraph
  parsers : List ManifestParser

namespace PackageIntel

/-- `format!("{}/{}", ecosystem.name(), name)`. -/
def nodeId (ecosystem : Ecosystem) (name : String) : String := ecosystem.name ++ "/" ++ name

/-- The metadata of a package that a manifest describes. -/
def metadataOf (version : Option String) (path : String) : HashMap String String :=
  let metadata : HashMap String String :=
    match version with
    | some ver => Finmap.insert "version" ver ∅
    | none => ∅
  metadata.insert "file" path

/-- The node of a package with a manifest. -/
def manifestNode (path : String) (m : ParsedManifest) : PackageNode where
  id := nodeId m.ecosystem m.packageName
  name := m.packageName
  version := m.version
  ecosystem := m.ecosystem
  filePath := some path
  metadata := metadataOf m.version path

/-- The node of a package that something depends on. -/
def dependencyNode (ecosystem : Ecosystem) (name : String) : PackageNode where
  id := nodeId ecosystem name
  name := name
  version := none
  ecosystem := ecosystem
  filePath := none
  metadata := ∅

/-- The edge of a dependency. -/
def dependencyEdge (m : ParsedManifest) (dep : ParsedDependency) : DependencyEdge where
  sourceId := nodeId m.ecosystem m.packageName
  targetId := nodeId m.ecosystem dep.name
  constraint := dep.constraint
  kind := dep.kind

/-- The first parser that can parse the file decides. -/
def parse (parsers : List ManifestParser) (path content : String) : Option ParsedManifest := do
  let parser ← parsers.find? (·.canParse path content)
  parser.parse path content

/-- Parse a manifest file and add it to the dependency graph. -/
def parseManifest (p : PackageIntel) (path content : String) : PackageIntel × Option ParsedManifest :=
  match parse p.parsers path content with
  | none => (p, none)
  | some manifest =>
    let graph := (p.graph.addNode (manifestNode path manifest)).1
    let graph := manifest.dependencies.foldl (fun graph dep =>
      (graph.addNode (dependencyNode manifest.ecosystem dep.name)).1.addEdge
        (dependencyEdge manifest dep)) graph
    ({ p with graph }, some manifest)

/-- The graph after these files, each with its path and content. -/
def scan (parsers : List ManifestParser) (files : List (String × String)) : DependencyGraph :=
  (files.foldl (fun p file => (parseManifest p file.1 file.2).1) ⟨.new, parsers⟩).graph

/-! ## What is scanned -/

variable {parsers : List ManifestParser} {files files' : List (String × String)}
    {file file' : String × String}
  {m m' : ParsedManifest} {node : PackageNode} {edge : DependencyEdge}

/-- Source and target of an edge. -/
def ends (e : DependencyEdge) : String × String := (e.sourceId, e.targetId)

/-- The nodes that a file gives, in their order. -/
def nodesFrom (parsers : List ManifestParser) (file : String × String) : List PackageNode :=
  match parse parsers file.1 file.2 with
  | none => []
  | some m => manifestNode file.1 m :: m.dependencies.map fun dep => dependencyNode m.ecosystem dep.name

/-- The edges that a file gives, in their order. -/
def edgesFrom (parsers : List ManifestParser) (file : String × String) : List DependencyEdge :=
  match parse parsers file.1 file.2 with
  | none => []
  | some m => m.dependencies.map (dependencyEdge m)

theorem addNode_eq (g : DependencyGraph) (node : PackageNode) :
    (g.addNode node).1 = ⟨pushNew PackageNode.id g.nodes node, g.edges⟩ := by
  unfold DependencyGraph.addNode pushNew
  split_ifs <;> rfl

theorem addEdge_eq (g : DependencyGraph) (edge : DependencyEdge) :
    g.addEdge edge = ⟨g.nodes, pushNew ends g.edges edge⟩ := by
  unfold DependencyGraph.addEdge pushNew
  simp only [ends, Prod.mk.injEq, Bool.decide_and]
  split_ifs <;> rfl

theorem foldl_dependencies (m : ParsedManifest) (deps : List ParsedDependency) (g : DependencyGraph) :
    deps.foldl (fun graph dep =>
      (graph.addNode (dependencyNode m.ecosystem dep.name)).1.addEdge (dependencyEdge m dep)) g =
    ⟨(deps.map fun dep => dependencyNode m.ecosystem dep.name).foldl (pushNew PackageNode.id) g.nodes,
      (deps.map (dependencyEdge m)).foldl (pushNew ends) g.edges⟩ := by
  induction deps generalizing g with
  | nil => rfl
  | cons dep deps ih =>
    rw [List.foldl_cons, addNode_eq, addEdge_eq, ih]
    rfl

theorem parseManifest_graph (p : PackageIntel) (file : String × String) :
    (p.parseManifest file.1 file.2).1 =
      ⟨⟨(nodesFrom p.parsers file).foldl (pushNew PackageNode.id) p.graph.nodes,
        (edgesFrom p.parsers file).foldl (pushNew ends) p.graph.edges⟩, p.parsers⟩ := by
  unfold parseManifest nodesFrom edgesFrom
  cases parse p.parsers file.1 file.2 with
  | none => rfl
  | some m =>
    dsimp only
    rw [foldl_dependencies, addNode_eq]
    rfl

/-- The nodes and edges of the graph are the first ones with their ids and ends. -/
theorem scan_eq (parsers : List ManifestParser) (files : List (String × String)) : scan parsers files =
    ⟨firstOfEach PackageNode.id [] (files.map (nodesFrom parsers)).flatten,
      firstOfEach ends [] (files.map (edgesFrom parsers)).flatten⟩ := by
  have steps (p : PackageIntel) (same : p.parsers = parsers) :
      (files.foldl (fun p file => (p.parseManifest file.1 file.2).1) p).graph =
        ⟨(files.map (nodesFrom parsers)).flatten.foldl (pushNew PackageNode.id) p.graph.nodes,
          (files.map (edgesFrom parsers)).flatten.foldl (pushNew ends) p.graph.edges⟩ := by
    induction files generalizing p with
    | nil => rfl
    | cons file files ih =>
      have same' : (p.parseManifest file.1 file.2).1.parsers = parsers := by rw [parseManifest_graph, same]
      rw [List.foldl_cons, ih _ same', parseManifest_graph, same]
      simp only [List.map_cons, List.flatten_cons, List.foldl_append]
  rw [scan, steps _ rfl, Ranking.foldl_pushNew, Ranking.foldl_pushNew]
  rfl

/-! ## Ids -/

theorem name_injective : Function.Injective Ecosystem.name := by
  intro e e' same
  cases e <;> cases e' <;> first | rfl | exact absurd same (by decide)

/-- The name of an ecosystem ends at the slash. -/
theorem nodeId_inj {e e' : Ecosystem} {name name' : String} (same : nodeId e name = nodeId e' name') :
    e = e' ∧ name = name' := by
  have letters (e : Ecosystem) : ∀ c ∈ e.name.toList, (c != '/') = true :=
    List.all_eq_true.1 (by cases e <;> decide)
  have slash (s : List Char) : Delimiters.Leaves (· != '/') ('/' :: s) := by simp [Delimiters.Leaves]
  have texts : e.name.toList ++ '/' :: name.toList = e'.name.toList ++ '/' :: name'.toList := by
    simpa [nodeId] using congrArg String.toList same
  obtain ⟨ecosystem, rest⟩ := Delimiters.append_of_leaves (letters e) (letters e') (slash _) (slash _) texts
  exact ⟨name_injective (String.toList_injective ecosystem),
    String.toList_injective (List.cons_eq_cons.1 rest).2⟩

theorem mem_nodesFrom : node ∈ nodesFrom parsers file ↔ ∃ m, parse parsers file.1 file.2 = some m ∧
    (node = manifestNode file.1 m ∨ ∃ dep ∈ m.dependencies, node = dependencyNode m.ecosystem dep.name) := by
  unfold nodesFrom
  cases parse parsers file.1 file.2 with
  | none => simp
  | some m => simp [eq_comm]

theorem mem_edgesFrom : edge ∈ edgesFrom parsers file ↔
    ∃ m, parse parsers file.1 file.2 = some m ∧ ∃ dep ∈ m.dependencies, edge = dependencyEdge m dep := by
  unfold edgesFrom
  cases parse parsers file.1 file.2 with
  | none => simp
  | some m => simp [eq_comm]

/-- The package of a manifest. -/
def package (m : ParsedManifest) : Ecosystem × String := (m.ecosystem, m.packageName)

theorem package_eq (same : nodeId m.ecosystem m.packageName = nodeId m'.ecosystem m'.packageName) :
    package m = package m' := by
  obtain ⟨ecosystem, name⟩ := nodeId_inj same
  exact Prod.ext ecosystem name

/-- The package of the one manifest is a dependency of the other one. -/
def DependsOn (m m' : ParsedManifest) : Prop :=
  m.ecosystem = m'.ecosystem ∧ ∃ dep ∈ m.dependencies, dep.name = m'.packageName

theorem agree_edges (parsed : parse parsers file.1 file.2 = some m)
    (parsed' : parse parsers file'.1 file'.2 = some m') (differ : package m ≠ package m') :
    Agree ends (edgesFrom parsers file) (edgesFrom parsers file') := by
  intro i a b ha hb
  obtain ⟨_, eq, dep, -, rfl⟩ := mem_edgesFrom.1 (List.mem_of_find?_eq_some ha)
  obtain ⟨_, eq', dep', -, rfl⟩ := mem_edgesFrom.1 (List.mem_of_find?_eq_some hb)
  cases parsed.symm.trans eq
  cases parsed'.symm.trans eq'
  have first : ends (dependencyEdge m dep) = i := by simpa using List.find?_some ha
  have second : ends (dependencyEdge m' dep') = i := by simpa using List.find?_some hb
  have source : nodeId m.ecosystem m.packageName = nodeId m'.ecosystem m'.packageName :=
    (Prod.ext_iff.1 (first.trans second.symm)).1
  exact absurd (package_eq source) differ

theorem agree_nodes (parsed : parse parsers file.1 file.2 = some m)
    (parsed' : parse parsers file'.1 file'.2 = some m') (differ : package m ≠ package m')
    (apart : ¬DependsOn m m') (apart' : ¬DependsOn m' m) :
    Agree PackageNode.id (nodesFrom parsers file) (nodesFrom parsers file') := by
  intro i a b ha hb
  obtain ⟨_, eq, ofFile⟩ := mem_nodesFrom.1 (List.mem_of_find?_eq_some ha)
  obtain ⟨_, eq', ofFile'⟩ := mem_nodesFrom.1 (List.mem_of_find?_eq_some hb)
  cases parsed.symm.trans eq
  cases parsed'.symm.trans eq'
  have first : a.id = i := by simpa using List.find?_some ha
  have second : b.id = i := by simpa using List.find?_some hb
  have same := first.trans second.symm
  rcases ofFile with rfl | ⟨dep, mem, rfl⟩ <;> rcases ofFile' with rfl | ⟨dep', mem', rfl⟩ <;>
    obtain ⟨ecosystem, name⟩ := nodeId_inj same
  · exact absurd (Prod.ext ecosystem name) differ
  · exact absurd ⟨ecosystem.symm, dep', mem', name.symm⟩ apart'
  · exact absurd ⟨ecosystem, dep, mem, name⟩ apart
  · rw [ecosystem, name]

/-! ## Orders of the files -/

/-- What the files say, as far as they can be parsed. -/
def manifests (parsers : List ManifestParser) (files : List (String × String)) : List ParsedManifest :=
  files.filterMap fun file => parse parsers file.1 file.2

/-- The packages of the manifests are pairwise different. -/
def Distinct (parsers : List ManifestParser) (files : List (String × String)) : Prop :=
  (manifests parsers files).Pairwise fun m m' => package m ≠ package m'

/-- No package with a manifest is a dependency of another one. -/
def Independent (parsers : List ManifestParser) (files : List (String × String)) : Prop :=
  ∀ m ∈ manifests parsers files, ∀ m' ∈ manifests parsers files, m ≠ m' → ¬DependsOn m m'

/-- In whatever order the files are scanned, the nodes and the edges are the same, and the node of a manifest
has its version and its path. -/
structure OrderFree (parsers : List ManifestParser) (files : List (String × String)) : Prop where
  nodes : ∀ files' : List (String × String), files'.Perm files →
    ∀ node, node ∈ (scan parsers files').nodes ↔ node ∈ (scan parsers files).nodes
  edges : ∀ files' : List (String × String), files'.Perm files →
    ∀ edge, edge ∈ (scan parsers files').edges ↔ edge ∈ (scan parsers files).edges
  carried : ∀ files' : List (String × String), files'.Perm files →
    ∀ path content m, (path, content) ∈ files → parse parsers path content = some m →
      (∃ node ∈ (scan parsers files').nodes, node.id = nodeId m.ecosystem m.packageName) ∧
      ∀ node ∈ (scan parsers files').nodes, node.id = nodeId m.ecosystem m.packageName →
        node.version = m.version ∧ node.filePath = some path

theorem mem_manifests : m ∈ manifests parsers files ↔ ∃ file ∈ files, parse parsers file.1 file.2 = some m :=
  List.mem_filterMap

theorem Distinct.perm (distinct : Distinct parsers files) (perm : files'.Perm files) :
    Distinct parsers files' :=
  ((perm.filterMap _).pairwise_iff fun h => Ne.symm h).2 distinct

theorem Independent.perm (apart : Independent parsers files) (perm : files'.Perm files) :
    Independent parsers files' := by
  intro m hm m' hm'
  exact apart m ((perm.filterMap _).mem_iff.1 hm) m' ((perm.filterMap _).mem_iff.1 hm')

theorem Distinct.pairwise (distinct : Distinct parsers files) : files.Pairwise fun file file' =>
    ∀ m, parse parsers file.1 file.2 = some m → ∀ m', parse parsers file'.1 file'.2 = some m' →
      package m ≠ package m' :=
  List.pairwise_filterMap.1 distinct

theorem Distinct.agree_edges (distinct : Distinct parsers files) :
    (files.map (edgesFrom parsers)).Pairwise (Agree ends) := by
  refine List.pairwise_map.2 (distinct.pairwise.imp fun {file file'} differ => ?_)
  intro i a b ha hb
  obtain ⟨m, parsed, -⟩ := mem_edgesFrom.1 (List.mem_of_find?_eq_some ha)
  obtain ⟨m', parsed', -⟩ := mem_edgesFrom.1 (List.mem_of_find?_eq_some hb)
  exact PackageIntel.agree_edges parsed parsed' (differ m parsed m' parsed') i a b ha hb

theorem Distinct.agree_nodes (distinct : Distinct parsers files) (apart : Independent parsers files) :
    (files.map (nodesFrom parsers)).Pairwise (Agree PackageNode.id) := by
  refine List.pairwise_map.2 (distinct.pairwise.imp_of_mem fun {file file'} mem mem' differ => ?_)
  intro i a b ha hb
  obtain ⟨m, parsed, -⟩ := mem_nodesFrom.1 (List.mem_of_find?_eq_some ha)
  obtain ⟨m', parsed', -⟩ := mem_nodesFrom.1 (List.mem_of_find?_eq_some hb)
  have different := differ m parsed m' parsed'
  have other : m ≠ m' := fun same => different (congrArg package same)
  have hm := mem_manifests.2 ⟨file, mem, parsed⟩
  have hm' := mem_manifests.2 ⟨file', mem', parsed'⟩
  exact PackageIntel.agree_nodes parsed parsed' different (apart m hm m' hm' other)
    (apart m' hm' m hm other.symm)
    i a b ha hb

/-- The node of a manifest is the only one with its id. -/
theorem carried_of_independent (distinct : Distinct parsers files) (apart : Independent parsers files)
    {path content : String} (mem : (path, content) ∈ files) (parsed : parse parsers path content = some m) :
    manifestNode path m ∈ (scan parsers files).nodes ∧
      ∀ node ∈ (scan parsers files).nodes, node.id = nodeId m.ecosystem m.packageName →
        node = manifestNode path m := by
  have own : manifestNode path m ∈ (scan parsers files).nodes := by
    rw [scan_eq, Ranking.mem_firstOfEach_flatten _ (distinct.agree_nodes apart)]
    refine ⟨_, List.mem_map_of_mem mem, ?_⟩
    simp [nodesFrom, parsed]
  refine ⟨own, fun node hn same => ?_⟩
  rw [scan_eq] at own hn
  exact List.inj_on_of_nodup_map (Ranking.nodup_firstOfEach PackageNode.id [] _) hn own same

/-- A dependency that is scanned first has a node without a path. -/
theorem exists_pathless (parsed : parse parsers file.1 file.2 = some m) (other : package m ≠ package m')
    (depends : DependsOn m m') (rest : List (String × String)) :
    ∃ node ∈ (scan parsers (file :: rest)).nodes,
      node.id = nodeId m'.ecosystem m'.packageName ∧ node.filePath = none := by
  obtain ⟨ecosystem, dep, mem, name⟩ := depends
  have known : dependencyNode m.ecosystem dep.name ∈ nodesFrom parsers file :=
    mem_nodesFrom.2 ⟨m, parsed, .inr ⟨dep, mem, rfl⟩⟩
  have found :
      ((nodesFrom parsers file).find? fun n => n.id = nodeId m'.ecosystem m'.packageName).isSome := by
    refine List.find?_isSome.2 ⟨_, known, decide_eq_true ?_⟩
    rw [dependencyNode, ecosystem, name]
  obtain ⟨node, found⟩ := Option.isSome_iff_exists.1 found
  have same : node.id = nodeId m'.ecosystem m'.packageName := by simpa using List.find?_some found
  refine ⟨node, ?_, same, ?_⟩
  · rw [scan_eq, Ranking.mem_firstOfEach_iff, List.map_cons, List.flatten_cons, List.find?_append, same,
      found]
    exact ⟨List.not_mem_nil, rfl⟩
  · obtain ⟨_, eq, rfl | ⟨_, -, rfl⟩⟩ := mem_nodesFrom.1 (List.mem_of_find?_eq_some found)
    · cases parsed.symm.trans eq
      exact absurd (package_eq same) other
    · rfl

/-- The order of the files makes no difference exactly if no package with a manifest is a dependency of
another one. -/
theorem orderFree_iff (distinct : Distinct parsers files) :
    OrderFree parsers files ↔ Independent parsers files := by
  constructor
  · intro free m hm m' hm' other depends
    obtain ⟨file, mem, parsed⟩ := mem_manifests.1 hm
    obtain ⟨file', mem', parsed'⟩ := mem_manifests.1 hm'
    have : Std.Symm fun m m' : ParsedManifest => package m ≠ package m' := ⟨fun _ _ => Ne.symm⟩
    have differ : package m ≠ package m' := List.Pairwise.forall distinct hm hm' other
    obtain ⟨node, known, same, pathless⟩ := exists_pathless parsed differ depends (files.erase file)
    have carried := (free.carried _ (List.perm_cons_erase mem).symm _ _ m' mem' parsed').2 node known same
    rw [pathless] at carried
    cases carried.2
  · intro apart
    refine ⟨fun files' perm node => ?_, fun files' perm edge => ?_,
      fun files' perm path content m mem parsed => ?_⟩
    · rw [scan_eq, scan_eq]
      exact Ranking.mem_firstOfEach_perm _ (perm.map _) (distinct.agree_nodes apart)
    · rw [scan_eq, scan_eq]
      exact Ranking.mem_firstOfEach_perm _ (perm.map _) distinct.agree_edges
    · obtain ⟨own, only⟩ :=
        carried_of_independent (distinct.perm perm) (apart.perm perm) (perm.mem_iff.2 mem) parsed
      refine ⟨⟨_, own, rfl⟩, fun node known same => ?_⟩
      rw [only node known same]
      exact ⟨rfl, rfl⟩

/-! ## Two crates -/

/-- The manifest of a package without dependencies. -/
def utilFile : String × String := ("util/Cargo.toml", "[package]\nname = \"util\"\nversion = \"1.0.0\"")

/-- A crate that depends on `util`. -/
def appFile : String × String :=
  ("app/Cargo.toml", "[package]\nname = \"app\"\n[dependencies]\nutil = \"1.0\"")

/-- A crate that depends on nothing that is scanned. -/
def toolFile : String × String :=
  ("tool/Cargo.toml", "[package]\nname = \"tool\"\n[dependencies]\nserde = \"1\"")

theorem parse_cargo (others : List ManifestParser) {path content : String}
    (can : (cargoParser asciiLowercase).canParse path content = true) :
    parse (cargoParser asciiLowercase :: others) path content = cargoParse content := by
  simp only [parse, List.find?_cons, can]
  rfl

theorem parse_util (others : List ManifestParser) :
    parse (cargoParser asciiLowercase :: others) utilFile.1 utilFile.2 =
      some ⟨.cargo, "util", some "1.0.0", []⟩ :=
  (parse_cargo others (by decide)).trans (by decide)

theorem parse_app (others : List ManifestParser) :
    parse (cargoParser asciiLowercase :: others) appFile.1 appFile.2 =
      some ⟨.cargo, "app", none, [⟨"util", some "1.0", .runtime⟩]⟩ :=
  (parse_cargo others (by decide)).trans (by decide)

/-- The files of two different crates, and the order makes a difference: `util` has no version when `app` is
scanned first.  The parsers after the one for `Cargo.toml` are not asked. -/
theorem app_before_util : ¬∃ others : List ManifestParser,
    Distinct (cargoParser asciiLowercase :: others) [utilFile, appFile] →
      OrderFree (cargoParser asciiLowercase :: others) [utilFile, appFile] := by
  rintro ⟨others, free⟩
  have all : manifests (cargoParser asciiLowercase :: others) [utilFile, appFile] =
      [⟨.cargo, "util", some "1.0.0", []⟩, ⟨.cargo, "app", none, [⟨"util", some "1.0", .runtime⟩]⟩] := by
    rw [manifests, List.filterMap_cons, parse_util, List.filterMap_cons, parse_app]
    rfl
  have distinct : Distinct (cargoParser asciiLowercase :: others) [utilFile, appFile] := by
    rw [Distinct, all]
    decide
  have depends : DependsOn ⟨.cargo, "app", none, [⟨"util", some "1.0", .runtime⟩]⟩
      ⟨.cargo, "util", some "1.0.0", []⟩ := ⟨rfl, by simp⟩
  obtain ⟨node, known, same, pathless⟩ := exists_pathless (parse_app others) (by decide) depends [utilFile]
  have carried := ((free distinct).carried [appFile, utilFile] (List.Perm.swap _ _ _) utilFile.1 utilFile.2 _
    List.mem_cons_self (parse_util others)).2 node known same
  rw [pathless] at carried
  cases carried.2

theorem orderFree_tool : OrderFree [cargoParser asciiLowercase] [utilFile, toolFile] :=
  (orderFree_iff (by unfold Distinct; decide)).2 (by unfold Independent DependsOn; decide)

end PackageIntel

end TORdex
