import Mathlib.Algebra.BigOperators.Group.List.Basic
import Mathlib.Algebra.Field.Defs
import TORdex.Core.Primitives
import TORdex.Fabric.Crawler
import TORdex.Lib.Ranking

/-!
# The search engine

Queries are evaluated against the documents of an index.  Scores are exact values of an ordered field; its
square root and the lower case of a text are parameters.
-/

namespace TORdex.Search

open Crawler (cut)
open Ranking (sortDesc firstOfEach)

/-! ## Text -/

/-- `str::contains`. -/
def containsText (text pattern : String) : Bool := (cut pattern.toList text.toList).isSome

/-- Count the occurrences of a pattern, one after another. -/
def countFrom (pattern : List Char) : ℕ → List Char → ℕ
  | 0, _ => 0
  | fuel + 1, s =>
    match cut pattern s with
    | none => 0
    | some (_, rest) => 1 + countFrom pattern fuel rest

/-- `matches(pattern).count()`: matches do not overlap, and the empty pattern matches at every boundary. -/
def countMatches (text pattern : String) : ℕ :=
  if pattern.isEmpty then text.length + 1 else countFrom pattern.toList text.length text.toList

/-! ## Documents and queries -/

/-- A document stored in the search index. -/
structure Document where
  id : String
  title : String
  body : String
  kind : String
  source : String
  timestamp : Option OffsetDateTime
  metadata : HashMap String String

/-- A scored search result. -/
structure ScoredResult (α : Type) where
  document : Document
  score : α
  matchedOn : List String

/-- The id of the document. -/
def ScoredResult.id {α : Type} (r : ScoredResult α) : String := r.document.id

/-- Time range for temporal queries. -/
structure TimeRange where
  start : Option OffsetDateTime
  stop : Option OffsetDateTime

/-- Structural pattern for structural queries. -/
inductive StructPattern where
  | function (name : Option String)
  | classDef (name : Option String)
  | interface (name : Option String)
  | symbol (kind : String) (name : Option String)
  | call (name : Option String)
  | importFrom (source : Option String)

/-- Graph pattern for graph queries. -/
inductive GraphPattern where
  | node (name : String) (kind : Option String)
  | edge (source target : GraphPattern) (kind : Option String)
  | path (start target : GraphPattern) (maxDepth : ℕ)
  | neighbors (node : GraphPattern) (depth : ℕ)
  | subgraph (patterns : List GraphPattern)

/-- Dependency query for dependency search. -/
inductive DependencyQuery where
  | dependents (name : String) (ecosystem : Option String)
  | dependencies (name : String) (ecosystem : Option String)
  | transitive (name : String) (ecosystem : Option String) (maxDepth : ℕ)
  | ecosystem (eco : String)

/-- Architecture query for architecture search. -/
inductive ArchQuery where
  | module (path : String)
  | package (name : String)
  | workspace (name : String)
  | directory (path : String)

/-- Filter spec for filtering query results. -/
inductive FilterSpec (α : Type) where
  | kind (k : String)
  | source (s : String)
  | timeBefore (t : OffsetDateTime)
  | timeAfter (t : OffsetDateTime)
  | metadata (key value : String)
  | scoreAbove (s : α)
  | scoreBelow (s : α)

/-- The query algebra. -/
inductive QueryExpr (α : Type) where
  | keyword (term : String)
  | prefixed (start : String)
  | phrase (words : List String)
  | semantic (text : String) (embedding : List α)
  | temporal (range : TimeRange)
  | structural (pattern : StructPattern)
  | graph (pattern : GraphPattern)
  | dependency (query : DependencyQuery)
  | architecture (query : ArchQuery)
  | similarity (query : QueryExpr α) (threshold : α) (maxResults : ℕ)
  | and (queries : List (QueryExpr α))
  | or (queries : List (QueryExpr α))
  | not (query : QueryExpr α)
  | filter (query : QueryExpr α) (spec : FilterSpec α)

/-- A query result, without the time that it took. -/
structure QueryResult (α : Type) where
  results : List (ScoredResult α)
  totalCount : ℕ

/-- An in-memory search index storing documents and optional semantic embeddings. -/
structure SearchIndex (α : Type) where
  documents : List Document
  embeddings : HashMap String (List α)

namespace SearchIndex

variable {α : Type}

/-- Without documents. -/
def new : SearchIndex α := ⟨[], ∅⟩

/-- Add a document behind the others. -/
def addDocument (index : SearchIndex α) (doc : Document) : SearchIndex α :=
  { index with documents := index.documents ++ [doc] }

/-- The embedding of a document. -/
def getEmbedding (index : SearchIndex α) (id : String) : Option (List α) := index.embeddings.lookup id

/-- The number of documents. -/
def len (index : SearchIndex α) : ℕ := index.documents.length

end SearchIndex

/-- What the engine takes from outside: the lower case of a text, and square roots of scores. -/
structure Env (α : Type) where
  toLowercase : String → String
  sqrt : α → α

section Similarity

variable {α : Type} [Field α] [DecidableEq α] (env : Env α)

/-- Compute cosine similarity between two vectors. -/
def cosineSimilarity (a b : List α) : Option α :=
  if a.length ≠ b.length || a.isEmpty then none
  else
    let dot := (a.zipWith (· * ·) b).sum
    let magA := (a.map fun x => x * x).sum
    let magB := (b.map fun x => x * x).sum
    let denom := env.sqrt magA * env.sqrt magB
    if denom = 0 then none else some (dot / denom)

/-- Compute cosine similarity between two text strings using word frequency. -/
def textCosineSimilarity (a b : String) : α :=
  let tokensA := splitWhitespace (env.toLowercase a)
  let tokensB := splitWhitespace (env.toLowercase b)
  let push (vocab : List (List Char)) (t : List Char) := if t ∈ vocab then vocab else vocab ++ [t]
  let vocab := tokensB.foldl push (tokensA.foldl push [])
  let vecA := vocab.map fun v => ((tokensA.count v : ℕ) : α)
  let vecB := vocab.map fun v => ((tokensB.count v : ℕ) : α)
  (cosineSimilarity env vecA vecB).getD 0

end Similarity

/-! ## Leaf queries -/

section Evaluation

variable {α : Type} [Field α] [LinearOrder α] (env : Env α) (index : SearchIndex α)

/-- `sort_by` with the scores in descending order. -/
def sortByScore (results : List (ScoredResult α)) : List (ScoredResult α) :=
  sortDesc ScoredResult.score results

/-- The documents that pass a test, all with one score. -/
def selectDocuments (label : String) (score : α) (keep : Document → Bool) (maxResults : ℕ) :
    List (ScoredResult α) :=
  ((index.documents.filter keep).map fun doc => ⟨doc, score, [label]⟩).take maxResults

/-- Score documents by the occurrences of a term. -/
def evalKeyword (term : String) (maxResults : ℕ) : List (ScoredResult α) :=
  let termLower := env.toLowercase term
  let results := index.documents.filterMap fun doc =>
    let bodyCount := countMatches (env.toLowercase doc.body) termLower
    let titleCount := countMatches (env.toLowercase doc.title) termLower
    if bodyCount > 0 || titleCount > 0 then
      some ⟨doc, ((titleCount * 3 + bodyCount : ℕ) : α), [if titleCount > 0 then "title" else "body"]⟩
    else none
  (sortByScore results).take maxResults

/-- The body or the title of a document contains a text, in lower case. -/
def mentions (lower : String) (doc : Document) : Bool :=
  containsText (env.toLowercase doc.body) lower || containsText (env.toLowercase doc.title) lower

/-- Documents that mention a text. -/
def evalPrefix (start : String) (maxResults : ℕ) : List (ScoredResult α) :=
  selectDocuments index "prefix" 1 (mentions env (env.toLowercase start)) maxResults

/-- Documents that mention the words in a row. -/
def evalPhrase (words : List String) (maxResults : ℕ) : List (ScoredResult α) :=
  selectDocuments index "phrase" (words.length : α)
    (mentions env (env.toLowercase (" ".intercalate words))) maxResults

/-- Documents by the similarity of their embeddings. -/
def evalSemantic (embedding : List α) (maxResults : ℕ) : List (ScoredResult α) :=
  let results := index.documents.filterMap fun doc => do
    let docEmbedding ← index.getEmbedding doc.id
    let sim ← cosineSimilarity env embedding docEmbedding
    some ⟨doc, sim, ["semantic"]⟩
  (sortByScore results).take maxResults

/-- Documents of a range of time. -/
def evalTemporal (range : TimeRange) (maxResults : ℕ) : List (ScoredResult α) :=
  selectDocuments index "temporal" 1 (fun doc =>
    match doc.timestamp with
    | none => range.start.isNone && range.stop.isNone
    | some ts => range.start.all (· ≤ ts) && range.stop.all (ts ≤ ·)) maxResults

/-- `name.map_or(found, |n| found && body_lower.contains(&n.to_lowercase()))`. -/
def foundWith (bodyLower : String) (found : Bool) (name : Option String) : Bool :=
  found && name.all fun n => containsText bodyLower (env.toLowercase n)

/-- The document has the structure. -/
def StructPattern.matchesDoc (doc : Document) : StructPattern → Bool :=
  let bodyLower := env.toLowercase doc.body
  fun
  | .function name =>
    foundWith env bodyLower (["fn ", "function ", "def ", "func "].any (containsText bodyLower)) name
  | .classDef name => foundWith env bodyLower (["class ", "struct "].any (containsText bodyLower)) name
  | .interface name =>
    foundWith env bodyLower (["interface ", "trait ", "protocol "].any (containsText bodyLower)) name
  | .symbol kind name =>
    let kindMatch := match doc.metadata.lookup "symbol_kind" with
      | none => containsText bodyLower kind
      | some k => k = kind
    foundWith env bodyLower kindMatch name
  | .call name => name.all fun n => containsText bodyLower (n ++ "(")
  | .importFrom source =>
    foundWith env bodyLower (["import ", "use ", "#include", "require("].any (containsText bodyLower)) source

/-- Documents with a structure. -/
def evalStructural (pattern : StructPattern) (maxResults : ℕ) : List (ScoredResult α) :=
  selectDocuments index "structural" 1 (fun doc => pattern.matchesDoc env doc) maxResults

/-- One of the results is for the document. -/
def hasId (results : List (ScoredResult α)) (id : String) : Bool := results.any fun r => r.id = id

mutual

/-- Documents that match a pattern of the graph. -/
def evalGraph : GraphPattern → ℕ → List (ScoredResult α)
  | .node name kind, maxResults =>
    selectDocuments index "graph" 1 (fun doc =>
      (containsText doc.title name || containsText doc.body name) && kind.all (doc.kind = ·)) maxResults
  | .edge source target kind, maxResults =>
    let src := evalGraph source 1
    let tgt := evalGraph target 1
    selectDocuments index "graph" 1 (fun doc =>
      hasId src doc.id && hasId tgt doc.id && kind.all (doc.metadata.lookup "edge_kind" = some ·)) maxResults
  | .path start target maxDepth, maxResults =>
    let src := evalGraph start 1
    let tgt := evalGraph target 1
    selectDocuments index "graph" 1 (fun doc =>
      hasId src doc.id || hasId tgt doc.id ||
        ((doc.metadata.lookup "path_depth").bind parseUsize).all (· ≤ maxDepth)) maxResults
  | .neighbors node depth, maxResults =>
    let nodeResults := evalGraph node maxResults
    selectDocuments index "graph" 1 (fun doc =>
      !nodeResults.isEmpty &&
        ((doc.metadata.lookup "graph_distance").bind parseUsize).getD usizeMax ≤ depth) maxResults
  | .subgraph patterns, maxResults =>
    let subs := evalGraphs patterns
    selectDocuments index "graph" 1 (fun doc => subs.any fun sub => hasId sub doc.id) maxResults

/-- Every pattern of a subgraph with the limit 1. -/
def evalGraphs : List GraphPattern → List (List (ScoredResult α))
  | [] => []
  | pattern :: patterns => evalGraph pattern 1 :: evalGraphs patterns

end

/-- The document answers the query. -/
def DependencyQuery.matchesDoc (doc : Document) : DependencyQuery → Bool
  | .dependents name eco =>
    doc.metadata.lookup "depends_on" = some name && eco.all (containsText doc.source)
  | .dependencies name eco =>
    doc.metadata.lookup "package_name" = some name && eco.all (containsText doc.source)
  | .transitive name eco maxDepth =>
    (doc.metadata.lookup "dep_chain").any (containsText · name) && eco.all (containsText doc.source) &&
      ((doc.metadata.lookup "dep_depth").bind parseUsize).getD usizeMax ≤ maxDepth
  | .ecosystem eco => containsText doc.source eco

/-- Documents that answer a query about dependencies. -/
def evalDependency (query : DependencyQuery) (maxResults : ℕ) : List (ScoredResult α) :=
  selectDocuments index "dependency" 1 (fun doc => query.matchesDoc doc) maxResults

/-- The document answers the query. -/
def ArchQuery.matchesDoc (doc : Document) : ArchQuery → Bool
  | .module path => containsText doc.source path || containsText doc.title path
  | .package name => doc.metadata.lookup "package" = some name || doc.title = name
  | .workspace name => doc.metadata.lookup "workspace" = some name || containsText doc.source name
  | .directory path => containsText doc.source path

/-- Documents that answer a query about the architecture. -/
def evalArchitecture (query : ArchQuery) (maxResults : ℕ) : List (ScoredResult α) :=
  selectDocuments index "architecture" 1 (fun doc => query.matchesDoc doc) maxResults

/-! ## Composite queries -/

/-- The documents similar to one of the base results, with the first similarity that reaches the threshold. -/
def evalSimilarity (baseResults : List (ScoredResult α)) (threshold : α) (maxResults : ℕ) :
    List (ScoredResult α) :=
  if baseResults.isEmpty then []
  else
    let text (doc : Document) := doc.title ++ " " ++ doc.body
    let targetTexts := baseResults.map fun r => text r.document
    let results := index.documents.filterMap fun doc => do
      let sim ← (targetTexts.map fun target => textCosineSimilarity env target (text doc)).find? (threshold ≤ ·)
      some ⟨doc, sim, ["similarity"]⟩
    (sortByScore results).take maxResults

/-- `result.retain(|r| other.iter().any(|o| o.document.id == r.document.id))`. -/
def retainIn (result other : List (ScoredResult α)) : List (ScoredResult α) :=
  result.filter fun r => hasId other r.id

/-- The documents without a result. -/
def evalNot (excluded : List (ScoredResult α)) (maxResults : ℕ) : List (ScoredResult α) :=
  selectDocuments index "not" 1 (fun doc => !hasId excluded doc.id) maxResults

/-- The result passes the filter. -/
def FilterSpec.passes (spec : FilterSpec α) (r : ScoredResult α) : Bool :=
  match spec with
  | .kind k => r.document.kind = k
  | .source s => r.document.source = s
  | .timeBefore t => r.document.timestamp.all (· < t)
  | .timeAfter t => r.document.timestamp.all (t < ·)
  | .metadata key value => r.document.metadata.lookup key = some value
  | .scoreAbove s => s ≤ r.score
  | .scoreBelow s => r.score ≤ s

mutual

/-- The results of a query, with the limit that each kind of query applies in its own place. -/
def evaluate : QueryExpr α → ℕ → List (ScoredResult α)
  | .keyword term, maxResults => evalKeyword env index term maxResults
  | .prefixed start, maxResults => evalPrefix env index start maxResults
  | .phrase words, maxResults => evalPhrase env index words maxResults
  | .semantic _ embedding, maxResults => evalSemantic env index embedding maxResults
  | .temporal range, maxResults => evalTemporal index range maxResults
  | .structural pattern, maxResults => evalStructural env index pattern maxResults
  | .graph pattern, maxResults => evalGraph index pattern maxResults
  | .dependency query, maxResults => evalDependency index query maxResults
  | .architecture query, maxResults => evalArchitecture index query maxResults
  | .similarity subQuery threshold simMax, maxResults =>
    evalSimilarity env index (evaluate subQuery simMax) threshold maxResults
  | .and queries, maxResults =>
    match evaluateAll queries maxResults with
    | [] => []
    | result :: sets => (sortByScore (sets.foldl retainIn result)).take maxResults
  | .or queries, maxResults =>
    (sortByScore (firstOfEach ScoredResult.id [] (evaluateAll queries maxResults).flatten)).take maxResults
  | .not subQuery, maxResults => evalNot index (evaluate subQuery usizeMax) maxResults
  | .filter subQuery spec, maxResults => (evaluate subQuery maxResults).filter spec.passes

/-- The results of each query of a list. -/
def evaluateAll : List (QueryExpr α) → ℕ → List (List (ScoredResult α))
  | [], _ => []
  | query :: queries, maxResults => evaluate query maxResults :: evaluateAll queries maxResults

end

end Evaluation

/-! ## The engine -/

/-- The engine indexes documents and evaluates query algebra expressions against them. -/
structure SearchEngine (α : Type) where
  index : SearchIndex α

namespace SearchEngine

variable {α : Type}

/-- An engine with an empty index. -/
def new : SearchEngine α := ⟨.new⟩

/-- Index a document for search. -/
def indexDocument (engine : SearchEngine α) (doc : Document) : SearchEngine α :=
  ⟨engine.index.addDocument doc⟩

/-- Index multiple documents. -/
def indexDocuments (engine : SearchEngine α) (docs : List Document) : SearchEngine α :=
  docs.foldl indexDocument engine

/-- Get the document count in the index. -/
def documentCount (engine : SearchEngine α) : ℕ := engine.index.len

/-- Evaluate a query expression against the index. -/
def search [Field α] [LinearOrder α] (env : Env α) (engine : SearchEngine α) (query : QueryExpr α)
    (maxResults : ℕ) : QueryResult α :=
  let results := evaluate env engine.index query maxResults
  ⟨results, results.length⟩

end SearchEngine

end TORdex.Search
