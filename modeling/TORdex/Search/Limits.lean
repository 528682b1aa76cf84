import Mathlib.Algebra.Field.Rat
import Mathlib.Algebra.Order.Ring.Unbundled.Rat
import Mathlib.Logic.Relation
import TORdex.Search.Query

/-!
# Result limits

The ranked hits of a query are what it finds without a limit.  A limit is passed on to the operands of `And`,
`Or` and `Filter`, so these work on the first hits of their operands only.  The other queries cut off their own
results, and so the limit only truncates them.
-/

namespace TORdex.Search

open Ranking

/-! ## Ranked results -/

section Queries

variable {α : Type}

/-- A query without operands. -/
def QueryExpr.IsLeaf : QueryExpr α → Prop
  | .similarity _ _ _ | .and _ | .or _ | .not _ | .filter _ _ => False
  | _ => True

/-- The operands that are evaluated with the limit of the query. -/
def QueryExpr.operands : QueryExpr α → List (QueryExpr α)
  | .and queries | .or queries => queries
  | .filter query _ => [query]
  | _ => []

/-- The parts of a query that are evaluated with its limit, the query itself among them. -/
def QueryExpr.Limited (query part : QueryExpr α) : Prop :=
  Relation.ReflTransGen (fun query operand => operand ∈ query.operands) query part

mutual

/-- Every similarity query in a query takes up at least `n` hits of its operand. -/
def QueryExpr.SimilarityUncut (n : ℕ) : QueryExpr α → Prop
  | .similarity query _ simMax => n ≤ simMax ∧ query.SimilarityUncut n
  | .and queries | .or queries => AllUncut n queries
  | .not query | .filter query _ => query.SimilarityUncut n
  | _ => True

/-- The same for all queries of a list. -/
def AllUncut (n : ℕ) : List (QueryExpr α) → Prop
  | [] => True
  | query :: queries => query.SimilarityUncut n ∧ AllUncut n queries

end

attribute [grind =] QueryExpr.SimilarityUncut AllUncut

theorem allUncut_iff {n : ℕ} {queries : List (QueryExpr α)} :
    AllUncut n queries ↔ ∀ query ∈ queries, query.SimilarityUncut n := by
  induction queries with
  | nil => simp [AllUncut]
  | cons query queries ih => rw [AllUncut, ih, List.forall_mem_cons]

theorem QueryExpr.SimilarityUncut.operand {n : ℕ} {query operand : QueryExpr α}
    (h : query.SimilarityUncut n) (mem : operand ∈ query.operands) : operand.SimilarityUncut n := by
  cases query with
  | and queries =>
    rw [QueryExpr.SimilarityUncut, allUncut_iff] at h
    exact h operand mem
  | or queries =>
    rw [QueryExpr.SimilarityUncut, allUncut_iff] at h
    exact h operand mem
  | filter query spec =>
    rw [QueryExpr.SimilarityUncut] at h
    rwa [List.mem_singleton.1 mem]
  | _ => cases mem

theorem QueryExpr.Limited.uncut {n : ℕ} {query part : QueryExpr α} (limited : query.Limited part)
    (h : query.SimilarityUncut n) : part.SimilarityUncut n := by
  induction limited with
  | refl => exact h
  | tail _ mem ih => exact ih.operand mem

@[elab_as_elim]
theorem QueryExpr.induction {P : QueryExpr α → Prop} (leaf : ∀ query : QueryExpr α, query.IsLeaf → P query)
    (similarity : ∀ query threshold simMax, P query → P (.similarity query threshold simMax))
    (and : ∀ queries, (∀ query ∈ queries, P query) → P (.and queries))
    (or : ∀ queries, (∀ query ∈ queries, P query) → P (.or queries))
    (not : ∀ query, P query → P (.not query))
    (filter : ∀ query spec, P query → P (.filter query spec)) (query : QueryExpr α) : P query :=
  @QueryExpr.rec α P (fun queries => ∀ query ∈ queries, P query)
    (fun _ => leaf _ trivial) (fun _ => leaf _ trivial) (fun _ => leaf _ trivial)
    (fun _ _ => leaf _ trivial) (fun _ => leaf _ trivial) (fun _ => leaf _ trivial)
    (fun _ => leaf _ trivial) (fun _ => leaf _ trivial) (fun _ => leaf _ trivial)
    (fun query threshold simMax => similarity query threshold simMax) and or not filter
    (by simp) (fun _ _ first rest => List.forall_mem_cons.2 ⟨first, rest⟩) query

end Queries

section Ranked

variable {α : Type} [LinearOrder α] (index : SearchIndex α)

/-- Results for documents of the index, at most as many as there are documents, the best first. -/
structure Ranked (results : List (ScoredResult α)) : Prop where
  mem : ∀ r ∈ results, r.document ∈ index.documents
  length_le : results.length ≤ index.len
  sorted : Sorted ScoredResult.score results

/-- An evaluation that cuts off a ranked list at its limit. -/
def Truncated (eval : ℕ → List (ScoredResult α)) : Prop :=
  ∃ results, Ranked index results ∧ ∀ m, eval m = results.take m

variable {index}

theorem Ranked.nil : Ranked index [] := ⟨by simp, Nat.zero_le _, List.Pairwise.nil⟩

theorem Ranked.sublist {results kept : List (ScoredResult α)} (h : Ranked index results)
    (sub : kept.Sublist results) : Ranked index kept where
  mem r hr := h.mem r (sub.subset hr)
  length_le := sub.length_le.trans h.length_le
  sorted := h.sorted.sublist sub

theorem Ranked.take_eq {results : List (ScoredResult α)} (h : Ranked index results) {m : ℕ}
    (le : index.len ≤ m) : results.take m = results :=
  List.take_of_length_le (h.length_le.trans le)

theorem Truncated.ranked {eval : ℕ → List (ScoredResult α)} (h : Truncated index eval) :
    Ranked index (eval index.len) := by
  obtain ⟨results, ranked, eq⟩ := h
  rw [eq, ranked.take_eq le_rfl]
  exact ranked

theorem Truncated.eq_take {eval : ℕ → List (ScoredResult α)} (h : Truncated index eval) (m : ℕ) :
    eval m = (eval index.len).take m := by
  obtain ⟨results, ranked, eq⟩ := h
  rw [eq, eq, ranked.take_eq le_rfl]

/-- At most one result for each document, sorted by score. -/
theorem ranked_sortByScore_filterMap {f : Document → Option (ScoredResult α)}
    (own : ∀ doc r, f doc = some r → r.document = doc) :
    Ranked index (sortByScore (index.documents.filterMap f)) where
  mem r hr := by
    obtain ⟨doc, mem, eq⟩ := List.mem_filterMap.1 ((mem_sortDesc _).1 hr)
    rwa [own doc r eq]
  length_le := by
    rw [sortByScore, length_sortDesc]
    exact List.length_filterMap_le _ _
  sorted := sorted_sortDesc _ _

theorem ranked_select (label : String) (score : α) (keep : Document → Bool) :
    Ranked index ((index.documents.filter keep).map fun doc => ⟨doc, score, [label]⟩) where
  mem r hr := by
    obtain ⟨doc, mem, rfl⟩ := List.mem_map.1 hr
    exact List.mem_of_mem_filter mem
  length_le := by
    rw [List.length_map]
    exact List.length_filter_le _ _
  sorted := by
    rw [Sorted, List.pairwise_map]
    exact List.pairwise_of_forall fun _ _ => le_rfl

theorem selectDocuments_truncated (label : String) (score : α) (keep : Document → Bool) :
    Truncated index (selectDocuments index label score keep) :=
  ⟨_, ranked_select label score keep, fun _ => rfl⟩

omit [LinearOrder α] in
theorem mem_ids {results : List (ScoredResult α)} {id : String} :
    hasId results id ↔ id ∈ results.map ScoredResult.id := by
  simp [hasId]

omit [LinearOrder α] in
theorem foldl_retainIn (first : List (ScoredResult α)) (others : List (List (ScoredResult α))) :
    others.foldl retainIn first = first.filter fun r => others.all (hasId · r.id) := by
  induction others generalizing first with
  | nil => simp
  | cons other others ih =>
    rw [List.foldl_cons, ih, retainIn, List.filter_filter]
    simp only [List.all_cons, Bool.and_comm]

theorem sortByScore_foldl_retainIn {first : List (ScoredResult α)} (h : Ranked index first)
    (others : List (List (ScoredResult α))) :
    sortByScore (others.foldl retainIn first) = others.foldl retainIn first := by
  rw [foldl_retainIn]
  exact sortDesc_of_sorted _ (h.sublist List.filter_sublist).sorted

theorem ranked_meet {first : List (ScoredResult α)} (h : Ranked index first)
    (others : List (List (ScoredResult α))) :
    Ranked index (sortByScore (others.foldl retainIn first)) := by
  rw [sortByScore_foldl_retainIn h, foldl_retainIn]
  exact h.sublist List.filter_sublist

/-- Every document has at most one result in the merged list. -/
theorem ranked_join {lists : List (List (ScoredResult α))} (h : ∀ l ∈ lists, Ranked index l) :
    Ranked index (sortByScore (firstOfEach ScoredResult.id [] lists.flatten)) := by
  have mem : ∀ r ∈ firstOfEach ScoredResult.id [] lists.flatten, r.document ∈ index.documents := by
    intro r hr
    obtain ⟨l, hl, hr⟩ := List.mem_flatten.1 (mem_firstOfEach _ hr).1
    exact (h l hl).mem r hr
  refine ⟨fun r hr => mem r ((mem_sortDesc _).1 hr), ?_, sorted_sortDesc _ _⟩
  rw [sortByScore, length_sortDesc]
  have sub : (firstOfEach ScoredResult.id [] lists.flatten).map ScoredResult.id ⊆
      index.documents.map Document.id := by
    intro id hid
    obtain ⟨r, hr, rfl⟩ := List.mem_map.1 hid
    exact List.mem_map_of_mem (mem r hr)
  have := ((nodup_firstOfEach _ _ _).subperm sub).length_le
  rwa [List.length_map, List.length_map] at this

end Ranked

/-! ## Hits -/

section Hits

variable {α : Type} [Field α] [LinearOrder α] (env : Env α) (index : SearchIndex α)

mutual

/-- The ranked hits of a query.  A query without operands has at most one for each document. -/
def hits : QueryExpr α → List (ScoredResult α)
  | .similarity query threshold _ => evalSimilarity env index (hits query) threshold index.len
  | .and queries =>
    match hitsAll queries with
    | [] => []
    | first :: others => sortByScore (others.foldl retainIn first)
  | .or queries => sortByScore (firstOfEach ScoredResult.id [] (hitsAll queries).flatten)
  | .not query => evalNot index (hits query) index.len
  | .filter query spec => (hits query).filter spec.passes
  | query => evaluate env index query index.len

/-- The hits of all queries of a list. -/
def hitsAll : List (QueryExpr α) → List (List (ScoredResult α))
  | [] => []
  | query :: queries => hits query :: hitsAll queries

end

attribute [grind =] hits hitsAll evaluate evaluateAll

theorem hitsAll_eq_map (queries : List (QueryExpr α)) :
    hitsAll env index queries = queries.map (hits env index) := by
  induction queries with
  | nil => rfl
  | cons query queries ih => rw [hitsAll, ih, List.map_cons]

theorem evaluateAll_eq_map (queries : List (QueryExpr α)) (m : ℕ) :
    evaluateAll env index queries m = queries.map fun query => evaluate env index query m := by
  induction queries with
  | nil => rfl
  | cons query queries ih => rw [evaluateAll, ih, List.map_cons]

variable {env index}

theorem evalKeyword_truncated (term : String) : Truncated index (evalKeyword env index term) := by
  refine ⟨_, ranked_sortByScore_filterMap fun doc r eq => ?_, fun _ => rfl⟩
  obtain ⟨-, eq⟩ := Option.ite_none_right_eq_some.1 eq
  cases eq
  rfl

theorem evalSemantic_truncated (embedding : List α) :
    Truncated index (evalSemantic env index embedding) := by
  refine ⟨_, ranked_sortByScore_filterMap fun doc r eq => ?_, fun _ => rfl⟩
  simp only [Option.bind_eq_bind, Option.bind_eq_some_iff] at eq
  obtain ⟨_, _, _, _, eq⟩ := eq
  cases eq
  rfl

theorem evalSimilarity_truncated (baseResults : List (ScoredResult α)) (threshold : α) :
    Truncated index (evalSimilarity env index baseResults threshold) := by
  by_cases empty : baseResults.isEmpty
  · exact ⟨[], .nil, fun m => by simp [evalSimilarity, empty]⟩
  · refine ⟨_, ranked_sortByScore_filterMap fun doc r eq => ?_, fun m => by
      rw [evalSimilarity, if_neg empty]⟩
    simp only [Option.bind_eq_bind, Option.bind_eq_some_iff] at eq
    obtain ⟨_, _, eq⟩ := eq
    cases eq
    rfl

/-- Of the limit, a pattern for neighbours passes on whether it is zero. -/
theorem evalGraph_truncated : ∀ pattern : GraphPattern,
    Truncated index (evalGraph (α := α) index pattern)
  | .node _ _ => by simpa only [evalGraph] using selectDocuments_truncated ..
  | .edge _ _ _ => by simpa only [evalGraph] using selectDocuments_truncated ..
  | .path _ _ _ => by simpa only [evalGraph] using selectDocuments_truncated ..
  | .subgraph _ => by simpa only [evalGraph] using selectDocuments_truncated ..
  | .neighbors node depth => by
    obtain ⟨nodes, -, eq⟩ := evalGraph_truncated node
    refine ⟨_, ranked_select "graph" 1 fun doc => !nodes.isEmpty &&
      ((doc.metadata.lookup "graph_distance").bind parseUsize).getD usizeMax ≤ depth, fun m => ?_⟩
    rw [evalGraph, eq, selectDocuments]
    cases m with
    | zero => simp
    | succ m =>
      have : (nodes.take (m + 1)).isEmpty = nodes.isEmpty := by cases nodes <;> rfl
      simp only [this]

/-! ## Ranked hits of every query -/

theorem evaluate_truncated_of_leaf {query : QueryExpr α} (leaf : query.IsLeaf) :
    Truncated index (evaluate env index query) := by
  match query, leaf with
  | .keyword _, _ => simpa only [evaluate] using evalKeyword_truncated _
  | .prefixed _, _ => exact selectDocuments_truncated ..
  | .phrase _, _ => exact selectDocuments_truncated ..
  | .semantic _ _, _ => simpa only [evaluate] using evalSemantic_truncated _
  | .temporal _, _ => exact selectDocuments_truncated ..
  | .structural _, _ => exact selectDocuments_truncated ..
  | .graph _, _ => simpa only [evaluate] using evalGraph_truncated _
  | .dependency _, _ => exact selectDocuments_truncated ..
  | .architecture _, _ => exact selectDocuments_truncated ..

theorem hits_of_leaf {query : QueryExpr α} (leaf : query.IsLeaf) :
    hits env index query = evaluate env index query index.len := by
  cases query <;> first | exact leaf.elim | simp only [hits]

theorem hits_ranked (query : QueryExpr α) : Ranked index (hits env index query) := by
  induction query using QueryExpr.induction with
  | leaf query leaf =>
    rw [hits_of_leaf leaf]
    exact (evaluate_truncated_of_leaf leaf).ranked
  | similarity query threshold simMax _ =>
    rw [hits]
    exact (evalSimilarity_truncated _ _).ranked
  | and queries ih =>
    rw [hits, hitsAll_eq_map]
    cases queries with
    | nil => exact .nil
    | cons query queries => exact ranked_meet (ih query List.mem_cons_self) _
  | or queries ih =>
    rw [hits, hitsAll_eq_map]
    refine ranked_join fun l hl => ?_
    obtain ⟨query, mem, rfl⟩ := List.mem_map.1 hl
    exact ih query mem
  | not query _ =>
    rw [hits]
    exact (selectDocuments_truncated ..).ranked
  | filter query spec ih =>
    rw [hits]
    exact ih.sublist List.filter_sublist

/-! ## What the limit may not cut off -/

variable (env index)

/-- The limit cuts nothing off from the operands of a query that its first `m` hits need.

* `And`: of the first `m` hits of the first operand, as many are among the first `m` of all the others as there
  are hits of all operands, up to `m`.
* `Or`: a document among the first `m` hits of an operand is among the first `m` of the first operand that finds
  it, and the documents of the first `m` merged hits are among the first `m` of an operand.
* `Filter`: of the first `m` hits as many pass as of all, up to `m`. -/
def Harmless (m : ℕ) : QueryExpr α → Prop
  | .and [] => True
  | .and (query :: queries) =>
    min m ((hits env index query).countP fun r => (hitsAll env index queries).all (hasId · r.id)) ≤
      ((hits env index query).take m).countP fun r =>
        (hitsAll env index queries).all fun other => hasId (other.take m) r.id
  | .or queries =>
    Unshadowed ScoredResult.id m [] (hitsAll env index queries) ∧
      ∀ r ∈ (hits env index (.or queries)).take m,
        r.id ∈ ((hitsAll env index queries).flatMap (List.take m)).map ScoredResult.id
  | .filter query spec =>
    min m ((hits env index query).countP spec.passes) ≤ ((hits env index query).take m).countP spec.passes
  | _ => True

variable {env index}

attribute [grind =] Harmless

/-- The limit truncates a conjunction of truncated operands exactly if it is harmless. -/
theorem evaluate_and_iff {m : ℕ} {queries : List (QueryExpr α)}
    (h : ∀ query ∈ queries, evaluate env index query m = (hits env index query).take m) :
    evaluate env index (.and queries) m = (hits env index (.and queries)).take m ↔
      Harmless env index m (.and queries) := by
  rw [evaluate, hits, evaluateAll_eq_map, hitsAll_eq_map, List.map_congr_left h]
  cases queries with
  | nil => simp [Harmless]
  | cons query queries =>
    have ranked : Ranked index (hits env index query) := hits_ranked query
    have cut : Ranked index ((hits env index query).take m) := ranked.sublist (List.take_sublist _ _)
    simp only [List.map_cons, Harmless, hitsAll_eq_map]
    rw [sortByScore_foldl_retainIn cut, sortByScore_foldl_retainIn ranked, foldl_retainIn, foldl_retainIn,
      List.take_of_length_le ((List.length_filter_le _ _).trans (List.length_take_le _ _))]
    simp only [List.all_map, Function.comp_def]
    refine filter_take_iff_of_imp (fun r hr => ?_) _ _
    simp only [List.all_eq_true, mem_ids, List.map_take] at hr ⊢
    exact fun query mem => List.mem_of_mem_take (hr query mem)

/-- The limit truncates a disjunction of truncated operands exactly if it is harmless, unless a result comes
from another operand. -/
theorem evaluate_or_iff {m : ℕ} {queries : List (QueryExpr α)}
    (h : ∀ query ∈ queries, evaluate env index query m = (hits env index query).take m)
    (unshadowed : Unshadowed ScoredResult.id m [] (hitsAll env index queries)) :
    evaluate env index (.or queries) m = (hits env index (.or queries)).take m ↔
      Harmless env index m (.or queries) := by
  have cut : (queries.map fun query => evaluate env index query m).flatten =
      (hitsAll env index queries).flatMap (List.take m) := by
    rw [List.map_congr_left h, hitsAll_eq_map, List.flatMap_map, List.flatMap_def]
  rw [Harmless, and_iff_right unshadowed, evaluate, hits, evaluateAll_eq_map, cut]
  exact take_merge_iff _ _ unshadowed

theorem evaluate_filter_iff {m : ℕ} {query : QueryExpr α} {spec : FilterSpec α}
    (h : evaluate env index query m = (hits env index query).take m) :
    evaluate env index (.filter query spec) m = (hits env index (.filter query spec)).take m ↔
      Harmless env index m (.filter query spec) := by
  rw [evaluate, hits, h]
  exact filter_take_iff _ _ _

/-! ## Limits that only truncate -/

theorem harmless_of_len_le {m : ℕ} (le : index.len ≤ m) (query : QueryExpr α) :
    Harmless env index m query := by
  have whole (query : QueryExpr α) : (hits env index query).take m = hits env index query :=
    (hits_ranked query).take_eq le
  have wholeAll (queries : List (QueryExpr α)) : ∀ l ∈ hitsAll env index queries, l.take m = l := by
    rw [hitsAll_eq_map]
    exact List.forall_mem_map.2 fun query _ => whole query
  cases query with
  | and queries =>
    cases queries with
    | nil => trivial
    | cons query queries =>
      rw [Harmless, whole]
      simp only [hitsAll_eq_map, List.all_map, Function.comp_def, whole, min_le_right]
  | or queries =>
    refine ⟨unshadowed_of_take_eq _ (wholeAll queries) [], fun r hr => ?_⟩
    rw [whole, hits, sortByScore, mem_sortDesc] at hr
    rw [List.flatMap_def, List.map_congr_left (wholeAll queries), List.map_id']
    exact List.mem_map_of_mem (mem_firstOfEach _ hr).1
  | filter query spec =>
    rw [Harmless, whole]
    exact min_le_right _ _
  | _ => trivial

/-- If the limit is harmless wherever it is passed on, the query gives its first `m` hits. -/
theorem evaluate_eq_take (fits : index.len ≤ usizeMax) {query : QueryExpr α}
    (uncut : query.SimilarityUncut index.len) {m : ℕ}
    (harmless : ∀ part, query.Limited part → Harmless env index m part) :
    evaluate env index query m = (hits env index query).take m := by
  induction query using QueryExpr.induction generalizing m with
  | leaf query leaf =>
    rw [hits_of_leaf leaf]
    exact (evaluate_truncated_of_leaf leaf).eq_take m
  | similarity query threshold simMax ih =>
    rw [QueryExpr.SimilarityUncut] at uncut
    rw [evaluate, hits, ih uncut.2 fun part _ => harmless_of_len_le uncut.1 part,
      (hits_ranked query).take_eq uncut.1]
    exact (evalSimilarity_truncated _ _).eq_take m
  | not query ih =>
    rw [QueryExpr.SimilarityUncut] at uncut
    rw [evaluate, hits, ih uncut fun part _ => harmless_of_len_le fits part, (hits_ranked query).take_eq fits]
    exact (selectDocuments_truncated ..).eq_take m
  | and queries ih =>
    refine (evaluate_and_iff fun query mem => ?_).2 (harmless _ .refl)
    exact ih query mem (uncut.operand mem) fun part limited => harmless part (.head mem limited)
  | or queries ih =>
    have here := harmless _ .refl
    rw [Harmless] at here
    refine (evaluate_or_iff (fun query mem => ?_) here.1).2 (harmless _ .refl)
    exact ih query mem (uncut.operand mem) fun part limited => harmless part (.head mem limited)
  | filter query spec ih =>
    refine (evaluate_filter_iff ?_).2 (harmless _ .refl)
    exact ih (uncut.operand List.mem_cons_self) fun part limited =>
      harmless part (.head List.mem_cons_self limited)

theorem evaluate_usizeMax (fits : index.len ≤ usizeMax) {query : QueryExpr α}
    (uncut : query.SimilarityUncut index.len) : evaluate env index query usizeMax = hits env index query := by
  rw [evaluate_eq_take fits uncut fun part _ => harmless_of_len_le fits part, (hits_ranked query).take_eq fits]

end Hits

section Search

variable {α : Type} [Field α] [LinearOrder α] (env : Env α) (engine : SearchEngine α)

/-- The results under a limit are the first results without one. -/
def SearchEngine.Truncates (m : ℕ) (query : QueryExpr α) : Prop :=
  (engine.search env query m).results = ((engine.search env query usizeMax).results).take m

theorem truncates_iff {query : QueryExpr α} {m : ℕ} (fits : engine.documentCount ≤ usizeMax)
    (uncut : query.SimilarityUncut engine.documentCount) : engine.Truncates env m query ↔
      evaluate env engine.index query m = (hits env engine.index query).take m := by
  rw [SearchEngine.Truncates, SearchEngine.search, SearchEngine.search, evaluate_usizeMax fits uncut]

/-- A limit that is harmless wherever it is passed on only truncates; and if it truncates every part that it is
passed on to, and no result comes from another operand, then it is harmless. -/
theorem search_truncates (query : QueryExpr α) (m : ℕ) (fits : engine.documentCount ≤ usizeMax)
    (uncut : query.SimilarityUncut engine.documentCount) :
    ((∀ part, query.Limited part → Harmless env engine.index m part) → engine.Truncates env m query) ∧
      ((∀ part, query.Limited part → engine.Truncates env m part) →
        (∀ queries, query.Limited (.or queries) →
          Unshadowed ScoredResult.id m [] (hitsAll env engine.index queries)) →
        ∀ part, query.Limited part → Harmless env engine.index m part) := by
  constructor
  · intro harmless
    rw [truncates_iff env engine fits uncut]
    exact evaluate_eq_take fits uncut harmless
  · intro truncates unshadowed part limited
    have eq {part} (limited : query.Limited part) :=
      (truncates_iff env engine fits (limited.uncut uncut)).1 (truncates part limited)
    cases part with
    | and queries => exact (evaluate_and_iff fun operand mem => eq (limited.tail mem)).1 (eq limited)
    | or queries =>
      exact (evaluate_or_iff (fun operand mem => eq (limited.tail mem)) (unshadowed queries limited)).1 (eq limited)
    | filter subQuery spec =>
      exact (evaluate_filter_iff (eq (limited.tail List.mem_cons_self))).1 (eq limited)
    | _ => trivial

end Search

theorem indexDocuments_documents {α : Type} (engine : SearchEngine α) (docs : List Document) :
    (engine.indexDocuments docs).index.documents = engine.index.documents ++ docs := by
  induction docs generalizing engine with
  | nil => simp [SearchEngine.indexDocuments]
  | cons doc docs ih =>
    rw [SearchEngine.indexDocuments, List.foldl_cons, ← SearchEngine.indexDocuments, ih]
    simp [SearchEngine.indexDocument, SearchIndex.addDocument]

/-! ## A limit that loses a result -/

/-- The texts below are in lower case, and no query takes a square root. -/
def plain : Env ℚ := ⟨id, id⟩

/-- Two documents that mention `rust`, an article and a comparison. -/
def rustDocuments : SearchEngine ℚ := SearchEngine.new.indexDocuments
  [⟨"doc1", "rust ownership", "", "article", "docs", none, ∅⟩,
    ⟨"doc3", "rust vs python", "", "comparison", "blog", none, ∅⟩]

/-- The documents of a kind that mention `rust`. -/
def rustOfKind (kind : String) : QueryExpr ℚ := .filter (.prefixed "rust") (.kind kind)

theorem rustOfKind_uncut (kind : String) (n : ℕ) : (rustOfKind kind).SimilarityUncut n := by
  simp [rustOfKind, QueryExpr.SimilarityUncut]

theorem search_truncates_articles : rustDocuments.Truncates plain 1 (rustOfKind "article") := by
  refine (search_truncates plain rustDocuments (rustOfKind "article") 1 (by decide)
    (rustOfKind_uncut _ _)).1 ?_
  intro part limited
  rcases limited.cases_head with rfl | ⟨operand, mem, limited⟩
  · rw [rustOfKind, Harmless]
    decide
  · cases List.mem_singleton.1 mem
    rcases limited.cases_head with rfl | ⟨_, mem, _⟩
    · trivial
    · cases mem

/-- With the limit 1 the only comparison is lost: it is the second document that mentions `rust`. -/
theorem search_loses_comparison : rustDocuments.documentCount ≤ usizeMax ∧
    (rustOfKind "comparison").SimilarityUncut rustDocuments.documentCount ∧
    (rustDocuments.search plain (rustOfKind "comparison") 1).results.length = 0 ∧
    ((rustDocuments.search plain (rustOfKind "comparison") usizeMax).results.take 1).length = 1 ∧
    ¬rustDocuments.Truncates plain 1 (rustOfKind "comparison") := by
  have limited : (rustDocuments.search plain (rustOfKind "comparison") 1).results.length = 0 := by
    decide
  have all : ((rustDocuments.search plain (rustOfKind "comparison") usizeMax).results.take 1).length = 1 := by
    decide
  refine ⟨by decide, rustOfKind_uncut _ _, limited, all, fun truncates => ?_⟩
  rw [SearchEngine.Truncates] at truncates
  rw [truncates, all] at limited
  cases limited

end TORdex.Search
