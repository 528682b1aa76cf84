import TORdex.Search.Limits

/-!
# Documents that are indexed again

The index is a list to which documents are only added.  A keyword, prefix, phrase or temporal query goes
through the list, and takes an old version of a document like the latest one.
-/

namespace TORdex.Search

open Ranking

/-! ## Index calls -/

/-- A call that indexes documents. -/
inductive IndexCall where
  | document (doc : Document)
  | documents (docs : List Document)

/-- The documents of a call. -/
def IndexCall.docs : IndexCall → List Document
  | .document doc => [doc]
  | .documents docs => docs

/-- What was indexed, in order. -/
def indexed (calls : List IndexCall) : List Document := calls.flatMap IndexCall.docs

/-- The document that was indexed last under an id. -/
def latest (docs : List Document) (id : String) : Option Document :=
  docs.reverse.find? fun doc => doc.id == id

namespace SearchEngine

variable {α : Type}

/-- The effect of a call. -/
def indexCall (engine : SearchEngine α) : IndexCall → SearchEngine α
  | .document doc => engine.indexDocument doc
  | .documents docs => engine.indexDocuments docs

/-- The engine after some calls. -/
def after (calls : List IndexCall) : SearchEngine α := calls.foldl indexCall new

theorem documents_after (calls : List IndexCall) :
    (after calls : SearchEngine α).index.documents = indexed calls := by
  induction calls using List.reverseRecOn with
  | nil => rfl
  | append_singleton calls call ih =>
    rw [after, List.foldl_concat, indexed, List.flatMap_append, List.flatMap_singleton]
    cases call with
    | document doc => exact congrArg (· ++ [doc]) ih
    | documents docs => exact (indexDocuments_documents _ _).trans (congrArg (· ++ docs) ih)

end SearchEngine

/-- The latest document of an id stands behind the others. -/
theorem latest_eq_some_iff {docs : List Document} {id : String} {doc : Document} :
    latest docs id = some doc ↔
      doc.id = id ∧ ∃ before later, docs = before ++ doc :: later ∧ ∀ d ∈ later, d.id ≠ id := by
  rw [latest, List.find?_eq_some_iff_append, beq_iff_eq]
  refine and_congr_right fun own => ?_
  constructor
  · rintro ⟨later, before, split, others⟩
    refine ⟨before.reverse, later.reverse, ?_, fun d mem => by simpa using others d (List.mem_reverse.1 mem)⟩
    rw [← List.reverse_inj, split]
    simp
  · rintro ⟨before, later, rfl, others⟩
    refine ⟨later.reverse, before.reverse, by simp, fun d mem => ?_⟩
    simpa using others d (List.mem_reverse.1 mem)

/-! ## Queries that go through the list -/

section Scans

variable {α : Type} [Field α] [LinearOrder α] (env : Env α)

/-- A keyword, prefix, phrase or temporal query. -/
def QueryExpr.IsScan : QueryExpr α → Prop
  | .keyword _ | .prefixed _ | .phrase _ | .temporal _ => True
  | _ => False

/-- The result of such a query for a document. -/
def QueryExpr.hit : QueryExpr α → Document → Option (ScoredResult α)
  | .keyword term, doc =>
    let bodyCount := countMatches (env.toLowercase doc.body) (env.toLowercase term)
    let titleCount := countMatches (env.toLowercase doc.title) (env.toLowercase term)
    if bodyCount > 0 || titleCount > 0 then
      some ⟨doc, ((titleCount * 3 + bodyCount : ℕ) : α), [if titleCount > 0 then "title" else "body"]⟩
    else none
  | .prefixed start, doc =>
    if mentions env (env.toLowercase start) doc then some ⟨doc, 1, ["prefix"]⟩ else none
  | .phrase words, doc =>
    if mentions env (env.toLowercase (" ".intercalate words)) doc then
      some ⟨doc, (words.length : α), ["phrase"]⟩
    else none
  | .temporal range, doc =>
    let keep := match doc.timestamp with
      | none => range.start.isNone && range.stop.isNone
      | some ts => range.start.all (· ≤ ts) && range.stop.all (ts ≤ ·)
    if keep then some ⟨doc, 1, ["temporal"]⟩ else none
  | _, _ => none

variable {env} {query : QueryExpr α} {index : SearchIndex α} {docs : List Document} {doc : Document}
  {r : ScoredResult α}

omit [LinearOrder α] in
theorem document_of_hit (found : query.hit env doc = some r) : r.document = doc := by
  have guarded : ∀ {p : Prop} [Decidable p] {r' : ScoredResult α}, r'.document = doc →
      (if p then some r' else none) = some r → r.document = doc := by
    intro p _ r' own given
    obtain ⟨-, same⟩ := Option.ite_none_right_eq_some.1 given
    rw [← Option.some.inj same, own]
  cases query with
  | keyword term => exact guarded rfl found
  | prefixed start => exact guarded rfl found
  | phrase words => exact guarded rfl found
  | temporal range => exact guarded rfl found
  | _ => cases found

omit [Field α] in
theorem selectDocuments_eq (label : String) (score : α) (keep : Document → Bool) (m : ℕ) :
    selectDocuments index label score keep m = (sortByScore
      (index.documents.filterMap fun doc =>
        if keep doc then some ⟨doc, score, [label]⟩ else none)).take m := by
  have filtered : (index.documents.filter keep).map (fun doc => (⟨doc, score, [label]⟩ : ScoredResult α)) =
      index.documents.filterMap fun doc => if keep doc then some ⟨doc, score, [label]⟩ else none := by
    induction index.documents with
    | nil => rfl
    | cons doc docs ih => by_cases kept : keep doc <;> simp [kept, ih]
  rw [selectDocuments, filtered, sortByScore, sortDesc_of_sorted]
  rw [← filtered]
  exact (ranked_select label score keep).sorted

theorem evaluate_scan (scan : query.IsScan) (m : ℕ) :
    evaluate env index query m = (sortByScore (index.documents.filterMap (query.hit env))).take m := by
  cases query with
  | keyword term => rw [evaluate, evalKeyword]; rfl
  | prefixed start => rw [evaluate, evalPrefix, selectDocuments_eq]; rfl
  | phrase words => rw [evaluate, evalPhrase, selectDocuments_eq]; rfl
  | temporal range => rw [evaluate, evalTemporal, selectDocuments_eq]; rfl
  | _ => cases scan

/-! ## The latest documents only -/

variable (env query docs) in
/-- The results under a limit are those of a query on the latest documents: one at most for each id, for its
latest document, and for each of these that the query hits unless the list is full. -/
structure FollowsLatest (results : List (ScoredResult α)) (m : ℕ) : Prop where
  once : (results.map ScoredResult.id).Nodup
  current : ∀ r ∈ results, latest docs r.id = some r.document
  found : ∀ id doc, latest docs id = some doc → (query.hit env doc).isSome →
    (∃ r ∈ results, r.document = doc) ∨ results.length = m

variable (env query docs) in
/-- No document that was indexed again is hit by the query. -/
def NoStaleHit : Prop := docs.Pairwise fun doc later => later.id = doc.id → query.hit env doc = none

omit [LinearOrder α] in
theorem NoStaleHit.latest (stale : NoStaleHit env query docs) (mem : doc ∈ docs)
    (found : query.hit env doc = some r) : latest docs doc.id = some doc := by
  obtain ⟨before, later, rfl⟩ := List.append_of_mem mem
  refine latest_eq_some_iff.2 ⟨rfl, before, later, rfl, fun d hd same => ?_⟩
  have after := List.rel_of_pairwise_cons (List.pairwise_append.1 stale).2.1 hd same
  rw [found] at after
  cases after

theorem followsLatest_of_noStaleHit (stale : NoStaleHit env query docs) (m : ℕ) :
    FollowsLatest env query docs ((sortByScore (docs.filterMap (query.hit env))).take m) m := by
  have once : ((docs.filterMap (query.hit env)).map ScoredResult.id).Nodup := by
    refine List.pairwise_map.2
      (List.pairwise_filterMap.2 (stale.imp fun {doc later} none r hr r' hr' same => ?_))
    rw [ScoredResult.id, ScoredResult.id, document_of_hit hr, document_of_hit hr'] at same
    rw [none same.symm] at hr
    cases hr
  have sorted : ((sortByScore (docs.filterMap (query.hit env))).map ScoredResult.id).Nodup :=
    ((List.mergeSort_perm _ _).map _).nodup_iff.2 once
  refine ⟨sorted.sublist ((List.take_sublist _ _).map _), fun r mem => ?_, fun id doc current hit => ?_⟩
  · obtain ⟨doc, inside, found⟩ := List.mem_filterMap.1 ((mem_sortDesc _).1 (List.mem_of_mem_take mem))
    rw [ScoredResult.id, document_of_hit found]
    exact stale.latest inside found
  · obtain ⟨r, found⟩ := Option.isSome_iff_exists.1 hit
    obtain ⟨-, before, later, rfl, -⟩ := latest_eq_some_iff.1 current
    have mem : r ∈ sortByScore ((before ++ doc :: later).filterMap (query.hit env)) :=
      (mem_sortDesc _).2 (List.mem_filterMap.2 ⟨doc, List.mem_append_right _ List.mem_cons_self, found⟩)
    rw [List.length_take]
    by_cases fits : m ≤ (sortByScore ((before ++ doc :: later).filterMap (query.hit env))).length
    · exact .inr (min_eq_left fits)
    · rw [List.take_of_length_le (by omega)]
      exact .inl ⟨r, mem, document_of_hit found⟩

/-- A stale hit shows in the results without a limit: they have its id twice, or an old document. -/
theorem noStaleHit_of_followsLatest
    (follows : FollowsLatest env query docs (sortByScore (docs.filterMap (query.hit env))) docs.length) :
    NoStaleHit env query docs := by
  have once : ((docs.filterMap (query.hit env)).map ScoredResult.id).Nodup :=
    ((List.mergeSort_perm _ _).map _).nodup_iff.1 follows.once
  have pairs := List.pairwise_filterMap.1 (List.pairwise_map.1 once)
  have current : ∀ doc ∈ docs, ∀ r, query.hit env doc = some r → latest docs doc.id = some doc := by
    intro doc mem r found
    have kept := follows.current r ((mem_sortDesc _).2 (List.mem_filterMap.2 ⟨doc, mem, found⟩))
    rwa [ScoredResult.id, document_of_hit found] at kept
  refine List.pairwise_iff_forall_sublist.2 fun {doc later} sub same => ?_
  by_contra hit
  obtain ⟨r, found⟩ := Option.ne_none_iff_exists'.1 hit
  obtain ⟨-, before, rest, rfl, others⟩ :=
    latest_eq_some_iff.1 (current doc (sub.subset List.mem_cons_self) r found)
  -- the later one is not behind the latest one, so that `doc` is there twice
  have again : doc ∈ before := by
    obtain ⟨l₁, l₂, split, left, right⟩ := List.sublist_append_iff.1 sub
    cases l₁ with
    | cons d l₁ =>
      obtain ⟨rfl, -⟩ := List.cons_eq_cons.1 split
      exact left.subset List.mem_cons_self
    | nil =>
      obtain rfl : [doc, later] = l₂ := split
      have behind : later ∈ rest := (List.cons_sublist_cons.1 right).subset List.mem_cons_self
      exact absurd same (others later behind)
  exact (List.pairwise_append.1 pairs).2.2 doc again doc List.mem_cons_self r found r found rfl

theorem results_scan (calls : List IndexCall) (scan : query.IsScan) (m : ℕ) :
    ((SearchEngine.after calls).search env query m).results =
      (sortByScore ((indexed calls).filterMap (query.hit env))).take m := by
  rw [SearchEngine.search, evaluate_scan scan, SearchEngine.documents_after]

theorem noStaleHit_of_search {calls : List IndexCall} (scan : query.IsScan)
    (follows : ∀ m, FollowsLatest env query (indexed calls)
      (((SearchEngine.after calls).search env query m).results) m) :
    NoStaleHit env query (indexed calls) := by
  have all := follows (indexed calls).length
  rw [results_scan calls scan, List.take_of_length_le] at all
  · exact noStaleHit_of_followsLatest all
  · rw [sortByScore, length_sortDesc]
    exact List.length_filterMap_le _ _

end Scans

/-- The results of a query follow the latest documents, whatever the limit, exactly when no document that was
indexed again is hit by it. -/
theorem search_follows_iff {α : Type} [Field α] [LinearOrder α] (env : Env α) (calls : List IndexCall)
    (query : QueryExpr α) (scan : query.IsScan) :
    (∀ m, FollowsLatest env query (indexed calls)
      (((SearchEngine.after calls).search env query m).results) m) ↔
      NoStaleHit env query (indexed calls) := by
  refine ⟨noStaleHit_of_search scan, fun stale m => ?_⟩
  rw [results_scan calls scan]
  exact followsLatest_of_noStaleHit stale m

/-- A note on `rust`, as the kernel indexes an object. -/
def rustNote : Document := ⟨"note", "rust", "", "note", "kernel", none, ∅⟩

/-- A draft of the note is indexed, then another note on `rust`, and then the note. -/
def draftedCalls : List IndexCall :=
  [.document ⟨"note", "draft", "", "note", "kernel", none, ∅⟩,
    .document ⟨"other", "rust and go", "", "note", "kernel", none, ∅⟩, .document rustNote]

theorem search_follows_once : NoStaleHit plain (.keyword "rust") (indexed draftedCalls) ∧
    ∀ m, FollowsLatest plain (.keyword "rust") (indexed draftedCalls)
      (((SearchEngine.after draftedCalls).search plain (.keyword "rust") m).results) m := by
  have stale : NoStaleHit plain (.keyword "rust") (indexed draftedCalls) := by
    unfold NoStaleHit
    decide
  exact ⟨stale, (search_follows_iff plain draftedCalls (.keyword "rust") trivial).2 stale⟩

/-- The note is indexed by two requests, and is listed twice. -/
theorem search_lists_twice :
    ¬∀ m, FollowsLatest plain (.keyword "rust") (indexed [.document rustNote, .document rustNote])
      (((SearchEngine.after [.document rustNote, .document rustNote]).search plain
        (.keyword "rust") m).results)
      m := by
  intro follows
  have stale : NoStaleHit plain (.keyword "rust") (indexed [.document rustNote, .document rustNote]) :=
    noStaleHit_of_search trivial follows
  have hit := List.rel_of_pairwise_cons stale List.mem_cons_self rfl
  have found : (QueryExpr.hit plain (.keyword "rust") rustNote).isSome := by decide
  rw [hit] at found
  cases found

end TORdex.Search
