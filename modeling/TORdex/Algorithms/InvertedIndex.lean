import Mathlib.Algebra.GroupWithZero.Nat
import Mathlib.Data.List.Dedup
import TORdex.Core.Json
import TORdex.Lib.FiniteMap
import TORdex.Lib.SortedMap

/-!
# The inverted index

A document is a call of `add_document`: adding an id again adds a second document, and the old postings stay.
`str::to_lowercase` and `char::is_alphanumeric` are parameters.
-/

namespace TORdex

/-- The documents of a term with its positions there, and how many documents were added. -/
structure InvertedIndex where
  index : HashMap String (List (String × List ℕ))
  docCount : ℕ

namespace InvertedIndex

/-- Without documents. -/
def new : InvertedIndex := ⟨∅, 0⟩

/-- `self.index.entry(term).or_default().push(posting)`. -/
def pushPosting (index : HashMap String (List (String × List ℕ))) (term : String)
    (posting : String × List ℕ) :
    HashMap String (List (String × List ℕ)) :=
  index.insert term ((index.lookup term).getD [] ++ [posting])

/-- The positions of every term. -/
def termPositions (terms : List String) : HashMap String (List ℕ) :=
  terms.zipIdx.foldl (fun positions entry =>
    positions.insert entry.1 ((positions.lookup entry.1).getD [] ++ [entry.2])) ∅

/-- The loop over the positions of the terms, which come in the order of a hash map. -/
def pushPostings (docId : String) (positions : HashMap String (List ℕ)) (keys : List String)
    (index : HashMap String (List (String × List ℕ))) : HashMap String (List (String × List ℕ)) :=
  keys.foldl (fun index term => pushPosting index term (docId, (positions.lookup term).getD [])) index

section Model

variable (toLowercase : String → String) (isAlphanumeric : Char → Bool)

/-- The words of a text in lower case. -/
def termsOf (text : String) : List String :=
  (((toLowercase text).toList.splitOnP fun c => !isAlphanumeric c).filter fun s =>
    !s.isEmpty).map String.ofList

/-- The terms go in by their first occurrences; any other order leaves the same (`pushPostings_perm`). -/
def addDocument (idx : InvertedIndex) (docId text : String) : InvertedIndex :=
  let terms := termsOf toLowercase isAlphanumeric text
  ⟨pushPostings docId (termPositions terms) terms.dedup idx.index, idx.docCount + 1⟩

/-- The number of places of a term in a document. -/
def termFrequency (idx : InvertedIndex) (term docId : String) : ℕ :=
  match idx.index.lookup (toLowercase term) with
  | some postings => ((postings.filter fun p => p.1 = docId).map fun p => p.2.length).sum
  | none => 0

/-- The number of postings of a term. -/
def documentFrequency (idx : InvertedIndex) (term : String) : ℕ :=
  match idx.index.lookup (toLowercase term) with
  | some postings => postings.length
  | none => 0

/-- An index after some calls of `add_document`. -/
def build (documents : List (String × String)) : InvertedIndex :=
  documents.foldl (fun idx d => idx.addDocument toLowercase isAlphanumeric d.1 d.2) new

end Model

/-! ## Postings -/

/-- The postings of a term. -/
def postings (index : HashMap String (List (String × List ℕ))) (term : String) : List (String × List ℕ) :=
  (index.lookup term).getD []

section Postings

variable {index : HashMap String (List (String × List ℕ))} {docId term : String}
    {positions : HashMap String (List ℕ)}
  {keys keys' terms : List String}

theorem lookup_pushPostings (once : keys.Nodup) : (pushPostings docId positions keys index).lookup term =
    if term ∈ keys then some (postings index term ++ [(docId, (positions.lookup term).getD [])])
    else index.lookup term := by
  induction keys generalizing index with
  | nil => simp [pushPostings]
  | cons key keys ih =>
    obtain ⟨new, once⟩ := List.nodup_cons.1 once
    show (pushPostings docId positions keys
      (pushPosting index key (docId, (positions.lookup key).getD []))).lookup
      term = _
    rw [ih once]
    by_cases same : term = key
    · subst same
      simp [new, pushPosting, postings]
    · simp [same, pushPosting, postings, Finmap.lookup_insert_of_ne _ same]

/-- The order of the hash map does not matter. -/
theorem pushPostings_perm (once : keys.Nodup) (perm : keys'.Perm keys) :
    pushPostings docId positions keys' index = pushPostings docId positions keys index := by
  apply Finmap.ext_lookup
  intro term
  rw [lookup_pushPostings once, lookup_pushPostings (perm.nodup_iff.2 once)]
  simp only [perm.mem_iff]

/-- A term has as many positions as it has occurrences. -/
theorem length_termPositions (terms : List String) (term : String) :
    (((termPositions terms).lookup term).getD []).length = terms.count term := by
  have loop : ∀ (l : List (String × ℕ)) (positions : HashMap String (List ℕ)),
      (((l.foldl (fun positions entry =>
        positions.insert entry.1
          ((positions.lookup entry.1).getD [] ++ [entry.2])) positions).lookup term).getD
          []).length = ((positions.lookup term).getD []).length + (l.map Prod.fst).count term := by
    intro l
    induction l with
    | nil => simp
    | cons entry l ih =>
      intro positions
      rw [List.foldl_cons, ih, List.map_cons, List.count_cons]
      by_cases same : term = entry.1
      · rw [same, Finmap.lookup_insert]
        simp
        omega
      · rw [Finmap.lookup_insert_of_ne _ same, if_neg (by simpa using Ne.symm same)]
        omega
  rw [termPositions, loop, List.zipIdx_map_fst]
  simp

end Postings

/-! ## Statistics -/

section Statistics

variable {toLowercase : String → String} {isAlphanumeric : Char → Bool}

theorem termFrequency_eq (idx : InvertedIndex) (term docId : String) :
    idx.termFrequency toLowercase term docId =
    (((postings idx.index (toLowercase term)).filter fun p => p.1 = docId).map fun p => p.2.length).sum := by
  unfold termFrequency postings
  cases idx.index.lookup (toLowercase term) <;> rfl

theorem documentFrequency_eq (idx : InvertedIndex) (term : String) :
    idx.documentFrequency toLowercase term = (postings idx.index (toLowercase term)).length := by
  unfold documentFrequency postings
  cases idx.index.lookup (toLowercase term) <;> rfl

/-- A document adds a posting to each of its terms. -/
theorem postings_addDocument (idx : InvertedIndex) (docId text term : String) :
    (postings (idx.addDocument toLowercase isAlphanumeric docId text).index term).map (fun p =>
      (p.1, p.2.length)) =
      (postings idx.index term).map (fun p => (p.1, p.2.length)) ++
        if term ∈ termsOf toLowercase isAlphanumeric text
        then [(docId, (termsOf toLowercase isAlphanumeric text).count term)] else [] := by
  rw [postings, addDocument, lookup_pushPostings (List.nodup_dedup (termsOf toLowercase isAlphanumeric text))]
  simp only [List.mem_dedup]
  split_ifs
  · rw [Option.getD_some, List.map_append, List.map_singleton, length_termPositions]
  · rw [List.append_nil, postings]

/-- The postings of a term are for the documents that contain it. -/
theorem postings_build (documents : List (String × String)) (term : String) :
    (postings (build toLowercase isAlphanumeric documents).index term).map (fun p => (p.1, p.2.length)) =
      (documents.filter fun d => term ∈ termsOf toLowercase isAlphanumeric d.2).map fun d =>
        (d.1, (termsOf toLowercase isAlphanumeric d.2).count term) := by
  have loop : ∀ idx : InvertedIndex,
      (postings (documents.foldl (fun idx d => idx.addDocument toLowercase isAlphanumeric d.1 d.2) idx).index
        term).map (fun p => (p.1, p.2.length)) =
      (postings idx.index term).map (fun p => (p.1, p.2.length)) ++
        (documents.filter fun d => term ∈ termsOf toLowercase isAlphanumeric d.2).map fun d =>
          (d.1, (termsOf toLowercase isAlphanumeric d.2).count term) := by
    induction documents with
    | nil => simp
    | cons d documents ih =>
      intro idx
      rw [List.foldl_cons, ih, postings_addDocument, List.append_assoc]
      by_cases inside : term ∈ termsOf toLowercase isAlphanumeric d.2
      · rw [if_pos inside, List.filter_cons_of_pos (by simpa using inside)]
        rfl
      · rw [if_neg inside, List.filter_cons_of_neg (by simpa using inside), List.nil_append]
  rw [build, loop]
  simp [postings, new]

/-- A term is counted in all texts that were added for an id. -/
theorem termFrequency_build (documents : List (String × String)) (term docId : String) :
    (build toLowercase isAlphanumeric documents).termFrequency toLowercase term docId =
      ((documents.filter fun d => d.1 = docId).map fun d =>
        (termsOf toLowercase isAlphanumeric d.2).count (toLowercase term)).sum := by
  have stored := @postings_build toLowercase isAlphanumeric documents (toLowercase term)
  have same := congrArg (fun l => ((l.filter fun p => p.1 = docId).map Prod.snd).sum) stored
  simp only [List.filter_map, List.map_map] at same
  have others : ∀ l : List (String × String),
      (((l.filter fun d => toLowercase term ∈ termsOf toLowercase isAlphanumeric d.2).filter
        fun d => d.1 = docId).map fun d =>
          (termsOf toLowercase isAlphanumeric d.2).count (toLowercase term)).sum =
      ((l.filter fun d => d.1 = docId).map fun d =>
        (termsOf toLowercase isAlphanumeric d.2).count (toLowercase term)).sum := by
    intro l
    induction l with
    | nil => rfl
    | cons d l ih =>
      by_cases inside : toLowercase term ∈ termsOf toLowercase isAlphanumeric d.2
      · rw [List.filter_cons_of_pos (by simpa using inside)]
        by_cases here : d.1 = docId
        · rw [List.filter_cons_of_pos (by simpa using here), List.filter_cons_of_pos (by simpa using here),
            List.map_cons, List.map_cons, List.sum_cons, List.sum_cons, ih]
        · rw [List.filter_cons_of_neg (by simpa using here),
            List.filter_cons_of_neg (by simpa using here), ih]
      · rw [List.filter_cons_of_neg (by simpa using inside), ih]
        by_cases here : d.1 = docId
        · rw [List.filter_cons_of_pos (by simpa using here), List.map_cons, List.sum_cons,
            List.count_eq_zero.2 inside, Nat.zero_add]
        · rw [List.filter_cons_of_neg (by simpa using here)]
  rw [termFrequency_eq]
  exact same.trans (others documents)

theorem docCount_build (documents : List (String × String)) :
    (build toLowercase isAlphanumeric documents).docCount = documents.length := by
  have loop : ∀ idx : InvertedIndex,
      (documents.foldl (fun idx d => idx.addDocument toLowercase isAlphanumeric d.1 d.2) idx).docCount =
        idx.docCount + documents.length := by
    induction documents with
    | nil => exact fun _ => rfl
    | cons d documents ih =>
      intro idx
      rw [List.foldl_cons, ih, List.length_cons, addDocument]
      dsimp only
      omega
  exact (loop new).trans (Nat.zero_add _)

end Statistics

/-! ## The result -/

/-- The text that was added last for an id. -/
def latest (documents : List (String × String)) (docId : String) : Option String :=
  documents.reverse.lookup docId

/-- The statistics count documents by their ids and with their latest texts. -/
structure CountsDocuments (toLowercase : String → String) (isAlphanumeric : Char → Bool)
    (documents : List (String × String)) : Prop where
  documentFrequency : ∀ term,
    (build toLowercase isAlphanumeric documents).documentFrequency toLowercase term =
      ((documents.map Prod.fst).dedup.filter fun docId => (latest documents docId).any fun text =>
        toLowercase term ∈ termsOf toLowercase isAlphanumeric text).length
  docCount : (build toLowercase isAlphanumeric documents).docCount = (documents.map Prod.fst).dedup.length
  termFrequency : ∀ term docId,
    (build toLowercase isAlphanumeric documents).termFrequency toLowercase term docId =
      (latest documents docId).elim 0 fun text =>
        (termsOf toLowercase isAlphanumeric text).count (toLowercase term)

/-- The statistics are right exactly when no id was added twice. -/
theorem countsDocuments_iff (toLowercase : String → String) (isAlphanumeric : Char → Bool)
    (documents : List (String × String)) :
    CountsDocuments toLowercase isAlphanumeric documents ↔ (documents.map Prod.fst).Nodup := by
  constructor
  · intro counts
    rw [← List.dedup_eq_self]
    refine (List.dedup_sublist _).eq_of_length ?_
    rw [← counts.docCount, docCount_build, List.length_map]
  · intro once
    have known : ∀ d ∈ documents, latest documents d.1 = some d.2 := fun d hd => by
      rw [latest, lookup_eq_some_iff_of_nodup (by rw [List.map_reverse]; exact List.nodup_reverse.2 once)]
      exact List.mem_reverse.2 hd
    refine ⟨fun term => ?_, ?_, fun term docId => ?_⟩
    · have lengths := congrArg List.length
        (@postings_build toLowercase isAlphanumeric documents (toLowercase term))
      rw [List.length_map, List.length_map] at lengths
      rw [documentFrequency_eq, lengths, List.dedup_eq_self.2 once, List.filter_map, List.length_map]
      refine congrArg List.length (List.filter_congr fun d hd => ?_)
      rw [Function.comp_apply, known d hd, Option.any_some]
    · rw [docCount_build, List.dedup_eq_self.2 once, List.length_map]
    · have text : latest documents docId = documents.lookup docId := by
        apply Option.ext
        intro text
        rw [latest, lookup_eq_some_iff_of_nodup once,
          lookup_eq_some_iff_of_nodup (by rw [List.map_reverse]; exact List.nodup_reverse.2 once),
            List.mem_reverse]
      rw [termFrequency_build, filter_key_of_nodup once, text]
      cases documents.lookup docId <;> simp

/-- Two texts for one id. -/
theorem not_countsDocuments : ¬ ∀ documents : List (String × String),
    CountsDocuments (fun text => text.map Char.toLower) Char.isAlphanum documents := by
  intro h
  have counted := (h [("d1", "apple"), ("d1", "cherry")]).docCount
  rw [docCount_build] at counted
  exact absurd counted (by decide)

end InvertedIndex

end TORdex
