import TORdex.Knowledge.Duplicates
import TORdex.Lib.Runs

/-!
# Version histories

Objects are ingested under different ids, and each revision is of the newest record of its object.  The chain
of a first version has no `next_id`, so no walk finds it: the history of a record goes from its version down to
the second one.
-/

namespace TORdex.KnowledgeBase

/-- The core, and the records produced so far with their objects. -/
structure Archive where
  core : KnowledgeCore
  log : List (Ulid × KnowledgeRecord)

/-- The calls that make versions. -/
inductive Action where
  | ingest (knowledge : Knowledge) (now : ℕ → OffsetDateTime)
  | revise (object : Ulid) (newContent : Json) (reason : String) (now : ℕ → OffsetDateTime)

namespace Archive

/-- Before the first call. -/
def start : Archive := ⟨.new, []⟩

/-- The records of an object, in the order of their versions. -/
def recordsOf (s : Archive) (object : Ulid) : List KnowledgeRecord :=
  (s.log.filter fun e => e.1 = object).map Prod.snd

/-- The chains recorded for an object: each call that produces a record records a chain. -/
def chainsOf (s : Archive) (object : Ulid) : List VersionChain :=
  ((s.log.zip s.core.versions.chains).filter fun e => e.1.1 = object).map Prod.snd

/-- The effect of a call. -/
def step (env : Env) (s : Archive) : Action → Archive
  | .ingest knowledge now =>
    let (record, core) := s.core.ingest env knowledge now
    ⟨core, s.log ++ [(knowledge.id, record)]⟩
  | .revise object newContent reason now =>
    match (s.recordsOf object).getLast? with
    | some previous =>
      let (record, core) := s.core.revise env previous newContent reason now
      ⟨core, s.log ++ [(object, record)]⟩
    | none => s

/-- An object that is ingested is a new one. -/
def Distinct (s : Archive) : Action → Prop
  | .ingest knowledge _ => ∀ e ∈ s.log, e.1 ≠ knowledge.id
  | .revise .. => True

/-- The history of a record of version `n` is the first `n` chains of its object, the newest first. -/
def Complete (s : Archive) : Prop :=
  ∀ e ∈ s.log, s.core.versions.history e.2.id = some ((s.chainsOf e.1).take e.2.version.version).reverse

/-! ## The ids of the records of an object -/

/-- The id of the record of version `i + 1`. -/
def recordId (object : Ulid) : ℕ → String
  | 0 => object.toString
  | i + 1 => recordId object i ++ "-v" ++ toString (i + 2)

theorem take_recordId (object : Ulid) (i : ℕ) : (recordId object i).toList.take 26 = object.toString.toList := by
  have length : object.toString.toList.length = 26 := by simp [Ulid.toString]
  induction i with
  | zero => exact List.take_of_length_le length.le
  | succ i ih =>
    have long : 26 ≤ (recordId object i).toList.length := by
      have := congrArg List.length ih
      rw [List.length_take, length] at this
      omega
    rw [recordId, String.toList_append, String.toList_append, List.append_assoc,
      List.take_append_of_le_length long, ih]

theorem length_recordId_strictMono (object : Ulid) : StrictMono fun i => (recordId object i).toList.length := by
  refine strictMono_nat_of_lt_succ fun i => ?_
  simp only [recordId, String.toList_append, List.length_append]
  have : "-v".toList.length = 2 := rfl
  omega

theorem recordId_inj {object object' : Ulid} {i i' : ℕ} (h : recordId object i = recordId object' i') :
    object = object' ∧ i = i' := by
  have same : object = object' := by
    apply Ulid.toString_injective
    apply String.toList_injective
    rw [← take_recordId object i, h, take_recordId]
  subst same
  exact ⟨rfl, (length_recordId_strictMono object).injective (congrArg (fun s => s.toList.length) h)⟩

/-! ## What the calls keep -/

/-- The chain of version `i + 1` of an object. -/
structure IsVersion (object : Ulid) (i : ℕ) (c : VersionChain) : Prop where
  version : c.version = i + 1
  nextId : c.nextId = if i = 0 then none else some (recordId object i)
  previousId : c.previousId = if i ≤ 1 then none else some (recordId object (i - 1))

/-- What every call keeps: the chains and the records of an object are its versions. -/
structure Linked (s : Archive) : Prop where
  length : s.log.length = s.core.versions.chains.length
  chains : ∀ object i c, (s.chainsOf object)[i]? = some c → IsVersion object i c
  records : ∀ object i r, (s.recordsOf object)[i]? = some r →
    r.id = recordId object i ∧ IsVersion object i r.version

theorem linked_start : Linked start where
  length := rfl
  chains _ _ _ h := by simp [start, chainsOf] at h
  records _ _ _ h := by simp [start, recordsOf] at h

/-- What is at a place of a list that may have one more element. -/
theorem getElem?_append_singleton {α : Type} {l : List α} {P : Prop} [Decidable P] {x y : α} {i : ℕ}
    (h : (l ++ if P then [x] else [])[i]? = some y) : l[i]? = some y ∨ P ∧ i = l.length ∧ y = x := by
  by_cases hP : P
  · rw [if_pos hP, List.getElem?_append] at h
    split_ifs at h with inside
    · exact .inl h
    · rw [List.getElem?_singleton] at h
      split_ifs at h with first
      exact .inr ⟨hP, by omega, (Option.some.inj h).symm⟩
  · rw [if_neg hP, List.append_nil] at h
    exact .inl h

section Step

variable {s : Archive} (h : Linked s)
include h

theorem Linked.length_chainsOf (object : Ulid) : (s.chainsOf object).length = (s.recordsOf object).length := by
  have log : (s.log.zip s.core.versions.chains).map Prod.fst = s.log := List.map_fst_zip h.length.le
  rw [recordsOf, chainsOf, ← log, List.filter_map, List.length_map, List.length_map, List.length_map, log]
  rfl

/-- A record and a chain are added for an object. -/
theorem Linked.add {object : Ulid} {record : KnowledgeRecord} {core : KnowledgeCore} {chain : VersionChain}
    (chains : core.versions.chains = s.core.versions.chains ++ [chain])
    (id : record.id = recordId object (s.recordsOf object).length)
    (version : IsVersion object (s.recordsOf object).length record.version)
    (isVersion : IsVersion object (s.recordsOf object).length chain) :
    Linked ⟨core, s.log ++ [(object, record)]⟩ := by
  have newChains : ∀ other, chainsOf ⟨core, s.log ++ [(object, record)]⟩ other =
      s.chainsOf other ++ if object = other then [chain] else [] := by
    intro other
    rw [chainsOf, chains, List.zip_append h.length, List.filter_append, List.map_append]
    by_cases same : object = other <;> simp [chainsOf, same]
  have newRecords : ∀ other, recordsOf ⟨core, s.log ++ [(object, record)]⟩ other =
      s.recordsOf other ++ if object = other then [record] else [] := by
    intro other
    rw [recordsOf, List.filter_append, List.map_append]
    by_cases same : object = other <;> simp [recordsOf, same]
  refine ⟨by simp [chains, h.length], fun other i c at_i => ?_, fun other i r at_i => ?_⟩
  · rw [newChains] at at_i
    rcases getElem?_append_singleton at_i with old | ⟨same, place, rfl⟩
    · exact h.chains other i c old
    · rw [place, ← same, h.length_chainsOf]
      exact isVersion
  · rw [newRecords] at at_i
    rcases getElem?_append_singleton at_i with old | ⟨same, place, rfl⟩
    · exact h.records other i r old
    · rw [place, ← same]
      exact ⟨id, version⟩

theorem Linked.step {env : Env} {a : Action} (distinct : s.Distinct a) : Linked (s.step env a) := by
  cases a with
  | ingest knowledge now =>
    have none : s.recordsOf knowledge.id = [] := by
      rw [recordsOf, List.map_eq_nil_iff, List.filter_eq_nil_iff]
      intro e he
      simpa using distinct e he
    refine h.add (show _ = _ ++ [VersionManager.initial (now 3)] from rfl) ?_ ?_ ?_
    · rw [none]
      rfl
    · rw [none]
      exact ⟨rfl, rfl, rfl⟩
    · rw [none]
      exact ⟨rfl, rfl, rfl⟩
  | revise object newContent reason now =>
    simp only [Archive.step]
    cases newest : (s.recordsOf object).getLast? with
    | none => exact h
    | some previous =>
      rw [List.getLast?_eq_getElem?] at newest
      have ingested : 0 < (s.recordsOf object).length := by
        have := (List.getElem?_eq_some_iff.1 newest).1
        omega
      obtain ⟨id, isVersion⟩ := h.records object _ previous newest
      obtain ⟨m, length⟩ : ∃ m, (s.recordsOf object).length = m + 1 :=
        ⟨_, (Nat.succ_pred_eq_of_pos ingested).symm⟩
      rw [length, Nat.add_sub_cancel] at id isVersion
      have newId : (s.core.revise env previous newContent reason now).1.id = recordId object (m + 1) := by
        show previous.id ++ "-v" ++ toString (previous.version.version + 1) = _
        rw [id, isVersion.version, recordId]
      have newVersion :
          IsVersion object (m + 1) (s.core.revise env previous newContent reason now).1.version := by
        refine ⟨?_, ?_, ?_⟩
        · show previous.version.version + 1 = _
          rw [isVersion.version]
        · exact congrArg some newId
        · show previous.version.nextId = _
          rw [isVersion.nextId, Nat.add_sub_cancel]
          congr 1
          simp
      exact h.add rfl (length ▸ newId) (length ▸ newVersion) (length ▸ newVersion)

/-! ## Walks -/

theorem Linked.of_mem {c : VersionChain} (hc : c ∈ s.core.versions.chains) :
    ∃ object i, (s.chainsOf object)[i]? = some c ∧ IsVersion object i c := by
  rw [← @List.map_snd_zip _ _ s.log _ h.length.ge] at hc
  obtain ⟨e, he, rfl⟩ := List.mem_map.1 hc
  have mem : e.2 ∈ s.chainsOf e.1.1 := List.mem_map.2 ⟨e, List.mem_filter.2 ⟨he, by simp⟩, rfl⟩
  obtain ⟨i, at_i⟩ := List.getElem?_of_mem mem
  exact ⟨e.1.1, i, at_i, h.chains _ i _ at_i⟩

/-- A chain is found under the id of its record when it is not the first of its object. -/
theorem Linked.find_eq (object : Ulid) (i : ℕ) :
    s.core.versions.find (recordId object i) = if i = 0 then none else (s.chainsOf object)[i]? := by
  have owns : ∀ c ∈ s.core.versions.chains, c.nextId = some (recordId object i) →
      i ≠ 0 ∧ (s.chainsOf object)[i]? = some c := by
    intro c hc next
    obtain ⟨object', i', at_i, isVersion⟩ := h.of_mem hc
    rw [isVersion.nextId] at next
    split_ifs at next with first
    obtain ⟨rfl, rfl⟩ := recordId_inj (Option.some.inj next)
    exact ⟨first, at_i⟩
  cases found : s.core.versions.find (recordId object i) with
  | some c =>
    obtain ⟨notFirst, at_i⟩ := owns c (List.mem_of_find?_eq_some found)
      (by simpa using List.find?_some found)
    rw [if_neg notFirst, at_i]
  | none =>
    split_ifs with first
    · rfl
    · symm
      rw [List.getElem?_eq_none_iff]
      by_contra inside
      have at_i := List.getElem?_eq_getElem (not_le.1 inside)
      have mem : (s.chainsOf object)[i] ∈ s.core.versions.chains := by
        obtain ⟨e, he, same⟩ := List.mem_map.1 (List.getElem_mem (not_le.1 inside))
        rw [← same]
        exact (List.of_mem_zip (List.mem_of_mem_filter he)).2
      have next := (h.chains object i _ at_i).nextId
      rw [if_neg first] at next
      have := List.find?_eq_none.1 found _ mem
      simp [next] at this

theorem Linked.historyLoop_eq (object : Ulid) (i : ℕ) (inside : i < (s.chainsOf object).length) (fuel : ℕ)
    (enough : i < fuel) : s.core.versions.historyLoop fuel (some (recordId object i)) =
      some (((s.chainsOf object).take (i + 1)).drop 1).reverse := by
  induction i generalizing fuel with
  | zero =>
    obtain ⟨fuel, rfl⟩ : ∃ m, fuel = m + 1 := ⟨_, (Nat.succ_pred_eq_of_pos enough).symm⟩
    have never := h.find_eq object 0
    rw [if_pos rfl] at never
    have noFirst : s.core.versions.chains.find?
        (fun c => c.version == 1 && c.nextId == some (recordId object 0)) = none := by
      rw [List.find?_eq_none]
      intro c hc
      have := List.find?_eq_none.1 never c hc
      simp_all
    rw [VersionManager.historyLoop, never]
    simp only [noFirst]
    have one : ((s.chainsOf object).take 1).length ≤ 1 := List.length_take_le ..
    rw [List.drop_eq_nil_of_le one]
    rfl
  | succ i ih =>
    obtain ⟨fuel, rfl⟩ : ∃ m, fuel = m + 1 := ⟨_, (Nat.succ_pred_eq_of_pos (Nat.zero_lt_of_lt enough)).symm⟩
    have here := h.find_eq object (i + 1)
    have at_i := List.getElem?_eq_getElem inside
    rw [if_neg (Nat.succ_ne_zero i), at_i] at here
    have isVersion := h.chains object (i + 1) _ at_i
    have earlier : s.core.versions.historyLoop fuel (s.chainsOf object)[i + 1].previousId =
        some (((s.chainsOf object).take (i + 1)).drop 1).reverse := by
      rw [isVersion.previousId]
      split_ifs with second
      · obtain rfl : i = 0 := by omega
        have one : ((s.chainsOf object).take 1).length ≤ 1 := List.length_take_le ..
        rw [VersionManager.historyLoop, List.drop_eq_nil_of_le one]
        rfl
      · exact ih (by omega) fuel (by omega)
    rw [VersionManager.historyLoop, here]
    simp only [earlier, Option.map_some]
    have place : 1 ≤ ((s.chainsOf object).take (i + 1)).length := by
      rw [List.length_take]
      omega
    rw [List.take_succ_eq_append_getElem inside, List.drop_append_of_le_length place, List.reverse_append]
    rfl

/-- The history of a record: all chains of its object up to its version, but for the first one. -/
theorem Linked.history_eq {e : Ulid × KnowledgeRecord} (he : e ∈ s.log) :
    e.2.version.version ≤ (s.chainsOf e.1).length ∧ 1 ≤ e.2.version.version ∧
      s.core.versions.history e.2.id = some (((s.chainsOf e.1).take e.2.version.version).drop 1).reverse := by
  have mem : e.2 ∈ s.recordsOf e.1 := List.mem_map.2 ⟨e, List.mem_filter.2 ⟨he, by simp⟩, rfl⟩
  obtain ⟨i, at_i⟩ := List.getElem?_of_mem mem
  obtain ⟨id, isVersion⟩ := h.records _ i _ at_i
  have inside : i < (s.chainsOf e.1).length := by
    rw [h.length_chainsOf]
    exact (List.getElem?_eq_some_iff.1 at_i).1
  have fewer : (s.chainsOf e.1).length ≤ s.core.versions.chains.length := by
    rw [h.length_chainsOf, ← h.length, recordsOf, List.length_map]
    exact List.length_filter_le ..
  rw [isVersion.version, id]
  exact ⟨inside, Nat.le_add_left .., h.historyLoop_eq e.1 i inside _ (by omega)⟩

end Step

/-- No history reaches the first version: the histories are complete only while nothing is ingested. -/
theorem complete_iff {env : Env} {s : Archive} (run : Reached (step env) Distinct start s) :
    s.Complete ↔ s.log = [] := by
  have linked : Linked s := run.invariant linked_start fun _ _ kept distinct => kept.step distinct
  constructor
  · intro complete
    apply List.eq_nil_iff_forall_not_mem.2
    intro e he
    obtain ⟨inside, positive, history⟩ := linked.history_eq he
    have lengths := congrArg List.length (Option.some.inj (history.symm.trans (complete e he)))
    simp only [List.length_reverse, List.length_drop, List.length_take] at lengths
    omega
  · intro none e he
    rw [none] at he
    cases he

/-- One object is ingested and revised. -/
def revisedOnce : List Action :=
  [.ingest rustKnowledge fun _ => 0, .revise rustKnowledge.id (.str "rust") "spelling" fun _ => 1]

theorem complete_iff_revisedOnce : (revisedOnce.foldl (step sampleEnv) start).Complete ↔
    (revisedOnce.foldl (step sampleEnv) start).log = [] :=
  complete_iff <| Along.reached ⟨fun _ he => absurd he List.not_mem_nil, trivial, trivial⟩

/-- The history of the only version of an object is empty. -/
theorem not_complete : ∃ s : Archive, Reached (step sampleEnv) Distinct start s ∧ ¬s.Complete := by
  refine ⟨[Action.ingest rustKnowledge fun _ => 0].foldl (step sampleEnv) start,
    Along.reached ⟨fun _ he => absurd he List.not_mem_nil, trivial⟩, fun complete => ?_⟩
  have history := complete _ List.mem_cons_self
  have walk : some [] = some [VersionManager.initial 0] := history
  cases walk

end Archive

end TORdex.KnowledgeBase
