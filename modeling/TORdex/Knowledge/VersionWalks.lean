import Mathlib.Data.List.Nodup
import TORdex.Knowledge.Core
import TORdex.Lib.Recursion

/-!
# Walks through the versions

The walk of `history` goes from an id to the previous id of the first recorded chain for it.  It has no guard
against ids that it has been at: it ends exactly where these links lead into no cycle.
-/

open Relation

namespace TORdex.KnowledgeBase

namespace VersionManager

variable {m : VersionManager} {id id' : String} {n : ℕ} {chain : VersionChain} {result : List VersionChain}

/-- The round of `history` for an id, with the walk from the previous one as a call. -/
def historyFrom (m : VersionManager) (walk : String → Option (List VersionChain)) (cid : String) :
    Option (List VersionChain) :=
  match m.find cid with
  | some chain =>
    match chain.previousId with
    | some previous => (walk previous).map (chain :: ·)
    | none => some [chain]
  | none => some []

/-- The id that the walk goes to next, if any. -/
def nextIds (m : VersionManager) (cid : String) : List String := ((m.find cid).bind (·.previousId)).toList

/-- The walk goes from one id to another one. -/
abbrev Leads (m : VersionManager) : String → String → Prop := Recursion.Makes m.nextIds

/-- The walk ends with these chains, from some amount of fuel on. -/
def HistoryEnds (m : VersionManager) (id : String) (result : List VersionChain) : Prop :=
  ∃ n, ∀ fuel ≥ n, m.historyLoop fuel (some id) = some result

theorem nextId_of_find (found : m.find id = some chain) : chain.nextId = some id := by
  simpa using List.find?_some found

theorem historyLoop_eq_run (m : VersionManager) (fuel : ℕ) (id : String) :
    m.historyLoop fuel (some id) = Recursion.run m.historyFrom fuel id := by
  induction fuel generalizing id with
  | zero => rfl
  | succ fuel ih =>
    rw [historyLoop, Recursion.run, historyFrom]
    cases found : m.find id with
    | none =>
      have absent : m.chains.find? (fun c => c.version == 1 && c.nextId == some id) = none := by
        rw [List.find?_eq_none]
        intro c mem both
        exact List.find?_eq_none.1 found c mem (Bool.and_elim_right both)
      simp only [absent, Option.toList_none]
    | some chain =>
      dsimp only
      cases chain.previousId with
      | none => rw [historyLoop, Option.map_some]
      | some previous => rw [ih]

theorem historyEnds_iff : m.HistoryEnds id result ↔ Recursion.Returns m.historyFrom id result := by
  simp only [HistoryEnds, Recursion.Returns, historyLoop_eq_run]

/-- A round ends at an unknown id, ends at a chain without a previous id, or goes on. -/
theorem historyFrom_eq_some {walk : String → Option (List VersionChain)}
    (h : m.historyFrom walk id = some result) :
    m.find id = none ∧ result = [] ∨ ∃ chain, m.find id = some chain ∧
      (chain.previousId = none ∧ result = [chain] ∨ ∃ previous rest, chain.previousId = some previous ∧
        walk previous = some rest ∧ result = chain :: rest) := by
  unfold historyFrom at h
  cases found : m.find id with
  | none =>
    rw [found] at h
    exact .inl ⟨rfl, (Option.some.inj h).symm⟩
  | some chain =>
    rw [found] at h
    refine .inr ⟨chain, rfl, ?_⟩
    dsimp only at h
    cases previous : chain.previousId with
    | none =>
      rw [previous] at h
      exact .inl ⟨rfl, (Option.some.inj h).symm⟩
    | some previousId =>
      rw [previous] at h
      obtain ⟨rest, walked, same⟩ := Option.map_eq_some_iff.1 h
      exact .inr ⟨previousId, rest, rfl, walked, same.symm⟩

theorem historyFrom_mono (m : VersionManager) : Recursion.Mono m.historyFrom := by
  intro walk walk' more id result h
  rcases historyFrom_eq_some h with ⟨found, rfl⟩ | ⟨chain, found,
    ⟨first, rfl⟩ | ⟨previous, rest, link, walked, rfl⟩⟩
  · rw [historyFrom, found]
  · simp only [historyFrom, found, first]
  · simp only [historyFrom, found, link, more _ _ walked, Option.map_some]

theorem needs (m : VersionManager) (id : String) : Recursion.Needs m.historyFrom m.nextIds id := by
  intro n
  rw [Recursion.run, historyFrom, nextIds]
  cases m.find id with
  | none => simp
  | some chain =>
    dsimp only [Option.bind_some]
    cases chain.previousId with
    | none => simp
    | some previous => simp

/-- Only ids that chains were recorded for lead on. -/
theorem finite_leads (m : VersionManager) (id : String) :
    {b | ReflTransGen m.Leads id b ∧ m.nextIds b ≠ []}.Finite := by
  refine (m.chains.filterMap (·.nextId)).finite_toSet.subset ?_
  rintro b ⟨-, leads⟩
  cases found : m.find b with
  | none => exact absurd (by rw [nextIds, found]; rfl) leads
  | some chain =>
    exact List.mem_filterMap.2 ⟨chain, List.mem_of_find?_eq_some found, nextId_of_find found⟩

theorem exists_historyEnds_iff :
    (∃ result, m.HistoryEnds id result) ↔ ∀ b, ReflTransGen m.Leads id b → ¬TransGen m.Leads b b := by
  simp only [historyEnds_iff]
  rw [Recursion.exists_returns_iff m.historyFrom_mono]
  constructor
  · rintro ⟨n, ran⟩ b reach
    exact Recursion.not_cycle_of_run (fun b _ => m.needs b) ran reach
  · exact Recursion.exists_run_of_no_cycle (fun b _ => m.needs b) m.historyFrom_mono (m.finite_leads id)

theorem leads_of_previousId (found : m.find id = some chain) (link : chain.previousId = some id') :
    m.Leads id id' := by
  show id' ∈ m.nextIds id
  rw [nextIds, found, Option.bind_some, link]
  exact List.mem_singleton_self _

/-- The chains of a walk are those of the ids that it is at. -/
theorem exists_reach_of_mem (ran : Recursion.run m.historyFrom n id = some result) (mem : chain ∈ result) :
    ∃ b, ReflTransGen m.Leads id b ∧ m.find b = some chain := by
  induction n generalizing id result with
  | zero => cases ran
  | succ n ih =>
    rcases historyFrom_eq_some ran with ⟨-, rfl⟩ | ⟨first, found,
      ⟨-, rfl⟩ | ⟨previous, rest, link, walked, rfl⟩⟩
    · cases mem
    · rw [List.mem_singleton.1 mem]
      exact ⟨id, .refl, found⟩
    · rcases List.mem_cons.1 mem with rfl | later
      · exact ⟨id, .refl, found⟩
      · obtain ⟨b, reach, at_b⟩ := ih walked later
        exact ⟨b, .head (leads_of_previousId found link) reach, at_b⟩

/-- A walk that ends lists no chain twice. -/
theorem nodup_of_run (ran : Recursion.run m.historyFrom n id = some result) : result.Nodup := by
  induction n generalizing id result with
  | zero => cases ran
  | succ n ih =>
    have acyclic := Recursion.not_cycle_of_run (fun b _ => m.needs b) (Option.isSome_of_eq_some ran) .refl
    rcases historyFrom_eq_some ran with ⟨-, rfl⟩ | ⟨first, found,
      ⟨-, rfl⟩ | ⟨previous, rest, link, walked, rfl⟩⟩
    · exact List.nodup_nil
    · exact List.nodup_singleton _
    · refine List.nodup_cons.2 ⟨fun again => ?_, ih walked⟩
      -- a chain is found for one id only: the walk is back at its start
      obtain ⟨b, reach, at_b⟩ := exists_reach_of_mem walked again
      have same : b = id := Option.some.inj ((nextId_of_find at_b).symm.trans (nextId_of_find found))
      exact acyclic (.head' (leads_of_previousId found link) (same ▸ reach))

/-- **The history of an id ends, without listing a chain twice, exactly when no id that it comes to leads back
to itself.** -/
theorem history_ends_iff (m : VersionManager) (id : String) :
    (∃ result, m.HistoryEnds id result ∧ result.Nodup) ↔
      ∀ b, ReflTransGen m.Leads id b → ¬TransGen m.Leads b b := by
  rw [← exists_historyEnds_iff]
  refine exists_congr fun result => and_iff_left_of_imp fun ends => ?_
  obtain ⟨n, ran⟩ := historyEnds_iff.1 ends
  exact nodup_of_run (ran n le_rfl)

/-- A chain that the construction functions give. -/
inductive Built : VersionChain → Prop where
  | initial (now : OffsetDateTime) : Built (initial now)
  | nextVersion {previous : VersionChain} (h : Built previous) (knowledgeId reason : String)
    (now : OffsetDateTime) :
      Built (nextVersion previous knowledgeId reason now)

/-- The second and the third version under one id. -/
def secondVersion : VersionChain := nextVersion (initial 0) "a" "edited" 1

/-- A version after two others. -/
def thirdVersion : VersionChain := nextVersion secondVersion "a" "edited" 2

/-- The third version is its own previous one: its history does not end. -/
theorem history_loops :
    (∀ c ∈ (new.record thirdVersion).chains, Built c) ∧
      ¬∃ result, (new.record thirdVersion).HistoryEnds "a" result := by
  constructor
  · intro c mem
    rw [List.mem_singleton.1 mem]
    exact .nextVersion (.nextVersion (.initial 0) ..) ..
  · rintro ⟨result, n, ends⟩
    have stuck : ∀ fuel, (new.record thirdVersion).historyLoop fuel (some "a") = none := by
      intro fuel
      induction fuel with
      | zero => rfl
      | succ fuel ih =>
        have found : (new.record thirdVersion).find "a" = some thirdVersion := by decide
        rw [historyLoop, found]
        show ((new.record thirdVersion).historyLoop fuel (some "a")).map _ = none
        rw [ih, Option.map_none]
    cases (stuck n).symm.trans (ends n le_rfl)

end VersionManager

end TORdex.KnowledgeBase
