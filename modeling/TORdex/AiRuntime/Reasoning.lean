import Mathlib.Data.List.Forall2
import TORdex.Core.Json
import TORdex.Lib.ForwardChaining

/-!
# Forward chaining

The reasoning engine, and what its rules mean: under one assignment of the variables all conditions match known
facts.  Confidences are exact values of any type.
-/

namespace TORdex.Reasoning

variable {C : Type}

/-- A fact in the knowledge base. -/
structure Fact (C : Type) where
  predicate : String
  subject : String
  object : Option String
  confidence : C
  deriving DecidableEq

/-- The values of variables. -/
abbrev Bindings := HashMap String String

/-- `strip_prefix('$')`. -/
def variableOf (pattern : String) : Option String :=
  match pattern.toList with
  | '$' :: var => some (String.ofList var)
  | _ => none

/-- `match_term`: whether the term matches, and the bindings after it. -/
def matchTerm (actual pattern : String) (bindings : Bindings) : Bool × Bindings :=
  if pattern = "*" then (true, bindings)
  else
    match variableOf pattern with
    | some var =>
      match bindings.lookup var with
      | some existing => (actual = existing, bindings)
      | none => (true, bindings.insert var actual)
    | none => (actual = pattern, bindings)

/-- `(predicate, subject, object)`.  The subject and the object of a condition can be `*` or a variable. -/
abbrev Pattern := String × String × Option String

/-- Whether a fact matches a pattern, and the bindings with those that it adds. -/
def Fact.matchesPattern (fact : Fact C) : Pattern → Bindings → Bool × Bindings
  | (predicate, subject, object), bindings =>
    if fact.predicate ≠ predicate then (false, bindings)
    else
      match matchTerm fact.subject subject bindings with
      | (false, bindings) => (false, bindings)
      | (true, bindings) =>
        match object with
        | some obj => matchTerm (fact.object.getD "") obj bindings
        | none => (fact.object.isNone, bindings)

/-- A logical rule: if all conditions match, the conclusion is inferred. -/
structure Rule (C : Type) where
  name : String
  conditions : List Pattern
  conclusion : Pattern
  confidence : C

/-- A step in the reasoning chain. -/
structure ReasoningStep (C : Type) where
  rule : String
  derivedFact : Fact C
  sourceFacts : List (Fact C)

/-- What the engine concluded, and how. -/
structure ReasoningResult (C : Type) where
  conclusions : List (Fact C)
  chain : List (ReasoningStep C)
  iterationCount : ℕ

/-- The rules, and the greatest number of rounds. -/
structure ReasoningEngine (C : Type) where
  rules : List (Rule C)
  maxIterations : ℕ

namespace ReasoningEngine

/-- An engine without rules. -/
def new : ReasoningEngine C := ⟨[], 10⟩

/-- An engine with rules. -/
def withRules (rules : List (Rule C)) : ReasoningEngine C := ⟨rules, 10⟩

/-- Add a rule behind the others. -/
def addRule (engine : ReasoningEngine C) (rule : Rule C) : ReasoningEngine C :=
  { engine with rules := engine.rules ++ [rule] }

end ReasoningEngine

/-- One condition of `find_all_bindings`: every result is extended by every fact that matches. -/
def extendResults (facts : List (Fact C)) (condition : Pattern) (results : List Bindings) : List Bindings :=
  results.flatMap fun bindings => facts.filterMap fun fact =>
    let (found, candidate) := fact.matchesPattern condition bindings
    if found then some candidate else none

/-- The bindings under which facts match all conditions. -/
def bindConditions (facts : List (Fact C)) : List Pattern → List Bindings → List Bindings
  | [], results => results
  | condition :: conditions, results =>
    let results := extendResults facts condition results
    if results.isEmpty then results else bindConditions facts conditions results

/-- Find all variable bindings that satisfy all conditions. -/
def findAllBindings (conditions : List Pattern) (facts : List (Fact C)) : List Bindings :=
  bindConditions facts conditions [∅]

/-- The value of a variable; other terms stay. -/
def substitute (val : String) (bindings : Bindings) : String :=
  match variableOf val with
  | some var => (bindings.lookup var).getD val
  | none => val

/-- The fact that a rule infers under bindings. -/
def Rule.inferred (rule : Rule C) (bindings : Bindings) : Fact C where
  predicate := substitute rule.conclusion.1 bindings
  subject := substitute rule.conclusion.2.1 bindings
  object := rule.conclusion.2.2.map fun obj => substitute obj bindings
  confidence := rule.confidence

/-- The known facts that match a condition by themselves. -/
def Rule.sourceFacts (rule : Rule C) (known : List (Fact C)) : List (Fact C) :=
  known.filter fun fact => rule.conditions.any fun condition => (fact.matchesPattern condition ∅).1

section Loop

variable [DecidableEq C]

/-- The body of the loops over rules and bindings, on the new facts and the chain. -/
def inferOne (known : List (Fact C)) (rule : Rule C) (found : List (Fact C) × List (ReasoningStep C))
    (bindings : Bindings) : List (Fact C) × List (ReasoningStep C) :=
  let inferred := rule.inferred bindings
  if inferred ∉ known ∧ inferred ∉ found.1 then
    (found.1 ++ [inferred], found.2 ++ [⟨rule.name, inferred, rule.sourceFacts known⟩])
  else found

/-- What all rules infer from the known facts: the new facts, and the chain with their steps. -/
def inferAll (rules : List (Rule C)) (known : List (Fact C)) (chain : List (ReasoningStep C)) :
    List (Fact C) × List (ReasoningStep C) :=
  rules.foldl (fun found rule => (findAllBindings rule.conditions known).foldl (inferOne known rule) found)
    ([], chain)

/-- The variables of the loop of `reason`. -/
structure Reasoned (C : Type) where
  known : List (Fact C)
  chain : List (ReasoningStep C)
  iteration : ℕ

/-- The loop of `reason` with so many rounds left.  It ends when a round finds nothing new. -/
def reasonLoop (rules : List (Rule C)) : ℕ → Reasoned C → Reasoned C
  | 0, s => s
  | left + 1, s =>
    let (newFacts, chain) := inferAll rules s.known s.chain
    if newFacts.isEmpty then { s with chain }
    else reasonLoop rules left ⟨s.known ++ newFacts, chain, s.iteration + 1⟩

namespace ReasoningEngine

/-- The loop after at most so many rounds. -/
def rounds (engine : ReasoningEngine C) (facts : List (Fact C)) (k : ℕ) : Reasoned C :=
  reasonLoop engine.rules k ⟨facts, [], 0⟩

/-- Run forward chaining from the given facts. -/
def reason (engine : ReasoningEngine C) (facts : List (Fact C)) : ReasoningResult C :=
  let s := engine.rounds facts engine.maxIterations
  ⟨s.known.filter (· ∉ facts), s.chain, s.iteration⟩

end ReasoningEngine

end Loop

/-! ## What rules mean -/

/-- A term of a condition under an assignment of the variables. -/
def TermMatches (σ : String → String) (pattern actual : String) : Prop :=
  pattern = "*" ∨ (∃ var, variableOf pattern = some var ∧ σ var = actual) ∨
    variableOf pattern = none ∧ pattern = actual

/-- A condition matches a fact.  A fact without an object has the empty one for a condition that asks for an
object. -/
def Matches (σ : String → String) (condition : Pattern) (fact : Fact C) : Prop :=
  fact.predicate = condition.1 ∧ TermMatches σ condition.2.1 fact.subject ∧
    match condition.2.2 with
    | some obj => TermMatches σ obj (fact.object.getD "")
    | none => fact.object = none

/-- The variables of the subject and the object of a pattern. -/
def patternVariables (pattern : Pattern) : List String :=
  (variableOf pattern.2.1).toList ++ (pattern.2.2.bind variableOf).toList

namespace Rule

variable (rule : Rule C)

/-- The variables that the conditions bind. -/
def boundVariables : List String := rule.conditions.flatMap patternVariables

/-- A term of the conclusion.  What the conditions do not bind stands for itself. -/
def termUnder (σ : String → String) (term : String) : String :=
  match variableOf term with
  | some var => if var ∈ rule.boundVariables then σ var else term
  | none => term

/-- The conclusion of a rule under an assignment. -/
def conclusionUnder (σ : String → String) : Fact C where
  predicate := rule.termUnder σ rule.conclusion.1
  subject := rule.termUnder σ rule.conclusion.2.1
  object := rule.conclusion.2.2.map (rule.termUnder σ)
  confidence := rule.confidence

/-- One application of the rule: an assignment under which its conditions match the premises, one each. -/
def Applies (premises : List (Fact C)) (f : Fact C) : Prop :=
  ∃ σ, List.Forall₂ (Matches σ) rule.conditions premises ∧ f = rule.conclusionUnder σ

end Rule

/-- Some rule infers the fact from the premises. -/
def Infers (rules : List (Rule C)) (premises : List (Fact C)) (f : Fact C) : Prop :=
  ∃ rule ∈ rules, rule.Applies premises f

end TORdex.Reasoning

/-!
## The search for bindings

An assignment of the variables agrees with one of the bindings found exactly if it makes every condition match a
known fact, and the bindings found have the variables of the conditions.
-/

namespace TORdex.Reasoning

variable {C : Type} {σ : String → String} {bindings : Bindings}

/-- The assignment agrees with the bindings. -/
def Fits (bindings : Bindings) (σ : String → String) : Prop := ∀ var x, bindings.lookup var = some x → σ var = x

theorem fits_insert {var x : String} (new : bindings.lookup var = none) :
    Fits (bindings.insert var x) σ ↔ Fits bindings σ ∧ σ var = x := by
  constructor
  · intro fits
    refine ⟨fun v y eq => fits v y ?_, fits var x (Finmap.lookup_insert _)⟩
    rw [Finmap.lookup_insert_of_ne, eq]
    rintro rfl
    rw [new] at eq
    cases eq
  · rintro ⟨fits, same⟩ v y eq
    by_cases h : v = var
    · rw [h, Finmap.lookup_insert, Option.some.injEq] at eq
      rw [h, same, eq]
    · rw [Finmap.lookup_insert_of_ne _ h] at eq
      exact fits v y eq

/-- Bindings are an assignment of their own. -/
theorem fits_getD : Fits bindings fun var => (bindings.lookup var).getD "" := by
  intro var x eq
  dsimp only
  rw [eq, Option.getD_some]

theorem variableOf_star : variableOf "*" = none := rfl

theorem matchTerm_iff {actual pattern : String} :
    (matchTerm actual pattern bindings).1 ∧ Fits (matchTerm actual pattern bindings).2 σ ↔
      Fits bindings σ ∧ TermMatches σ pattern actual := by
  unfold matchTerm TermMatches
  split_ifs with star
  · simp [star]
  · cases isVar : variableOf pattern with
    | none =>
      simp only [star, decide_eq_true_eq, reduceCtorEq, false_and, exists_false, false_or, true_and]
      rw [and_comm, eq_comm]
    | some var =>
      simp only [star, Option.some.injEq, exists_eq_left', reduceCtorEq, false_and, or_false, false_or]
      cases known : bindings.lookup var with
      | some existing =>
        simp only [decide_eq_true_eq]
        rw [and_comm]
        refine and_congr_right fun fits => ?_
        rw [fits var existing known, eq_comm]
      | none =>
        simp only [true_and]
        exact fits_insert known

theorem matchTerm_bound {actual pattern : String} (v : String) :
    ((matchTerm actual pattern bindings).2.lookup v).isSome ↔
      (bindings.lookup v).isSome ∨ variableOf pattern = some v := by
  unfold matchTerm
  split_ifs with star
  · simp [star, variableOf_star]
  · cases isVar : variableOf pattern with
    | none => simp
    | some var =>
      dsimp only
      cases known : bindings.lookup var with
      | some existing =>
        refine ⟨.inl, fun h => h.elim id fun same => ?_⟩
        rw [← Option.some.inj same, known]
        rfl
      | none =>
        by_cases h : v = var
        · subst h
          simp [Finmap.lookup_insert]
        · simp [Finmap.lookup_insert_of_ne _ h, Ne.symm h]

theorem matchesPattern_iff {fact : Fact C} {pattern : Pattern} :
    (fact.matchesPattern pattern bindings).1 ∧ Fits (fact.matchesPattern pattern bindings).2 σ ↔
      Fits bindings σ ∧ Matches σ pattern fact := by
  obtain ⟨predicate, subject, object⟩ := pattern
  unfold Fact.matchesPattern Matches
  dsimp only
  split_ifs with differs
  · simp [differs]
  · have same : fact.predicate = predicate := not_not.1 differs
    have spec := @matchTerm_iff σ bindings fact.subject subject
    rw [and_iff_right same, ← and_assoc, ← spec]
    split
    · next eq => simp [eq]
    · next b eq =>
      rw [eq]
      simp only [true_and]
      cases object with
      | some obj => exact matchTerm_iff
      | none =>
        dsimp only
        rw [Option.isNone_iff_eq_none, and_comm]

theorem matchesPattern_bound {fact : Fact C} {pattern : Pattern}
    (found : (fact.matchesPattern pattern bindings).1) (v : String) :
    ((fact.matchesPattern pattern bindings).2.lookup v).isSome ↔
      (bindings.lookup v).isSome ∨ v ∈ patternVariables pattern := by
  obtain ⟨predicate, subject, object⟩ := pattern
  unfold Fact.matchesPattern at found ⊢
  dsimp only at found ⊢
  split_ifs at found ⊢ with differs
  split at found
  · cases found
  · next b eq =>
    have first := @matchTerm_bound bindings fact.subject subject v
    rw [eq] at first
    simp only [patternVariables, List.mem_append, Option.mem_toList, ← or_assoc, ← first]
    cases object with
    | some obj => exact matchTerm_bound v
    | none => simp

section Search

variable {facts : List (Fact C)}

theorem mem_extendResults {condition : Pattern} {results : List Bindings} {b : Bindings} :
    b ∈ extendResults facts condition results ↔ ∃ bindings ∈ results, ∃ fact ∈ facts,
      (fact.matchesPattern condition bindings).1 ∧ (fact.matchesPattern condition bindings).2 = b := by
  simp only [extendResults, List.mem_flatMap, List.mem_filterMap]
  refine exists_congr fun bindings => and_congr_right fun _ => ?_
  refine exists_congr fun fact => and_congr_right fun _ => ?_
  split_ifs with found <;> simp [found]

theorem bindConditions_cons (condition : Pattern) (conditions : List Pattern) (results : List Bindings) :
    bindConditions facts (condition :: conditions) results =
      bindConditions facts conditions (extendResults facts condition results) := by
  have none (conditions : List Pattern) : bindConditions facts conditions [] = [] := by
    cases conditions <;> rfl
  rw [bindConditions]
  split_ifs with empty
  · rw [List.isEmpty_iff.1 empty, none]
  · rfl

theorem bindConditions_iff {conditions : List Pattern} {results : List Bindings} :
    (∃ b ∈ bindConditions facts conditions results, Fits b σ) ↔
      (∃ b ∈ results, Fits b σ) ∧ ∀ condition ∈ conditions, ∃ fact ∈ facts, Matches σ condition fact := by
  induction conditions generalizing results with
  | nil => simp [bindConditions]
  | cons condition conditions ih =>
    have one : (∃ b ∈ extendResults facts condition results, Fits b σ) ↔
        (∃ b ∈ results, Fits b σ) ∧ ∃ fact ∈ facts, Matches σ condition fact := by
      constructor
      · rintro ⟨_, mem, fits⟩
        obtain ⟨b, hb, fact, hfact, found, rfl⟩ := mem_extendResults.1 mem
        obtain ⟨fits, isMatch⟩ := matchesPattern_iff.1 ⟨found, fits⟩
        exact ⟨⟨b, hb, fits⟩, fact, hfact, isMatch⟩
      · rintro ⟨⟨b, hb, fits⟩, fact, hfact, isMatch⟩
        obtain ⟨found, fits⟩ := matchesPattern_iff.2 ⟨fits, isMatch⟩
        exact ⟨_, mem_extendResults.2 ⟨b, hb, fact, hfact, found, rfl⟩, fits⟩
    rw [bindConditions_cons, ih, one, List.forall_mem_cons, and_assoc]

/-- The assignments that the search finds. -/
theorem findAllBindings_iff {conditions : List Pattern} :
    (∃ b ∈ findAllBindings conditions facts, Fits b σ) ↔
      ∀ condition ∈ conditions, ∃ fact ∈ facts, Matches σ condition fact := by
  have empty : Fits ∅ σ := fun _ _ eq => by simp at eq
  rw [findAllBindings, bindConditions_iff]
  simp [empty]

theorem findAllBindings_bound {conditions : List Pattern} {b : Bindings}
    (mem : b ∈ findAllBindings conditions facts) (v : String) :
    (b.lookup v).isSome ↔ v ∈ conditions.flatMap patternVariables := by
  suffices ∀ results (bound : List String), (∀ b ∈ results, ((b : Bindings).lookup v).isSome ↔ v ∈ bound) →
      ∀ b ∈ bindConditions facts conditions results, (b.lookup v).isSome ↔
        v ∈ bound ++ conditions.flatMap patternVariables by
    simpa using this [∅] [] (by simp) b mem
  clear mem b
  induction conditions with
  | nil =>
    intro results bound first
    simpa [bindConditions] using first
  | cons condition conditions ih =>
    intro results bound first
    rw [List.flatMap_cons, ← List.append_assoc, bindConditions_cons]
    refine ih _ _ fun b mem => ?_
    obtain ⟨b, hb, fact, -, found, rfl⟩ := mem_extendResults.1 mem
    rw [matchesPattern_bound found, first b hb, List.mem_append]

end Search

end TORdex.Reasoning
