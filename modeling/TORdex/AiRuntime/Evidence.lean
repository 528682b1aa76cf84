import Mathlib.Algebra.Order.Ring.Rat
import Mathlib.Tactic.Linarith
import TORdex.AiRuntime.Closure

/-!
# What derived facts rest on

The order in which the rounds find facts, and when the confidence of a derived fact is no more than its sources
have.  Confidences are exact.
-/

namespace TORdex.Reasoning

open ForwardChaining

section Order

variable {C : Type} {known : List (Fact C)}

/-- Where a trial stands: all earlier rules were tried before it, and no later ones. -/
theorem tried_split {rules : List (Rule C)} {done rest : List (Rule C × Bindings)} {c : Rule C × Bindings}
    (eq : tried rules known = done ++ c :: rest) :
    ∃ earlier later, rules = earlier ++ c.1 :: later ∧
      (∀ d ∈ tried earlier known, d ∈ done) ∧ ∀ d ∈ done, d ∈ tried (earlier ++ [c.1]) known := by
  induction rules generalizing done with
  | nil => simp [tried] at eq
  | cons rule rules ih =>
    have cons (rs : List (Rule C)) : tried (rule :: rs) known =
        (findAllBindings rule.conditions known).map (rule, ·) ++ tried rs known := List.flatMap_cons
    -- the trial is one of this rule, or it is among those of the others
    have split : (∃ more, done = (findAllBindings rule.conditions known).map (rule, ·) ++ more ∧
        tried rules known = more ++ c :: rest) ∨
        ∃ more, (findAllBindings rule.conditions known).map (rule, ·) = done ++ c :: more := by
      rw [cons] at eq
      rcases List.append_eq_append_iff.1 eq with ⟨more, hdone, hrest⟩ | ⟨more, here, hrest⟩
      · exact .inl ⟨more, hdone, hrest⟩
      · cases more with
        | nil =>
          rw [List.nil_append] at hrest
          exact .inl ⟨[], by simpa using here.symm, by simpa using hrest.symm⟩
        | cons d more =>
          obtain ⟨rfl, -⟩ := List.cons.inj hrest
          exact .inr ⟨more, here⟩
    rcases split with ⟨more, rfl, hrest⟩ | ⟨more, here⟩
    · obtain ⟨earlier, later, rfl, all, only⟩ := ih hrest
      refine ⟨rule :: earlier, later, rfl, fun d mem => ?_, fun d mem => ?_⟩
      · rw [cons] at mem
        exact List.mem_append.2 ((List.mem_append.1 mem).imp_right (all d))
      · rw [List.cons_append, cons]
        exact List.mem_append.2 ((List.mem_append.1 mem).imp_right (only d))
    · have mem (d : Rule C × Bindings) (h : d ∈ done ++ c :: more) :
          d.1 = rule ∧ d.2 ∈ findAllBindings rule.conditions known := by
        rw [← here] at h
        obtain ⟨b, mem_b, rfl⟩ := List.mem_map.1 h
        exact ⟨rfl, mem_b⟩
      obtain ⟨same, -⟩ := mem c (List.mem_append_right _ List.mem_cons_self)
      refine ⟨[], rules, by rw [same]; rfl, by simp [tried], fun d hd => mem_tried.2 ?_⟩
      obtain ⟨same', mem_d⟩ := mem d (List.mem_append_left _ hd)
      rw [same, same']
      exact ⟨by simp, mem_d⟩

variable [DecidableEq C]

/-- What a step records of the trial that made it, after the trials `done` and the steps `earlier`. -/
structure Recorded (known : List (Fact C)) (done : List (Rule C × Bindings)) (c : Rule C × Bindings)
    (earlier : List (ReasoningStep C)) (step : ReasoningStep C) : Prop where
  eq : step = ⟨c.1.name, c.1.inferred c.2, c.1.sourceFacts known⟩
  unknown : c.1.inferred c.2 ∉ known
  first : ∀ d ∈ done, d.1.inferred d.2 ≠ c.1.inferred c.2
  derived : ∀ f, f ∈ derived earlier ↔ f ∉ known ∧ ∃ d ∈ done, d.1.inferred d.2 = f

/-- Each fact of a round is recorded by the first trial that infers it. -/
theorem foldl_inferOne_recorded (chain : List (ReasoningStep C)) (found : List (Rule C × Bindings)) :
    ∃ steps, found.foldl (fun acc c => inferOne known c.1 acc c.2) ([], chain) =
        (derived steps, chain ++ steps) ∧
      (∀ f, f ∈ derived steps ↔ f ∉ known ∧ ∃ d ∈ found, d.1.inferred d.2 = f) ∧
      ∀ earlier step later, steps = earlier ++ step :: later →
        ∃ done c rest, found = done ++ c :: rest ∧ Recorded known done c earlier step := by
  induction found using List.reverseRecOn with
  | nil => exact ⟨[], by simp [derived], by simp [derived], by simp⟩
  | append_singleton found c ih =>
    obtain ⟨steps, eq, mem_iff, recorded⟩ := ih
    have extend {earlier : List (ReasoningStep C)} {step : ReasoningStep C}
        (h : ∃ done c rest, found = done ++ c :: rest ∧ Recorded known done c earlier step) :
        ∃ done d rest, found ++ [c] = done ++ d :: rest ∧ Recorded known done d earlier step := by
      obtain ⟨done, d, rest, rfl, h⟩ := h
      exact ⟨done, d, rest ++ [c], by simp, h⟩
    rw [List.foldl_append, eq, List.foldl_cons, List.foldl_nil, inferOne]
    dsimp only
    split_ifs with isNew
    · have first (d : Rule C × Bindings) (mem : d ∈ found) : d.1.inferred d.2 ≠ c.1.inferred c.2 :=
        fun same => isNew.2 ((mem_iff _).2 ⟨isNew.1, d, mem, same⟩)
      refine ⟨steps ++ [⟨c.1.name, c.1.inferred c.2, c.1.sourceFacts known⟩], by simp [derived], fun f => ?_, ?_⟩
      · simp only [derived, List.map_append, List.mem_append, List.map_cons, List.map_nil, List.mem_singleton,
          or_and_right, exists_or, exists_eq_left, and_or_left]
        refine or_congr (mem_iff f) ⟨?_, fun h => h.2.symm⟩
        rintro rfl
        exact ⟨isNew.1, rfl⟩
      · intro earlier step later split
        rcases List.eq_nil_or_concat later with rfl | ⟨later, last, rfl⟩
        · obtain ⟨rfl, same⟩ := List.append_inj' split rfl
          exact ⟨found, c, [], rfl, (List.cons.inj same).1.symm, isNew.1, first, mem_iff⟩
        · have split : steps ++ [⟨c.1.name, c.1.inferred c.2, c.1.sourceFacts known⟩] =
              (earlier ++ step :: later) ++ [last] := by simpa using split
          exact extend (recorded earlier step later (List.append_inj' split rfl).1)
    · refine ⟨steps, rfl, fun f => ?_, fun earlier step later split => extend (recorded _ _ _ split)⟩
      rw [mem_iff]
      refine and_congr_right fun unknown => ⟨?_, ?_⟩
      · rintro ⟨d, mem, same⟩
        exact ⟨d, List.mem_append_left _ mem, same⟩
      · rintro ⟨d, mem, rfl⟩
        rcases List.mem_append.1 mem with mem | mem
        · exact ⟨d, mem, rfl⟩
        · rw [List.mem_singleton.1 mem] at unknown ⊢
          have old : c.1.inferred c.2 ∈ derived steps := by
            by_contra out
            exact isNew ⟨unknown, out⟩
          exact ((mem_iff _).1 old).2

/-! ## The whole chain -/

/-- One of the rules gives the fact from what can be derived in `k` rounds. -/
def Gives (rules : List (Rule C)) (facts : List (Fact C)) (k : ℕ) (few : List (Rule C)) (f : Fact C) : Prop :=
  ∃ premises, Infers few premises f ∧ ∀ p ∈ premises, Derivable (Infers rules) {f | f ∈ facts} k p

/-- The fact cannot be derived in `k` rounds, and the rule after the `earlier` ones is the first that gives it from
what can. -/
structure FirstDerived (rules : List (Rule C)) (facts : List (Fact C)) (k : ℕ) (earlier : List (Rule C))
    (rule : Rule C) (f : Fact C) : Prop where
  place : ∃ later, rules = earlier ++ rule :: later
  unknown : ¬ Derivable (Infers rules) {f | f ∈ facts} k f
  gives : Gives rules facts k [rule] f
  first : ¬ Gives rules facts k earlier f

/-- The fact matches one of the conditions by itself. -/
def Rule.IsSource (rule : Rule C) (fact : Fact C) : Prop :=
  ∃ condition ∈ rule.conditions, (fact.matchesPattern condition ∅).1

/-- Where a step stands in the chain: after what was known after `k` rounds and what earlier rules gave. -/
structure Placed (rules : List (Rule C)) (facts : List (Fact C)) (before : List (ReasoningStep C))
    (step : ReasoningStep C) (k : ℕ) (earlier : List (Rule C)) (rule : Rule C) : Prop where
  named : step.rule = rule.name
  sources : ∀ p, p ∈ step.sourceFacts ↔ Derivable (Infers rules) {f | f ∈ facts} k p ∧ rule.IsSource p
  first : FirstDerived rules facts k earlier rule step.derivedFact
  unknown : step.derivedFact ∉ facts ++ derived before
  known : ∀ g, Derivable (Infers rules) {f | f ∈ facts} k g ∨ Gives rules facts k earlier g →
    g ∈ facts ++ derived before
  only : ∀ g ∈ facts ++ derived before,
    Derivable (Infers rules) {f | f ∈ facts} k g ∨ Gives rules facts k (earlier ++ [rule]) g

section Gives

omit [DecidableEq C]

variable {rules : List (Rule C)} {facts : List (Fact C)} {k : ℕ} {f : Fact C}

theorem Gives.mono {few more : List (Rule C)} (sub : ∀ rule ∈ few, rule ∈ more) (h : Gives rules facts k few f) :
    Gives rules facts k more f := by
  obtain ⟨premises, ⟨rule, mem, applies⟩, derivable⟩ := h
  exact ⟨premises, ⟨rule, sub rule mem, applies⟩, derivable⟩

/-- A rule that gives the fact is not among the earlier ones. -/
theorem FirstDerived.not_mem {earlier : List (Rule C)} {rule other : Rule C}
    (h : FirstDerived rules facts k earlier rule f) (gives : Gives rules facts k [other] f) : other ∉ earlier :=
  fun mem => h.first (gives.mono fun _ same => List.mem_singleton.1 same ▸ mem)

theorem FirstDerived.unique {earlier earlier' : List (Rule C)} {rule rule' : Rule C}
    (h : FirstDerived rules facts k earlier rule f) (h' : FirstDerived rules facts k earlier' rule' f) :
    earlier = earlier' ∧ rule = rule' := by
  obtain ⟨later, eq⟩ := h.place
  obtain ⟨later', eq'⟩ := h'.place
  rw [eq] at eq'
  rcases List.append_eq_append_iff.1 eq' with ⟨more, rfl, rest⟩ | ⟨more, rfl, rest⟩
  · cases more with
    | nil => exact ⟨by simp, (List.cons.inj rest).1⟩
    | cons r more =>
      obtain ⟨rfl, -⟩ := List.cons.inj rest
      exact absurd (by simp) (h'.not_mem h.gives)
  · cases more with
    | nil => exact ⟨by simp, (List.cons.inj rest).1.symm⟩
    | cons r more =>
      obtain ⟨rfl, -⟩ := List.cons.inj rest
      exact absurd (by simp) (h.not_mem h'.gives)

end Gives

variable (engine : ReasoningEngine C) (facts : List (Fact C))

theorem gives_iff {k : ℕ} {few : List (Rule C)} {f : Fact C} : Gives engine.rules facts k few f ↔
    ∃ c ∈ tried few (engine.rounds facts k).known, c.1.inferred c.2 = f := by
  rw [exists_tried_iff]
  simp only [mem_rounds_iff, Gives]

/-- The steps of round `k`. -/
theorem exists_round (k : ℕ) : ∃ steps, (engine.rounds facts (k + 1)).chain = (engine.rounds facts k).chain ++ steps ∧
    (∀ f, f ∈ derived steps ↔
      ¬ Derivable (Infers engine.rules) {f | f ∈ facts} k f ∧ Gives engine.rules facts k engine.rules f) ∧
    ∀ before step after, steps = before ++ step :: after → ∃ earlier rule,
      Placed engine.rules facts ((engine.rounds facts k).chain ++ before) step k earlier rule := by
  set s := engine.rounds facts k with hs
  have known : s.known = facts ++ derived s.chain := (rounds_kept facts engine k).known
  have mem_known (f : Fact C) : f ∈ s.known ↔ Derivable (Infers engine.rules) {f | f ∈ facts} k f :=
    mem_rounds_iff facts engine
  have gives {few : List (Rule C)} {f : Fact C} : Gives engine.rules facts k few f ↔
      ∃ c ∈ tried few s.known, c.1.inferred c.2 = f := gives_iff engine facts
  obtain ⟨steps, eq, mem_iff, recorded⟩ := foldl_inferOne_recorded s.chain (tried engine.rules s.known)
  rw [← inferAll_eq_foldl] at eq
  refine ⟨steps, ?_, fun f => by rw [mem_iff, mem_known, gives], fun before step after split => ?_⟩
  · rw [ReasoningEngine.rounds, reasonLoop_add, ← ReasoningEngine.rounds, ← hs, reasonLoop, eq]
    dsimp only
    split_ifs <;> rfl
  · obtain ⟨done, c, rest, order, rfl, unknown, first, earlierFacts⟩ := recorded before step after split
    obtain ⟨earlier, later, place, all, only⟩ := tried_split order
    have tried_c : c ∈ tried engine.rules s.known := by
      rw [order]
      exact List.mem_append_right _ List.mem_cons_self
    have mem_before (g : Fact C) : g ∈ facts ++ derived (s.chain ++ before) ↔
        g ∈ s.known ∨ ∃ d ∈ done, d.1.inferred d.2 = g := by
      have split : facts ++ derived (s.chain ++ before) = s.known ++ derived before := by
        simp only [known, derived, List.map_append, List.append_assoc]
      rw [split, List.mem_append, earlierFacts]
      tauto
    refine ⟨earlier, c.1, rfl, fun p => ?_, ⟨⟨later, place⟩, fun h => unknown ((mem_known _).2 h), ?_, ?_⟩, ?_, ?_, ?_⟩
    · rw [← mem_known]
      simp [Rule.sourceFacts, Rule.IsSource]
    · exact gives.2 ⟨c, mem_tried.2 ⟨List.mem_singleton.2 rfl, (mem_tried.1 tried_c).2⟩, rfl⟩
    · intro h
      obtain ⟨d, mem, same⟩ := gives.1 h
      exact first d (all d mem) same
    · rw [mem_before]
      rintro (h | ⟨d, mem, same⟩)
      · exact unknown h
      · exact first d mem same
    · intro g h
      rw [← mem_known, gives] at h
      exact (mem_before g).2 (h.imp_right (Exists.imp fun d found => ⟨all d found.1, found.2⟩))
    · intro g h
      rw [← mem_known, gives]
      exact ((mem_before g).1 h).imp_right (Exists.imp fun d found => ⟨only d found.1, found.2⟩)

/-- Every step of the chain has its place, before round `n`. -/
theorem exists_placed {n : ℕ} {before after : List (ReasoningStep C)} {step : ReasoningStep C}
    (split : (engine.rounds facts n).chain = before ++ step :: after) :
    ∃ k < n, ∃ earlier rule, Placed engine.rules facts before step k earlier rule := by
  induction n generalizing before after with
  | zero => simp [ReasoningEngine.rounds, reasonLoop] at split
  | succ n ih =>
    obtain ⟨steps, eq, -, placed⟩ := exists_round engine facts n
    rw [eq] at split
    rcases List.append_eq_append_iff.1 split with ⟨more, rfl, rest⟩ | ⟨more, old, rest⟩
    · exact ⟨n, n.lt_succ_self, placed more step after rest⟩
    · cases more with
      | nil =>
        obtain ⟨earlier, rule, h⟩ := placed [] step after (by simpa using rest.symm)
        rw [old] at h
        exact ⟨n, n.lt_succ_self, earlier, rule, by simpa using h⟩
      | cons first more =>
        obtain ⟨rfl, -⟩ := List.cons.inj rest
        obtain ⟨k, hk, h⟩ := ih old
        exact ⟨k, hk.trans n.lt_succ_self, h⟩

/-- Later rounds only add to the chain. -/
theorem exists_rounds_eq_append {k n : ℕ} (le : k ≤ n) :
    ∃ more, (engine.rounds facts n).chain = (engine.rounds facts k).chain ++ more := by
  induction n, le using Nat.le_induction with
  | base => exact ⟨[], by simp⟩
  | succ n _ ih =>
    obtain ⟨more, eq⟩ := ih
    obtain ⟨steps, eq', -⟩ := exists_round engine facts n
    exact ⟨more ++ steps, by rw [eq', eq, List.append_assoc]⟩

/-- Every fact that is first derived in a round has a step there. -/
theorem FirstDerived.exists_step {k n : ℕ} {earlier : List (Rule C)} {rule : Rule C} {f : Fact C}
    (h : FirstDerived engine.rules facts k earlier rule f) (lt : k < n) :
    ∃ before step after, (engine.rounds facts n).chain = before ++ step :: after ∧ step.derivedFact = f ∧
      Placed engine.rules facts before step k earlier rule := by
  obtain ⟨steps, eq, mem_iff, placed⟩ := exists_round engine facts k
  obtain ⟨later, place⟩ := h.place
  have derived_f : f ∈ derived steps := (mem_iff f).2 ⟨h.unknown, h.gives.mono (by simp [place])⟩
  obtain ⟨step, mem, rfl⟩ := List.mem_map.1 derived_f
  obtain ⟨before, after, split⟩ := List.append_of_mem mem
  obtain ⟨earlier', rule', here⟩ := placed before step after split
  obtain ⟨rfl, rfl⟩ := h.unique here.first
  obtain ⟨more, longer⟩ := exists_rounds_eq_append engine facts (Nat.succ_le_of_lt lt)
  exact ⟨_, step, after ++ more, by rw [longer, eq, split]; simp, rfl, here⟩

end Order

/-! ## Confidence -/

/-- The facts state the same, with any confidence. -/
def Fact.SameStatement {C : Type} (f g : Fact C) : Prop :=
  f.predicate = g.predicate ∧ f.subject = g.subject ∧ f.object = g.object

theorem Fact.SameStatement.eq {C : Type} {f g : Fact C} (h : f.SameStatement g) (same : f.confidence = g.confidence) :
    f = g := by
  obtain ⟨predicate, subject, object⟩ := h
  cases f
  cases g
  simp_all

/-- The confidences of the premises multiplied together. -/
def evidence (premises : List (Fact ℚ)) : ℚ := (premises.map Fact.confidence).prod

/-- Some of the sources of the step match the conditions of the rule that it names, so that they give its fact, and
their evidence multiplied by the confidence of the rule is at least the confidence of the fact. -/
def Backed (rules : List (Rule ℚ)) (step : ReasoningStep ℚ) : Prop :=
  ∃ rule ∈ rules, rule.name = step.rule ∧ ∃ premises, rule.Applies premises step.derivedFact ∧
    (∀ p ∈ premises, p ∈ step.sourceFacts) ∧ step.derivedFact.confidence ≤ evidence premises * rule.confidence

/-- Every step is backed by its sources, and derives a statement that was not known before with as much
confidence. -/
structure Evident (rules : List (Rule ℚ)) (facts : List (Fact ℚ)) (chain : List (ReasoningStep ℚ)) : Prop where
  backed : ∀ step ∈ chain, Backed rules step
  isNew : ∀ before step after, chain = before ++ step :: after → ∀ g ∈ facts ++ derived before,
    g.SameStatement step.derivedFact → ¬ step.derivedFact.confidence ≤ g.confidence

/-- In every round, what a rule is the first to give has confidence zero or is also given by a rule of that name from
sources of confidence one, and no rule before gives the same statement with more confidence. -/
structure SureRules (engine : ReasoningEngine ℚ) (facts : List (Fact ℚ)) : Prop where
  sure : ∀ k < engine.maxIterations, ∀ earlier rule f, FirstDerived engine.rules facts k earlier rule f →
    rule.confidence = 0 ∨ ∃ named ∈ engine.rules, named.name = rule.name ∧ ∃ premises, named.Applies premises f ∧
      ∀ p ∈ premises, p.confidence = 1 ∧ Derivable (Infers engine.rules) {f | f ∈ facts} k p ∧ rule.IsSource p
  unsurpassed : ∀ k < engine.maxIterations, ∀ earlier rule f, FirstDerived engine.rules facts k earlier rule f →
    ∀ g, Derivable (Infers engine.rules) {f | f ∈ facts} k g ∨ Gives engine.rules facts k earlier g →
      g.SameStatement f → g.confidence ≤ rule.confidence

theorem le_evidence_mul_iff {premises : List (Fact ℚ)} {c : ℚ} (unit : ∀ p ∈ premises, p.confidence ∈ Set.Icc 0 1)
    (nonneg : 0 ≤ c) : c ≤ evidence premises * c ↔ c = 0 ∨ ∀ p ∈ premises, p.confidence = 1 := by
  have product : 0 ≤ evidence premises ∧ evidence premises ≤ 1 ∧
      (evidence premises = 1 ↔ ∀ p ∈ premises, p.confidence = 1) := by
    induction premises with
    | nil => simp [evidence]
    | cons p premises ih =>
      obtain ⟨⟨low, high⟩, unit⟩ := List.forall_mem_cons.1 unit
      obtain ⟨low', high', iff⟩ := ih unit
      have eq : evidence (p :: premises) = p.confidence * evidence premises := by simp [evidence]
      rw [eq, List.forall_mem_cons, ← iff]
      refine ⟨mul_nonneg low low', mul_le_one₀ high low' high', fun one => ?_, fun ⟨h, h'⟩ => by rw [h, h', one_mul]⟩
      constructor <;> nlinarith
  obtain ⟨-, high, iff⟩ := product
  rw [← iff]
  constructor
  · intro le
    by_cases zero : c = 0
    · exact .inl zero
    · have pos : 0 < c := lt_of_le_of_ne nonneg (Ne.symm zero)
      exact .inr (le_antisymm high (le_of_mul_le_mul_right (by rwa [one_mul]) pos))
  · rintro (rfl | one)
    · simp
    · rw [one, one_mul]

variable {engine : ReasoningEngine ℚ} {facts : List (Fact ℚ)}

/-- Facts that are derived from confidences in the unit interval have such confidences. -/
theorem unit_of_derivable (rules_unit : ∀ rule ∈ engine.rules, rule.confidence ∈ Set.Icc 0 1)
    (facts_unit : ∀ fact ∈ facts, fact.confidence ∈ Set.Icc 0 1) {k : ℕ} {f : Fact ℚ}
    (h : Derivable (Infers engine.rules) {f | f ∈ facts} k f) : f.confidence ∈ Set.Icc 0 1 := by
  cases h with
  | given mem => exact facts_unit f mem
  | infer applies _ =>
    obtain ⟨rule, mem, σ, -, rfl⟩ := applies
    exact rules_unit rule mem

/-- A fact that a rule gives has the confidence of the rule. -/
theorem Gives.confidence_eq {k : ℕ} {few : List (Rule ℚ)} {f : Fact ℚ} (h : Gives engine.rules facts k few f) :
    ∃ rule ∈ few, f.confidence = rule.confidence := by
  obtain ⟨premises, ⟨rule, mem, σ, -, rfl⟩, -⟩ := h
  exact ⟨rule, mem, rfl⟩

theorem FirstDerived.confidence_eq {k : ℕ} {earlier : List (Rule ℚ)} {rule : Rule ℚ} {f : Fact ℚ}
    (h : FirstDerived engine.rules facts k earlier rule f) : f.confidence = rule.confidence := by
  obtain ⟨other, mem, eq⟩ := h.gives.confidence_eq
  rw [eq, List.mem_singleton.1 mem]

theorem exists_condition_of_mem {C : Type} {σ : String → String} {conditions : List Pattern}
    {premises : List (Fact C)} {p : Fact C} (isMatch : List.Forall₂ (Matches σ) conditions premises)
    (mem : p ∈ premises) : ∃ condition ∈ conditions, Matches σ condition p := by
  induction isMatch with
  | nil => cases mem
  | cons isMatch _ ih =>
    rcases List.mem_cons.1 mem with rfl | mem
    · exact ⟨_, List.mem_cons_self, isMatch⟩
    · obtain ⟨condition, mem_conditions, isMatch⟩ := ih mem
      exact ⟨condition, List.mem_cons_of_mem _ mem_conditions, isMatch⟩

/-- What a rule applies to are sources of it. -/
theorem Rule.Applies.isSource {C : Type} {rule : Rule C} {premises : List (Fact C)} {f p : Fact C}
    (applies : rule.Applies premises f) (mem : p ∈ premises) : rule.IsSource p := by
  obtain ⟨σ, isMatch, -⟩ := applies
  have empty : Fits ∅ σ := fun _ _ eq => by simp at eq
  obtain ⟨condition, mem_conditions, isMatch⟩ := exists_condition_of_mem isMatch mem
  exact ⟨condition, mem_conditions, (matchesPattern_iff.2 ⟨empty, isMatch⟩).1⟩

theorem FirstDerived.mem_rules {k : ℕ} {earlier : List (Rule ℚ)} {rule : Rule ℚ} {f : Fact ℚ}
    (h : FirstDerived engine.rules facts k earlier rule f) : rule ∈ engine.rules := by
  obtain ⟨later, place⟩ := h.place
  simp [place]

section Placed

variable {before : List (ReasoningStep ℚ)} {step : ReasoningStep ℚ} {k : ℕ} {earlier : List (Rule ℚ)} {rule : Rule ℚ}

theorem Placed.backed_iff (placed : Placed engine.rules facts before step k earlier rule)
    (rules_unit : ∀ rule ∈ engine.rules, rule.confidence ∈ Set.Icc 0 1)
    (facts_unit : ∀ fact ∈ facts, fact.confidence ∈ Set.Icc 0 1) :
    Backed engine.rules step ↔ rule.confidence = 0 ∨ ∃ named ∈ engine.rules, named.name = rule.name ∧
      ∃ premises, named.Applies premises step.derivedFact ∧ ∀ p ∈ premises, p.confidence = 1 ∧
        Derivable (Infers engine.rules) {f | f ∈ facts} k p ∧ rule.IsSource p := by
  have conf := placed.first.confidence_eq
  have nonneg : 0 ≤ step.derivedFact.confidence := conf ▸ (rules_unit rule placed.first.mem_rules).1
  have enough {named : Rule ℚ} {premises : List (Fact ℚ)} (applies : named.Applies premises step.derivedFact)
      (unit : ∀ p ∈ premises, p.confidence ∈ Set.Icc 0 1) :
      step.derivedFact.confidence ≤ evidence premises * named.confidence ↔
        rule.confidence = 0 ∨ ∀ p ∈ premises, p.confidence = 1 := by
    have same : named.confidence = step.derivedFact.confidence := by
      obtain ⟨σ, -, eq⟩ := applies
      rw [eq]
      rfl
    rw [same, le_evidence_mul_iff unit nonneg, conf]
  have unit (p : Fact ℚ) (mem : p ∈ step.sourceFacts) : p.confidence ∈ Set.Icc 0 1 :=
    unit_of_derivable rules_unit facts_unit ((placed.sources p).1 mem).1
  constructor
  · rintro ⟨named, mem, name, premises, applies, sources, le⟩
    refine ((enough applies fun p hp => unit p (sources p hp)).1 le).imp_right fun one => ?_
    exact ⟨named, mem, name.trans placed.named, premises, applies,
      fun p hp => ⟨one p hp, (placed.sources p).1 (sources p hp)⟩⟩
  · rintro (zero | ⟨named, mem, name, premises, applies, sure⟩)
    · obtain ⟨premises, ⟨other, mem, applies⟩, derivable⟩ := placed.first.gives
      obtain rfl := List.mem_singleton.1 mem
      have sources (p : Fact ℚ) (hp : p ∈ premises) : p ∈ step.sourceFacts :=
        (placed.sources p).2 ⟨derivable p hp, applies.isSource hp⟩
      exact ⟨other, placed.first.mem_rules, placed.named.symm, premises, applies, sources,
        (enough applies fun p hp => unit p (sources p hp)).2 (.inl zero)⟩
    · have sources (p : Fact ℚ) (hp : p ∈ premises) : p ∈ step.sourceFacts := (placed.sources p).2 (sure p hp).2
      exact ⟨named, mem, name.trans placed.named.symm, premises, applies, sources,
        (enough applies fun p hp => unit p (sources p hp)).2 (.inr fun p hp => (sure p hp).1)⟩

theorem Placed.isNew_iff (placed : Placed engine.rules facts before step k earlier rule) :
    (∀ g ∈ facts ++ derived before, g.SameStatement step.derivedFact → ¬ step.derivedFact.confidence ≤ g.confidence) ↔
      ∀ g, Derivable (Infers engine.rules) {f | f ∈ facts} k g ∨ Gives engine.rules facts k earlier g →
        g.SameStatement step.derivedFact → g.confidence ≤ rule.confidence := by
  have conf := placed.first.confidence_eq
  constructor
  · intro isNew g mem same
    rw [← conf]
    exact (not_le.1 (isNew g (placed.known g mem) same)).le
  · intro unsurpassed g mem same le
    have most : g.confidence ≤ rule.confidence := by
      rcases placed.only g mem with known | ⟨premises, ⟨other, mem_other, applies⟩, derivable⟩
      · exact unsurpassed g (.inl known) same
      · rcases List.mem_append.1 mem_other with mem_other | last
        · exact unsurpassed g (.inr ⟨premises, ⟨other, mem_other, applies⟩, derivable⟩) same
        · obtain ⟨σ, -, rfl⟩ := applies
          rw [List.mem_singleton.1 last]
          rfl
    have eq : g = step.derivedFact := same.eq (le_antisymm (conf ▸ most) le)
    exact placed.unknown (eq ▸ mem)

end Placed

variable (engine facts)

/-- A run from confidences in the unit interval backs every step and never restates a fact with less confidence
exactly if in every round a rule that is the first to give a fact has confidence zero or gives it from facts of
confidence one, and nothing with more confidence is known or given before it. -/
theorem reason_evident_iff (rules_unit : ∀ rule ∈ engine.rules, rule.confidence ∈ Set.Icc 0 1)
    (facts_unit : ∀ fact ∈ facts, fact.confidence ∈ Set.Icc 0 1) :
    Evident engine.rules facts (engine.reason facts).chain ↔ SureRules engine facts := by
  constructor
  · intro evident
    constructor <;> intro k lt earlier rule f first
    · obtain ⟨before, step, after, split, rfl, placed⟩ := first.exists_step engine facts lt
      refine (placed.backed_iff rules_unit facts_unit).1 (evident.backed step ?_)
      rw [ReasoningEngine.reason, split]
      exact List.mem_append_right _ List.mem_cons_self
    · obtain ⟨before, step, after, split, rfl, placed⟩ := first.exists_step engine facts lt
      exact placed.isNew_iff.1 (evident.isNew before step after split)
  · intro sure
    constructor
    · intro step mem
      obtain ⟨before, after, split⟩ := List.append_of_mem mem
      obtain ⟨k, lt, earlier, rule, placed⟩ := exists_placed engine facts split
      exact (placed.backed_iff rules_unit facts_unit).2 (sure.sure k lt earlier rule _ placed.first)
    · intro before step after split
      obtain ⟨k, lt, earlier, rule, placed⟩ := exists_placed engine facts split
      exact placed.isNew_iff.2 (sure.unsurpassed k lt earlier rule _ placed.first)

/-- Whoever wrote something is its author, with nine tenths of the confidence. -/
def authorship : Rule ℚ :=
  ⟨"author", [("wrote", "$X", some "$Y")], ("author", "$X", none), 9 / 10⟩

theorem reason_evident_iff_authorship :
    Evident [authorship] [⟨"wrote", "Ada", some "notes", 1⟩]
        ((ReasoningEngine.withRules [authorship]).reason [⟨"wrote", "Ada", some "notes", 1⟩]).chain ↔
      SureRules (.withRules [authorship]) [⟨"wrote", "Ada", some "notes", 1⟩] := by
  refine reason_evident_iff (.withRules [authorship]) [⟨"wrote", "Ada", some "notes", 1⟩] ?_ ?_
  · intro rule mem
    rw [List.mem_singleton.1 mem]
    constructor <;> norm_num [authorship]
  · intro fact mem
    rw [List.mem_singleton.1 mem]
    constructor <;> norm_num

/-- What is known with confidence one half gives a conclusion of confidence nine tenths. -/
theorem reason_overstates :
    authorship.confidence ∈ Set.Icc 0 1 ∧ (1 / 2 : ℚ) ∈ Set.Icc 0 1 ∧
    ¬ Evident [authorship] [⟨"wrote", "Ada", some "notes", 1 / 2⟩]
      ((ReasoningEngine.withRules [authorship]).reason [⟨"wrote", "Ada", some "notes", 1 / 2⟩]).chain := by
  refine ⟨by constructor <;> norm_num [authorship], by constructor <;> norm_num, fun evident => ?_⟩
  set chain := ((ReasoningEngine.withRules [authorship]).reason [⟨"wrote", "Ada", some "notes", 1 / 2⟩]).chain
    with hchain
  have run : chain.map (fun step => (step.derivedFact.confidence, step.sourceFacts)) =
      [(9 / 10, [⟨"wrote", "Ada", some "notes", 1 / 2⟩])] := by
    rw [hchain]
    decide +kernel
  obtain ⟨step, eq, here⟩ := List.map_eq_singleton_iff.1 run
  obtain ⟨conf, sources⟩ := Prod.mk.inj here
  obtain ⟨rule, mem, -, premises, ⟨σ, isMatch, -⟩, from_sources, le⟩ := evident.backed step (by simp [eq])
  obtain rfl := List.mem_singleton.1 mem
  cases isMatch with
  | cons isMatch rest =>
    cases rest
    rw [sources] at from_sources
    rw [conf, List.mem_singleton.1 (from_sources _ List.mem_cons_self)] at le
    norm_num [evidence, authorship] at le

end TORdex.Reasoning
