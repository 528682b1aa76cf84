import TORdex.AiRuntime.Reasoning

/-!
# Forward chaining computes the closure

After `k` rounds the engine knows the facts that have a derivation of a height at most `k`.  When it ends before
its last round these are closed under the rules.
-/

namespace TORdex.Reasoning

open ForwardChaining

variable {C : Type} {rules : List (Rule C)} {facts known : List (Fact C)}

/-! ## One application of a rule -/

theorem exists_premises {σ : String → String} {conditions : List Pattern} :
    (∃ premises, List.Forall₂ (Matches σ) conditions premises ∧ ∀ p ∈ premises, p ∈ facts) ↔
      ∀ condition ∈ conditions, ∃ fact ∈ facts, Matches σ condition fact := by
  induction conditions with
  | nil => simp
  | cons condition conditions ih =>
    rw [List.forall_mem_cons, ← ih]
    constructor
    · rintro ⟨_, isMatch, mem⟩
      cases isMatch with
      | cons isMatch rest =>
        obtain ⟨here, mem⟩ := List.forall_mem_cons.1 mem
        exact ⟨⟨_, here, isMatch⟩, _, rest, mem⟩
    · rintro ⟨⟨fact, here, isMatch⟩, premises, rest, mem⟩
      exact ⟨fact :: premises, .cons isMatch rest, List.forall_mem_cons.2 ⟨here, mem⟩⟩

theorem inferred_eq {rule : Rule C} {b : Bindings} {σ : String → String}
    (mem : b ∈ findAllBindings rule.conditions known) (fits : Fits b σ) :
    rule.inferred b = rule.conclusionUnder σ := by
  have term (val : String) : substitute val b = rule.termUnder σ val := by
    unfold substitute Rule.termUnder
    split
    · next var _ =>
      have bound := findAllBindings_bound mem var
      split_ifs with isBound
      · obtain ⟨x, eq⟩ := Option.isSome_iff_exists.1 (bound.2 isBound)
        rw [eq, Option.getD_some, fits var x eq]
      · rw [Option.not_isSome_iff_eq_none.1 fun some => isBound (bound.1 some)]
        rfl
    · rfl
  simp only [Rule.inferred, Rule.conclusionUnder, term]

/-- A fact that matches a condition under some assignment is among the sources. -/
theorem mem_sourceFacts {rule : Rule C} {condition : Pattern} {fact : Fact C} {σ : String → String}
    (mem : fact ∈ known) (mem_conditions : condition ∈ rule.conditions) (isMatch : Matches σ condition fact) :
    fact ∈ rule.sourceFacts known := by
  have empty : Fits ∅ σ := fun _ _ eq => by simp at eq
  have found := (matchesPattern_iff.2 ⟨empty, isMatch⟩).1
  exact List.mem_filter.2 ⟨mem, List.any_eq_true.2 ⟨condition, mem_conditions, found⟩⟩

/-- Bindings that were found apply the rule to source facts. -/
theorem applies_inferred {rule : Rule C} {b : Bindings} (mem : b ∈ findAllBindings rule.conditions known) :
    ∃ premises, rule.Applies premises (rule.inferred b) ∧ ∀ p ∈ premises, p ∈ rule.sourceFacts known := by
  have all := findAllBindings_iff.1 ⟨b, mem, fits_getD⟩
  obtain ⟨premises, isMatch, sources⟩ := exists_premises.2 fun condition mem_conditions => by
    obtain ⟨fact, mem, isMatch⟩ := all condition mem_conditions
    exact ⟨fact, mem_sourceFacts mem mem_conditions isMatch, isMatch⟩
  exact ⟨premises, ⟨_, isMatch, inferred_eq mem fits_getD⟩, sources⟩

theorem inferred_iff {rule : Rule C} {f : Fact C} :
    (∃ b ∈ findAllBindings rule.conditions known, rule.inferred b = f) ↔
      ∃ premises, rule.Applies premises f ∧ ∀ p ∈ premises, p ∈ known := by
  constructor
  · rintro ⟨b, mem, rfl⟩
    obtain ⟨premises, applies, sources⟩ := applies_inferred mem
    exact ⟨premises, applies, fun p hp => List.mem_of_mem_filter (sources p hp)⟩
  · rintro ⟨premises, ⟨σ, isMatch, rfl⟩, mem⟩
    obtain ⟨b, found, fits⟩ := findAllBindings_iff.2 (exists_premises.1 ⟨premises, isMatch, mem⟩)
    exact ⟨b, found, inferred_eq found fits⟩

/-! ## One round -/

/-- What a round tries: each rule, in order, under the bindings found for it. -/
def tried (rules : List (Rule C)) (known : List (Fact C)) : List (Rule C × Bindings) :=
  rules.flatMap fun rule => (findAllBindings rule.conditions known).map (rule, ·)

theorem mem_tried {rules : List (Rule C)} {c : Rule C × Bindings} :
    c ∈ tried rules known ↔ c.1 ∈ rules ∧ c.2 ∈ findAllBindings c.1.conditions known := by
  rw [tried]
  constructor
  · intro mem
    obtain ⟨rule, mem_rules, mem⟩ := List.mem_flatMap.1 mem
    obtain ⟨b, mem_b, rfl⟩ := List.mem_map.1 mem
    exact ⟨mem_rules, mem_b⟩
  · rintro ⟨mem_rules, mem⟩
    exact List.mem_flatMap.2 ⟨c.1, mem_rules, List.mem_map.2 ⟨c.2, mem, rfl⟩⟩

/-- Some trial infers the fact exactly if one of the rules gives it from known facts. -/
theorem exists_tried_iff {rules : List (Rule C)} {f : Fact C} :
    (∃ c ∈ tried rules known, c.1.inferred c.2 = f) ↔
      ∃ premises, Infers rules premises f ∧ ∀ p ∈ premises, p ∈ known := by
  constructor
  · rintro ⟨c, mem, rfl⟩
    obtain ⟨mem_rules, mem⟩ := mem_tried.1 mem
    obtain ⟨premises, applies, mem⟩ := inferred_iff.1 ⟨c.2, mem, rfl⟩
    exact ⟨premises, ⟨c.1, mem_rules, applies⟩, mem⟩
  · rintro ⟨premises, ⟨rule, mem_rules, applies⟩, mem⟩
    obtain ⟨b, mem, rfl⟩ := inferred_iff.2 ⟨premises, applies, mem⟩
    exact ⟨(rule, b), mem_tried.2 ⟨mem_rules, mem⟩, rfl⟩

/-- The step is an application of the rule that it names to facts that it lists. -/
def Justified (rules : List (Rule C)) (step : ReasoningStep C) : Prop :=
  ∃ rule ∈ rules, rule.name = step.rule ∧
    ∃ premises, rule.Applies premises step.derivedFact ∧ ∀ p ∈ premises, p ∈ step.sourceFacts

/-- The facts that the steps of a chain derive. -/
def derived (chain : List (ReasoningStep C)) : List (Fact C) := chain.map ReasoningStep.derivedFact

/-- Steps that derive different facts, and none that is known. -/
structure NewSteps (rules : List (Rule C)) (known : List (Fact C)) (steps : List (ReasoningStep C)) : Prop where
  nodup : (derived steps).Nodup
  unknown : ∀ f ∈ derived steps, f ∉ known
  justified : ∀ step ∈ steps, Justified rules step
  sources : ∀ step ∈ steps, ∀ p ∈ step.sourceFacts, p ∈ known

variable [DecidableEq C]

theorem inferAll_eq_foldl (rules : List (Rule C)) (known : List (Fact C)) (chain : List (ReasoningStep C)) :
    inferAll rules known chain =
      (tried rules known).foldl (fun acc c => inferOne known c.1 acc c.2) ([], chain) := by
  rw [tried, List.foldl_flatMap, inferAll]
  simp only [List.foldl_map]

/-- One new fact, or none. -/
theorem inferOne_spec {rule : Rule C} {b : Bindings} {steps : List (ReasoningStep C)}
    (chain : List (ReasoningStep C)) (mem_rules : rule ∈ rules) (mem : b ∈ findAllBindings rule.conditions known)
    (ok : NewSteps rules known steps) :
    ∃ more, inferOne known rule (derived steps, chain ++ steps) b =
        (derived (steps ++ more), chain ++ (steps ++ more)) ∧
      NewSteps rules known (steps ++ more) ∧
      (rule.inferred b ∈ known ∨ rule.inferred b ∈ derived (steps ++ more)) := by
  unfold inferOne
  dsimp only
  split_ifs with isNew
  · refine ⟨[⟨rule.name, rule.inferred b, rule.sourceFacts known⟩], ?_, ?_, .inr ?_⟩
    · simp [derived]
    · constructor
      · rw [derived, List.map_append]
        refine List.nodup_append.2 ⟨ok.nodup, List.nodup_singleton _, fun f hf g hg same => isNew.2 ?_⟩
        have same : f = rule.inferred b := same.trans (List.mem_singleton.1 hg)
        exact same ▸ hf
      · intro f hf
        rw [derived, List.map_append] at hf
        rcases List.mem_append.1 hf with hf | hf
        · exact ok.unknown f hf
        · rw [List.mem_singleton.1 hf]
          exact isNew.1
      · intro step hstep
        rcases List.mem_append.1 hstep with hstep | hstep
        · exact ok.justified step hstep
        · rw [List.mem_singleton.1 hstep]
          exact ⟨rule, mem_rules, rfl, applies_inferred mem⟩
      · intro step hstep p hp
        rcases List.mem_append.1 hstep with hstep | hstep
        · exact ok.sources step hstep p hp
        · rw [List.mem_singleton.1 hstep] at hp
          exact List.mem_of_mem_filter hp
    · simp [derived]
  · refine ⟨[], by simp, by simpa using ok, ?_⟩
    rw [List.append_nil]
    by_contra out
    exact isNew (not_or.1 out)

/-- The loops over rules and their bindings. -/
theorem foldl_inferOne {found : List (Rule C × Bindings)} {steps : List (ReasoningStep C)}
    (chain : List (ReasoningStep C))
    (sound : ∀ c ∈ found, c.1 ∈ rules ∧ c.2 ∈ findAllBindings c.1.conditions known)
    (ok : NewSteps rules known steps) :
    ∃ more, found.foldl (fun acc c => inferOne known c.1 acc c.2) (derived steps, chain ++ steps) =
        (derived (steps ++ more), chain ++ (steps ++ more)) ∧
      NewSteps rules known (steps ++ more) ∧
      ∀ c ∈ found, c.1.inferred c.2 ∈ known ∨ c.1.inferred c.2 ∈ derived (steps ++ more) := by
  induction found generalizing steps with
  | nil => exact ⟨[], by simp, by simpa using ok, by simp⟩
  | cons c found ih =>
    obtain ⟨⟨mem_rules, mem⟩, sound⟩ := List.forall_mem_cons.1 sound
    obtain ⟨one, eq, ok, here⟩ := inferOne_spec chain mem_rules mem ok
    obtain ⟨more, eq', ok, rest⟩ := ih sound ok
    rw [List.append_assoc] at eq' ok rest
    refine ⟨one ++ more, by rw [List.foldl_cons, eq, eq'], ok, List.forall_mem_cons.2 ⟨?_, rest⟩⟩
    refine here.imp_right fun mem => ?_
    rw [← List.append_assoc, derived, List.map_append]
    exact List.mem_append_left _ mem

/-- What a round finds: all that can be inferred from the known facts and is not known. -/
theorem inferAll_spec (rules : List (Rule C)) (known : List (Fact C)) (chain : List (ReasoningStep C)) :
    ∃ steps, inferAll rules known chain = (derived steps, chain ++ steps) ∧ NewSteps rules known steps ∧
      ∀ f, f ∈ known ∨ f ∈ derived steps ↔
        f ∈ known ∨ ∃ premises, Infers rules premises f ∧ ∀ p ∈ premises, p ∈ known := by
  have empty : NewSteps rules known [] := ⟨List.nodup_nil, by simp [derived], by simp, by simp⟩
  obtain ⟨steps, eq, ok, all⟩ := foldl_inferOne chain (fun c => mem_tried.1) empty
  rw [List.nil_append] at eq ok all
  refine ⟨steps, by rw [inferAll_eq_foldl]; simpa [derived] using eq, ok, fun f => ⟨?_, ?_⟩⟩
  · refine Or.imp_right fun mem => ?_
    obtain ⟨step, hstep, rfl⟩ := List.mem_map.1 mem
    obtain ⟨rule, mem_rules, -, premises, applies, sources⟩ := ok.justified step hstep
    exact ⟨premises, ⟨rule, mem_rules, applies⟩, fun p hp => ok.sources step hstep p (sources p hp)⟩
  · rintro (mem | inferred)
    · exact .inl mem
    · obtain ⟨c, mem, rfl⟩ := exists_tried_iff.2 inferred
      exact all c mem

/-! ## All rounds -/

/-- The loop goes on where it stood after `k` rounds. -/
theorem reasonLoop_add (k n : ℕ) (s : Reasoned C) :
    reasonLoop rules (k + n) s = reasonLoop rules n (reasonLoop rules k s) := by
  induction k generalizing s with
  | zero => rw [Nat.zero_add, reasonLoop]
  | succ k ih =>
    rw [Nat.add_right_comm]
    obtain ⟨steps, eq, -, -⟩ := inferAll_spec rules s.known s.chain
    cases steps with
    | nil =>
      have stop (n : ℕ) : reasonLoop rules n s = s := by
        cases n with
        | zero => rfl
        | succ n =>
          rw [reasonLoop, eq]
          simp [derived]
      rw [stop, stop, stop]
    | cons step steps =>
      have go (n : ℕ) : reasonLoop rules (n + 1) s = reasonLoop rules n
          ⟨s.known ++ derived (step :: steps), s.chain ++ (step :: steps), s.iteration + 1⟩ := by
        rw [reasonLoop, eq]
        simp [derived]
      rw [go, go, ih]

/-- What holds after `k` rounds. -/
structure Kept (rules : List (Rule C)) (facts : List (Fact C)) (k : ℕ) (s : Reasoned C) : Prop where
  known : s.known = facts ++ derived s.chain
  nodup : (derived s.chain).Nodup
  unknown : ∀ f ∈ derived s.chain, f ∉ facts
  justified : ∀ step ∈ s.chain, Justified rules step
  /-- It has ended before if nothing new can be inferred. -/
  closed : s.iteration < k → Closed (Infers rules) {f | f ∈ s.known}

theorem Kept.advance {k : ℕ} {s : Reasoned C} (kept : Kept rules facts k s) :
    Kept rules facts (k + 1) (reasonLoop rules 1 s) ∧ ∀ f, f ∈ (reasonLoop rules 1 s).known ↔
      f ∈ s.known ∨ ∃ premises, Infers rules premises f ∧ ∀ p ∈ premises, p ∈ s.known := by
  obtain ⟨steps, eq, ok, spec⟩ := inferAll_spec rules s.known s.chain
  cases steps with
  | nil =>
    have stop : reasonLoop rules 1 s = s := by
      rw [reasonLoop, eq]
      simp [derived]
    simp only [derived, List.map_nil, List.not_mem_nil, or_false] at spec
    rw [stop]
    exact ⟨⟨kept.known, kept.nodup, kept.unknown, kept.justified,
      fun _ premises f infers mem => (spec f).2 (.inr ⟨premises, infers, mem⟩)⟩, spec⟩
  | cons step steps =>
    have go : reasonLoop rules 1 s =
        ⟨s.known ++ derived (step :: steps), s.chain ++ (step :: steps), s.iteration + 1⟩ := by
      rw [reasonLoop, eq]
      simp [derived, reasonLoop]
    have known (f : Fact C) : f ∈ s.known ++ derived (step :: steps) ↔
        f ∈ s.known ∨ ∃ premises, Infers rules premises f ∧ ∀ p ∈ premises, p ∈ s.known :=
      List.mem_append.trans (spec f)
    rw [go]
    refine ⟨⟨?_, ?_, ?_, ?_, ?_⟩, known⟩
    · simp only [kept.known, derived, List.map_append, List.append_assoc]
    · simp only [derived, List.map_append]
      refine List.nodup_append.2 ⟨kept.nodup, ok.nodup, fun f old g new same => ok.unknown g new ?_⟩
      rw [kept.known, ← same]
      exact List.mem_append_right _ old
    · simp only [derived, List.map_append, List.mem_append]
      rintro f (old | new) given
      · exact kept.unknown f old given
      · refine ok.unknown f new ?_
        rw [kept.known]
        exact List.mem_append_left _ given
    · exact fun d mem => (List.mem_append.1 mem).elim (kept.justified d) (ok.justified d)
    · intro early
      -- the round before found something, so what was known before it was not closed
      have new : step.derivedFact ∈ derived (step :: steps) := List.mem_cons_self
      rcases (spec step.derivedFact).1 (.inr new) with old | ⟨premises, infers, mem⟩
      · exact absurd old (ok.unknown _ new)
      · exact absurd (kept.closed (Nat.lt_of_succ_lt_succ early) premises _ infers mem) (ok.unknown _ new)

variable (engine : ReasoningEngine C) (facts)

theorem rounds_kept (k : ℕ) : Kept engine.rules facts k (engine.rounds facts k) := by
  induction k with
  | zero =>
    rw [ReasoningEngine.rounds, reasonLoop]
    exact ⟨by simp [derived], List.nodup_nil, by simp [derived], by simp, by simp⟩
  | succ k ih =>
    rw [ReasoningEngine.rounds, reasonLoop_add]
    exact ih.advance.1

/-- The facts known after `k` rounds are those with a derivation of a height at most `k`. -/
theorem mem_rounds_iff {k : ℕ} {f : Fact C} :
    f ∈ (engine.rounds facts k).known ↔ Derivable (Infers engine.rules) {f | f ∈ facts} k f := by
  refine @derivable_iff_of_rounds _ _ _ (fun k => {f | f ∈ (engine.rounds facts k).known}) rfl ?_ k f
  intro k f
  show f ∈ (engine.rounds facts (k + 1)).known ↔ _
  rw [ReasoningEngine.rounds, reasonLoop_add]
  exact (rounds_kept facts engine k).advance.2 f

theorem conclusions_eq : (engine.reason facts).conclusions = derived (engine.reason facts).chain := by
  have kept := rounds_kept facts engine engine.maxIterations
  rw [ReasoningEngine.reason]
  dsimp only
  rw [kept.known, List.filter_append, List.filter_eq_nil_iff.2 (by simp), List.nil_append, List.filter_eq_self]
  intro f mem
  simpa using kept.unknown f mem

/-- After `k` rounds exactly the facts that have a derivation of a height at most `k` are known.  No conclusion
appears twice.  When the engine ends early, the facts and conclusions are the closure of the facts under the
rules.  And each step of the chain applies the rule that it names to facts that it lists. -/
theorem reason_spec :
    (∀ k f, f ∈ (engine.rounds facts k).known ↔ Derivable (Infers engine.rules) {f | f ∈ facts} k f) ∧
    (∀ f, f ∈ (engine.rounds facts engine.maxIterations).known ↔
      f ∈ facts ∨ f ∈ (engine.reason facts).conclusions) ∧
    (engine.reason facts).conclusions.Nodup ∧
    ((engine.reason facts).iterationCount < engine.maxIterations →
      IsLeast {s | {f | f ∈ facts} ⊆ s ∧ Closed (Infers engine.rules) s}
        {f | f ∈ facts ∨ f ∈ (engine.reason facts).conclusions}) ∧
    ∀ step ∈ (engine.reason facts).chain, ∃ rule ∈ engine.rules, rule.name = step.rule ∧
      ∃ premises, rule.Applies premises step.derivedFact ∧ ∀ p ∈ premises, p ∈ step.sourceFacts := by
  have kept := rounds_kept facts engine engine.maxIterations
  have known (f : Fact C) : f ∈ (engine.rounds facts engine.maxIterations).known ↔
      f ∈ facts ∨ f ∈ (engine.reason facts).conclusions := by
    rw [conclusions_eq, kept.known, List.mem_append]
    rfl
  refine ⟨fun k f => mem_rounds_iff facts engine, known, ?_, fun early => ?_, kept.justified⟩
  · rw [conclusions_eq]
    exact kept.nodup
  · rw [← Set.ext known]
    refine isLeast_of_closed (fun f mem => (known f).2 (.inl mem)) (kept.closed early) fun f mem => ?_
    exact ⟨_, (mem_rounds_iff facts engine).1 mem⟩

/-- A chain of two facts of one relation. -/
example : let isA subject object := (⟨"is_a", subject, some object, 10⟩ : Fact ℕ)
    let transitive : Rule ℕ :=
      ⟨"transitive_is_a", [("is_a", "$X", some "$Y"), ("is_a", "$Y", some "$Z")], ("is_a", "$X", some "$Z"), 9⟩
    let facts := [isA "Rust" "systems", isA "systems" "language"]
    ((ReasoningEngine.withRules [transitive]).reason facts).conclusions =
      [⟨"is_a", "Rust", some "language", 9⟩] := by
  decide

end TORdex.Reasoning
