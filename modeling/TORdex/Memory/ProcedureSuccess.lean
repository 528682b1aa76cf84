import Mathlib.Data.List.Forall2
import TORdex.Memory.ProcedureRuns

/-!
# What the success of a procedure tells

A step that fails is dealt with: its entry is marked as succeeded, or its fallback is executed.  A success is one of
the steps or of their fallbacks unless a failure is passed over.
-/

open Relation

namespace TORdex.Procedural

/-- The rounds of a retry mark a failed result as succeeded. -/
theorem retry_eq {result : StepResult} (fails : result.success = false) {rounds : ℕ} (pos : 0 < rounds) :
    retry rounds result = { result with success := true, error := none } := by
  have done (rounds : ℕ) {result : StepResult} (well : result.success = true) :
      retry rounds result = result := by
    induction rounds with
    | zero => rfl
    | succ rounds ih => rwa [retry, well, if_neg (by decide)]
  obtain ⟨rounds, rfl⟩ := Nat.exists_eq_add_of_le' pos
  rw [retry, fails, if_pos (by decide)]
  exact done rounds rfl

namespace DefaultProceduralMemory

variable {m : DefaultProceduralMemory} {call : Calls} {c : ExecuteCall} {step : ProcedureStep}
  {steps : List ProcedureStep} {results results' : List StepResult} {entry : StepResult}

/-- The entry of a step, in a loop that goes on behind it. -/
def Entry (m : DefaultProceduralMemory) (call : Calls) (c : ExecuteCall) (step : ProcedureStep)
    (entry : StepResult) : Prop :=
  ∃ result, m.stepResult call c step = some result ∧ (result.success = true ∧ entry = result ∨
    result.success = false ∧
      match step.onFailure with
      | .abort => False
      | .retry max => entry = retry max.toNat result
      | .skip => entry = result
      | .fallback procedureName => ∃ fb, call { c with name := procedureName } = some (.ok fb) ∧
        entry = ⟨step.name ++ " (fallback:" ++ procedureName ++ ")", fb.success, fb.output, fb.error⟩)

theorem exists_entry (h : m.runStep call c results step = some (.inr results')) :
    ∃ entry, results' = results ++ [entry] ∧ m.Entry call c step entry := by
  unfold runStep at h
  cases made : m.stepResult call c step with
  | none => rw [made] at h; cases h
  | some result =>
    rw [made] at h
    dsimp only at h
    cases success : result.success with
    | true =>
      rw [success] at h
      cases h
      exact ⟨result, rfl, result, made, .inl ⟨success, rfl⟩⟩
    | false =>
      rw [success, if_pos (by decide)] at h
      unfold Entry
      cases action : step.onFailure with
      | abort => rw [action] at h; cases h
      | retry max =>
        rw [action] at h
        cases h
        exact ⟨_, rfl, result, made, .inr ⟨success, rfl⟩⟩
      | skip =>
        rw [action] at h
        cases h
        exact ⟨_, rfl, result, made, .inr ⟨success, rfl⟩⟩
      | fallback procedureName =>
        rw [action] at h
        dsimp only at h
        rcases called : call { c with name := procedureName } with _ | ⟨e | fb⟩
        · rw [called] at h; cases h
        · rw [called] at h; cases h
        · rw [called] at h
          cases h
          exact ⟨_, rfl, result, made, .inr ⟨success, fb, called, rfl⟩⟩

theorem not_success_of_ends {loop : LoopEnd} (h : m.runStep call c results step = some (.inl loop)) :
    loop.success = false := by
  unfold runStep at h
  repeat' split at h
  all_goals cases h
  all_goals rfl

/-- A loop that succeeds has an entry for each step. -/
theorem forall₂_entry {loop : LoopEnd} (h : m.runSteps call c steps results = some loop)
    (success : loop.success = true) :
    ∃ entries, loop.stepResults = results ++ entries ∧ List.Forall₂ (m.Entry call c) steps entries := by
  induction steps generalizing results with
  | nil =>
    cases h
    exact ⟨[], (List.append_nil results).symm, .nil⟩
  | cons step steps ih =>
    unfold runSteps at h
    rcases made : m.runStep call c results step with _ | ⟨ended | results'⟩
    · rw [made] at h; cases h
    · rw [made] at h
      cases h
      rw [not_success_of_ends made] at success
      cases success
    · rw [made] at h
      obtain ⟨entries, all, later⟩ := ih h
      obtain ⟨entry, rfl, own⟩ := exists_entry made
      exact ⟨entry :: entries, by rw [all, List.append_assoc, List.singleton_append], .cons own later⟩

/-- Executing a step leads to this result. -/
def StepReturns (m : DefaultProceduralMemory) (c : ExecuteCall) (step : ProcedureStep) (result : StepResult) :
    Prop :=
  ∃ fuel, m.stepResult (m.execute fuel) c step = some result

/-- A step succeeded, or its failure was dealt with: the entry marks it as succeeded, or its fallback returned
an outcome. -/
def Recorded (m : DefaultProceduralMemory) (c : ExecuteCall) (step : ProcedureStep) (entry : StepResult) :
    Prop :=
  ∃ result, m.StepReturns c step result ∧ (result.success = true ∧ entry = result ∨
    result.success = false ∧
      match step.onFailure with
      | .abort => False
      | .retry max => 0 < max → entry = { result with success := true, error := none }
      | .skip => entry = result
      | .fallback procedureName => ∃ fb, m.Returns { c with name := procedureName } (.ok fb) ∧
        entry = ⟨step.name ++ " (fallback:" ++ procedureName ++ ")", fb.success, fb.output, fb.error⟩)

theorem Entry.recorded {fuel : ℕ} (h : m.Entry (m.execute fuel) c step entry) : m.Recorded c step entry := by
  obtain ⟨result, made, dealt⟩ := h
  refine ⟨result, ⟨fuel, made⟩, dealt.imp_right fun ⟨fails, dealt⟩ => ⟨fails, ?_⟩⟩
  cases action : step.onFailure with
  | abort => rwa [action] at dealt
  | retry max =>
    rw [action] at dealt
    exact fun pos => dealt.trans (retry_eq fails (UInt32.lt_iff_toNat_lt.1 pos))
  | skip => rwa [action] at dealt
  | fallback procedureName =>
    rw [action] at dealt
    obtain ⟨fb, called, eq⟩ := dealt
    exact ⟨fb, (Recursion.returns_iff executeWith_mono).2 ⟨fuel, called⟩, eq⟩

/-- **A success has one entry for each step**, which succeeded or whose failure was dealt with. -/
theorem recorded_of_success {outcome : ProcedureOutcome} (h : m.Returns c (.ok outcome))
    (success : outcome.success = true) :
    ∃ procedure, m.procedures.lookup c.name = some procedure ∧
      List.Forall₂ (m.Recorded c) procedure.steps outcome.stepResults := by
  obtain ⟨fuel, ran⟩ := h
  have ran := ran (fuel + 1) fuel.le_succ
  change m.executeWith (m.execute fuel) c = some (.ok outcome) at ran
  unfold executeWith at ran
  cases stored : m.procedures.lookup c.name with
  | none => rw [stored] at ran; cases ran
  | some procedure =>
    rw [stored] at ran
    obtain ⟨loop, done, same⟩ := Option.map_eq_some_iff.1 ran
    cases same
    obtain ⟨entries, all, each⟩ := forall₂_entry done success
    rw [List.nil_append] at all
    exact ⟨procedure, rfl, all ▸ each.imp fun _ _ => Entry.recorded⟩

/-- A success as it is meant: the steps succeeded, or their fallbacks did. -/
def ReallySucceeded (m : DefaultProceduralMemory) (c : ExecuteCall) (outcome : ProcedureOutcome) : Prop :=
  ∃ procedure, m.procedures.lookup c.name = some procedure ∧
    outcome.stepResults.length = procedure.steps.length ∧
    ∀ step ∈ procedure.steps, step.onFailure ≠ .skip →
      (∃ result, m.StepReturns c step result ∧ result.success = true) ∨
        ∃ procedureName fb, step.onFailure = .fallback procedureName ∧
          m.Returns { c with name := procedureName } (.ok fb) ∧ fb.success = true

/-- A failing step is marked as retried, or it falls back on a procedure that does not succeed. -/
def PassedOver (m : DefaultProceduralMemory) (succeeds : String → Bool) (step : ProcedureStep) : Prop :=
  m.goesWell succeeds step = false ∧
    match step.onFailure with
    | .retry _ => True
    | .fallback procedureName => succeeds procedureName = false
    | _ => False

/-- A step stops the procedure of this name, or none of its failures is passed over. -/
def FailuresCount (m : DefaultProceduralMemory) (succeeds : String → Bool) (name : String) : Prop :=
  ∀ procedure, m.procedures.lookup name = some procedure →
    (∃ step ∈ procedure.steps, m.goesOn succeeds step = false) ∨ ∀ step ∈ procedure.steps, ¬m.PassedOver succeeds step

/-! ## Marks of the procedures that succeed -/

section Marks

variable {succeeds : String → Bool} {procedure : Procedure}
  (right : ∀ b, m.Reaches succeeds c b → m.MarkedRight succeeds b.name)
  (stored : m.procedures.lookup c.name = some procedure)

include right stored

/-- A procedure that is called is marked as it returns. -/
theorem marked_of_calls {name : String} (calls : name ∈ m.stepsCalls succeeds procedure.steps)
    {r : Except String ProcedureOutcome} (returns : m.Returns { c with name } r) : m.Marked succeeds name r := by
  have made : Recursion.Makes (m.callsOf succeeds) c { c with name } := by
    show { c with name } ∈ m.callsOf succeeds c
    rw [callsOf, stored]
    exact List.mem_map_of_mem calls
  obtain ⟨fuel, ran⟩ := (Recursion.returns_iff executeWith_mono).1 returns
  exact marked_of_execute right (ReflTransGen.single made) ran

theorem success_eq {outcome : ProcedureOutcome} (returns : m.Returns c (.ok outcome)) :
    outcome.success = procedure.steps.all (m.goesOn succeeds) := by
  obtain ⟨fuel, ran⟩ := (Recursion.returns_iff executeWith_mono).1 returns
  have own := (marked_of_execute right .refl ran).2
  rw [own, right c .refl procedure stored]

variable (all : ∀ step ∈ procedure.steps, m.goesOn succeeds step = true)

include all

omit right stored in
theorem mem_stepsCalls (mem : step ∈ procedure.steps) {name : String} (calls : name ∈ m.stepCalls succeeds step) :
    name ∈ m.stepsCalls succeeds procedure.steps := by
  have reached : ∀ steps : List ProcedureStep, (∀ step ∈ steps, m.goesOn succeeds step = true) →
      m.reachedSteps succeeds steps = steps := by
    intro steps all
    induction steps with
    | nil => rfl
    | cons step steps ih =>
      rw [reachedSteps, if_pos (all step List.mem_cons_self), ih fun s h => all s (List.mem_cons_of_mem _ h)]
  rw [stepsCalls, reached _ all]
  exact List.mem_flatMap.2 ⟨step, mem, calls⟩

/-- A step of a procedure that runs to its end succeeds as it is marked. -/
theorem success_of_stepReturns (mem : step ∈ procedure.steps) {result : StepResult}
    (returns : m.StepReturns c step result) : result.success = m.goesWell succeeds step := by
  obtain ⟨fuel, made⟩ := returns
  refine stepResult_success made fun name sub r ran => ?_
  exact marked_of_calls right stored (mem_stepsCalls all mem (List.mem_append_left _ sub))
    ((Recursion.returns_iff executeWith_mono).2 ⟨fuel, ran⟩)

/-- The fallback of a failing step succeeds as it is marked. -/
theorem success_of_fallback (mem : step ∈ procedure.steps) (fails : m.goesWell succeeds step = false)
    {name : String} (action : step.onFailure = .fallback name) {fb : ProcedureOutcome}
    (returns : m.Returns { c with name } (.ok fb)) : fb.success = succeeds name := by
  have called : name ∈ m.stepCalls succeeds step := by
    rw [stepCalls, fails, fallbackOf, action]
    simp
  exact (marked_of_calls right stored (mem_stepsCalls all mem called) returns).2

end Marks

theorem exists_of_forall₂ {α β : Type} {R : α → β → Prop} {as : List α} {bs : List β} (h : List.Forall₂ R as bs)
    {a : α} (mem : a ∈ as) : ∃ b, R a b := by
  induction h with
  | nil => cases mem
  | cons own _ ih =>
    rcases List.mem_cons.1 mem with rfl | mem
    · exact ⟨_, own⟩
    · exact ih mem

/-- **A success is a success of the steps or of their fallbacks exactly if no failure is passed over**, in a procedure
that no step stops. -/
theorem reallySucceeded_iff (m : DefaultProceduralMemory) (c : ExecuteCall)
    (returns : ∃ result, m.Returns c result) :
    (∀ outcome, m.Returns c (.ok outcome) → outcome.success = true → m.ReallySucceeded c outcome) ↔
      ∃ succeeds : String → Bool, (∀ b, m.Reaches succeeds c b → m.MarkedRight succeeds b.name) ∧
        m.FailuresCount succeeds c.name := by
  constructor
  · intro real
    obtain ⟨succeeds, marks⟩ := (execute_returns_iff m c).1 returns
    have right : ∀ b, m.Reaches succeeds c b → m.MarkedRight succeeds b.name := fun b reach => (marks b reach).1
    refine ⟨succeeds, right, fun procedure stored => or_iff_not_imp_left.2 fun none => ?_⟩
    have all : ∀ step ∈ procedure.steps, m.goesOn succeeds step = true := fun step mem => by
      by_contra stops
      exact none ⟨step, mem, Bool.eq_false_iff.2 stops⟩
    obtain ⟨result, returned⟩ := returns
    obtain ⟨outcome, rfl⟩ : ∃ outcome, result = .ok outcome := by
      obtain ⟨fuel, ran⟩ := (Recursion.returns_iff executeWith_mono).1 returned
      exact (execute_stored ran).1 (by rw [stored]; rfl)
    have success : outcome.success = true := by
      rw [success_eq right stored returned, List.all_eq_true]
      exact all
    obtain ⟨procedure', stored', -, each⟩ := real outcome returned success
    obtain rfl := Option.some.inj (stored.symm.trans stored')
    rintro step mem ⟨fails, passed⟩
    have own : step.onFailure ≠ .skip := fun skip => by rw [skip] at passed; exact passed
    rcases each step mem own with ⟨result, made, well⟩ | ⟨name, fb, action, ran, well⟩
    · rw [success_of_stepReturns right stored all mem made, fails] at well
      cases well
    · rw [action] at passed
      rw [success_of_fallback right stored all mem fails action ran, passed] at well
      cases well
  · rintro ⟨succeeds, right, counts⟩ outcome returned success
    obtain ⟨procedure, stored, entries⟩ := recorded_of_success returned success
    have all : ∀ step ∈ procedure.steps, m.goesOn succeeds step = true :=
      List.all_eq_true.1 ((success_eq right stored returned).symm.trans success)
    have none : ∀ step ∈ procedure.steps, ¬m.PassedOver succeeds step :=
      (counts procedure stored).resolve_left fun ⟨step, mem, stops⟩ => by
        rw [all step mem] at stops
        cases stops
    refine ⟨procedure, stored, entries.length_eq.symm, fun step mem own => ?_⟩
    obtain ⟨entry, result, made, dealt⟩ := exists_of_forall₂ entries mem
    have marked := success_of_stepReturns right stored all mem made
    rcases dealt with ⟨well, -⟩ | ⟨fails, dealt⟩
    · exact .inl ⟨result, made, well⟩
    rw [marked] at fails
    cases action : step.onFailure with
    | abort => rw [action] at dealt; cases dealt
    | retry max => exact absurd ⟨fails, by rw [action]; trivial⟩ (none step mem)
    | skip => exact absurd action own
    | fallback name =>
      rw [action] at dealt
      obtain ⟨fb, ran, -⟩ := dealt
      refine .inr ⟨name, fb, rfl, ran, ?_⟩
      rw [success_of_fallback right stored all mem fails action ran]
      by_contra unsuccessful
      exact none step mem ⟨fails, by rw [action]; exact Bool.eq_false_iff.2 unsuccessful⟩

/-! ## A fallback that succeeds, and one that does not -/

/-- A procedure whose agent is there, and one that falls back on it and then calls it. -/
def helpedMemory : DefaultProceduralMemory :=
  ((new ["helper"] []).storeProcedure ⟨.ofNat 0, "q", [⟨.agent "helper", "help", .abort⟩]⟩).storeProcedure
    ⟨.ofNat 0, "p", [⟨.agent "missing", "look", .fallback "q"⟩, ⟨.subProcedure "q", "again", .abort⟩]⟩

theorem forall_helped {P : Procedure → Prop} (q : P ⟨.ofNat 0, "q", [⟨.agent "helper", "help", .abort⟩]⟩)
    (p : P ⟨.ofNat 0, "p", [⟨.agent "missing", "look", .fallback "q"⟩, ⟨.subProcedure "q", "again", .abort⟩]⟩)
    {name : String} {procedure : Procedure} (stored : helpedMemory.procedures.lookup name = some procedure) :
    P procedure := by
  unfold helpedMemory storeProcedure at stored
  by_cases isP : name = "p"
  · rw [isP, Finmap.lookup_insert] at stored
    exact Option.some.inj stored ▸ p
  rw [Finmap.lookup_insert_of_ne _ isP] at stored
  by_cases isQ : name = "q"
  · rw [isQ, Finmap.lookup_insert] at stored
    exact Option.some.inj stored ▸ q
  · rw [Finmap.lookup_insert_of_ne _ isQ] at stored
    cases stored

/-- A failing step whose fallback succeeds, and a step that calls a procedure. -/
theorem reallySucceeded_helped : ∃ outcome, helpedMemory.Returns ⟨"p", .null, ""⟩ (.ok outcome) ∧
    outcome.stepResults.map (·.stepName) = ["look (fallback:q)", "again"] ∧ outcome.success = true ∧
      helpedMemory.ReallySucceeded ⟨"p", .null, ""⟩ outcome := by
  obtain ⟨outcome, ran, names, success⟩ : ∃ outcome, helpedMemory.execute 2 ⟨"p", .null, ""⟩ = some (.ok outcome) ∧
      outcome.stepResults.map (·.stepName) = ["look (fallback:q)", "again"] ∧ outcome.success = true :=
    ⟨_, rfl, rfl, rfl⟩
  have returns := (Recursion.returns_iff executeWith_mono).2 ⟨2, ran⟩
  refine ⟨outcome, returns, names, success, (reallySucceeded_iff helpedMemory _ ⟨_, returns⟩).2
    ⟨fun _ => true, fun b _ procedure stored => ?_, fun procedure stored => .inr ?_⟩ outcome returns success⟩
  · exact forall_helped (P := fun p => true = p.steps.all _) rfl rfl stored
  · refine forall_helped (P := fun p => ∀ step ∈ p.steps, ¬PassedOver _ _ step) ?_ ?_ stored
    · simp [PassedOver]
    · simp [PassedOver]

/-- A procedure that looks for an agent that is missing. -/
def looking (name : String) (onFailure : FailureAction) : Procedure :=
  ⟨.ofNat 0, name, [⟨.agent "missing", "look", onFailure⟩]⟩

/-- A procedure that aborts, and one that falls back on it. -/
def lookingMemory : DefaultProceduralMemory :=
  ((new [] []).storeProcedure (looking "q" .abort)).storeProcedure (looking "p" (.fallback "q"))

/-- What the second one returns. -/
def lookingOutcome : ProcedureOutcome :=
  ⟨.ofNat 0, true, [⟨"look (fallback:q)", false, none, some "agent 'missing' not found"⟩], none, none⟩

theorem lookup_p : lookingMemory.procedures.lookup "p" = some (looking "p" (.fallback "q")) :=
  Finmap.lookup_insert _

theorem lookup_q : lookingMemory.procedures.lookup "q" = some (looking "q" .abort) :=
  (Finmap.lookup_insert_of_ne _ (by decide)).trans (Finmap.lookup_insert _)

theorem execute_q (n : ℕ) : lookingMemory.execute (n + 1) ⟨"q", .null, ""⟩ = some (.ok ⟨.ofNat 0, false,
    [⟨"look", false, none, some "agent 'missing' not found"⟩], none, some "agent 'missing' not found"⟩) := by
  rw [execute_succ, executeWith, lookup_q]
  rfl

theorem returns_lookingOutcome : lookingMemory.Returns ⟨"p", .null, ""⟩ (.ok lookingOutcome) := by
  refine (Recursion.returns_iff executeWith_mono).2 ⟨2, ?_⟩
  show lookingMemory.execute (1 + 1) ⟨"p", .null, ""⟩ = _
  rw [execute_succ, executeWith, lookup_p]
  have step : lookingMemory.runStep (lookingMemory.execute 1) ⟨"p", .null, ""⟩ []
      ⟨.agent "missing", "look", .fallback "q"⟩ = some (.inr lookingOutcome.stepResults) := by
    simp only [runStep, stepResult, execute_q 0]
    rfl
  simp only [looking, runSteps, step]
  rfl

/-- The procedure succeeds although its step fails and so does the procedure it falls back on. -/
theorem not_reallySucceeded : ¬ ∀ (m : DefaultProceduralMemory) (c : ExecuteCall) (outcome : ProcedureOutcome),
    m.Returns c (.ok outcome) → outcome.success = true → m.ReallySucceeded c outcome := by
  intro h
  obtain ⟨procedure, stored, -, each⟩ := h _ _ _ returns_lookingOutcome rfl
  obtain rfl := Option.some.inj (lookup_p.symm.trans stored)
  rcases each _ List.mem_cons_self (by simp) with ⟨result, ⟨fuel, made⟩, success⟩ | ⟨name, fb, action, ran, success⟩
  · obtain rfl : StepResult.fail _ _ = result := Option.some.inj made
    cases success
  · obtain rfl := FailureAction.fallback.inj action
    have inner := (Recursion.returns_iff executeWith_mono).2 ⟨1, execute_q 0⟩
    obtain rfl := Except.ok.inj (ran.unique inner)
    cases success

end DefaultProceduralMemory

end TORdex.Procedural
