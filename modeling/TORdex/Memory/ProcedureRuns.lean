import TORdex.Memory.Procedural

/-!
# Runs of procedures

Which calls a procedure makes depends on which procedures succeed: it makes those of its steps up to the first
one that stops it, and the fallbacks of those of these steps that fail.  It returns exactly if these calls
lead into no cycle.
-/

open Relation

namespace TORdex.Procedural.DefaultProceduralMemory

variable {m : DefaultProceduralMemory} {succeeds : String → Bool} {call call' : Calls} {c : ExecuteCall}
  {steps : List ProcedureStep} {results : List StepResult}

/-! ## What a procedure calls -/

section Marks

variable (m : DefaultProceduralMemory) (succeeds : String → Bool)

/-- A step goes well, if these procedures succeed. -/
def goesWell (step : ProcedureStep) : Bool :=
  match step.kind with
  | .agent agentName => m.agents.any (· == agentName)
  | .processor processorId => m.processors.any (· == processorId)
  | .subProcedure procedureName => (m.procedures.lookup procedureName).isSome && succeeds procedureName
  | _ => true

/-- The steps behind a step are run. -/
def goesOn (step : ProcedureStep) : Bool :=
  m.goesWell succeeds step ||
    match step.onFailure with
    | .abort => false
    | .retry _ | .skip => true
    | .fallback procedureName => (m.procedures.lookup procedureName).isSome

/-- The steps that are run. -/
def reachedSteps : List ProcedureStep → List ProcedureStep
  | [] => []
  | step :: steps => if m.goesOn succeeds step then step :: reachedSteps steps else [step]

/-- The procedure that a step runs. -/
def subProcedureOf (step : ProcedureStep) : List String :=
  match step.kind with
  | .subProcedure procedureName => [procedureName]
  | _ => []

/-- The procedure that a step falls back to. -/
def fallbackOf (step : ProcedureStep) : List String :=
  match step.onFailure with
  | .fallback procedureName => [procedureName]
  | _ => []

/-- The procedures that a step calls. -/
def stepCalls (step : ProcedureStep) : List String :=
  subProcedureOf step ++ if m.goesWell succeeds step then [] else fallbackOf step

/-- The procedures that some steps call, as far as they are run. -/
def stepsCalls (steps : List ProcedureStep) : List String :=
  (m.reachedSteps succeeds steps).flatMap (m.stepCalls succeeds)

/-- The calls that a call makes. -/
def callsOf (c : ExecuteCall) : List ExecuteCall :=
  match m.procedures.lookup c.name with
  | none => []
  | some procedure => (m.stepsCalls succeeds procedure.steps).map fun name => { c with name }

/-- The procedure of this name succeeds as it is marked, if the others do. -/
def MarkedRight (name : String) : Prop :=
  ∀ procedure, m.procedures.lookup name = some procedure →
    succeeds name = procedure.steps.all (m.goesOn succeeds)

/-- The result of a call is as it is marked. -/
def Marked (name : String) : Except String ProcedureOutcome → Prop
  | .ok outcome => (m.procedures.lookup name).isSome ∧ outcome.success = succeeds name
  | .error _ => m.procedures.lookup name = none

end Marks

/-! ## One call -/

theorem stepsCalls_cons (step : ProcedureStep) (steps : List ProcedureStep) :
    m.stepsCalls succeeds (step :: steps) = m.stepCalls succeeds step ++
      if m.goesOn succeeds step then m.stepsCalls succeeds steps else [] := by
  rw [stepsCalls, reachedSteps]
  split_ifs
  · rfl
  · simp

/-- A step has a result if its sub-procedure has one. -/
theorem stepResult_isSome_iff (m : DefaultProceduralMemory) (call : Calls) (c : ExecuteCall)
    (step : ProcedureStep) :
    (m.stepResult call c step).isSome ↔
    ∀ name ∈ subProcedureOf step, (call { c with name }).isSome := by
  unfold stepResult subProcedureOf
  cases step.kind with
  | subProcedure procedureName =>
    simp only [List.forall_mem_singleton]
    rcases call { c with name := procedureName } with _ | ⟨_ | _⟩ <;> simp
  | _ => simp

/-- A step for an agent or a processor goes well if it is found. -/
theorem success_lookup (found : Bool) (step : ProcedureStep) (fields : List (String × Json)) (error : String) :
    (if found then StepResult.ok step fields else .fail step error).success = found := by
  cases found with
  | false => rfl
  | true => rfl

theorem stepResult_success {step : ProcedureStep} {result : StepResult}
    (h : m.stepResult call c step = some result)
    (marked : ∀ name ∈ subProcedureOf step, ∀ r, call { c with name } = some r → m.Marked succeeds name r) :
    result.success = m.goesWell succeeds step := by
  unfold stepResult at h
  unfold goesWell
  unfold subProcedureOf at marked
  cases kind : step.kind with
  | agent agentName =>
    rw [kind] at h
    obtain rfl := Option.some.inj h
    exact success_lookup _ step _ _
  | processor processorId =>
    rw [kind] at h
    obtain rfl := Option.some.inj h
    exact success_lookup _ step _ _
  | subProcedure procedureName =>
    rw [kind] at h marked
    have marked := marked procedureName (List.mem_singleton_self _)
    dsimp only at h ⊢
    split at h
    · cases h
    · rename_i outcome called
      obtain rfl := Option.some.inj h
      obtain ⟨stored, same⟩ := marked _ called
      rw [stored, Bool.true_and]
      exact same
    · rename_i e called
      obtain rfl := Option.some.inj h
      have absent : m.procedures.lookup procedureName = none := marked _ called
      rw [absent]
      rfl
  | _ =>
    rw [kind] at h
    obtain rfl := Option.some.inj h
    rfl

/-- A round has an outcome if the calls of its step have one, and it leads on where the step is marked so. -/
theorem runStep_spec {step : ProcedureStep} (results : List StepResult)
    (marked : ∀ name ∈ m.stepCalls succeeds step, ∀ r, call { c with name } = some r →
      m.Marked succeeds name r) :
    ((m.runStep call c results step).isSome ↔
      ∀ name ∈ m.stepCalls succeeds step, (call { c with name }).isSome) ∧
      (∀ loop, m.runStep call c results step = some (.inl loop) →
        m.goesOn succeeds step = false ∧ loop.success = false) ∧
      ∀ results', m.runStep call c results step = some (.inr results') → m.goesOn succeeds step = true := by
  have run := m.stepResult_isSome_iff call c step
  cases made : m.stepResult call c step with
  | none =>
    have stuck : m.runStep call c results step = none := by rw [runStep, made]
    rw [made] at run
    simp only [stuck, Option.isSome_none, Bool.false_eq_true, false_iff, reduceCtorEq, false_imp_iff,
      implies_true, and_true]
    exact fun all => absurd (run.2 fun name hname => all name (List.mem_append_left _ hname)) (by simp)
  | some result =>
    have subs : ∀ name ∈ subProcedureOf step, (call { c with name }).isSome := run.1 (by rw [made]; rfl)
    have well : result.success = m.goesWell succeeds step :=
      stepResult_success made fun name hname => marked name (List.mem_append_left _ hname)
    rw [runStep, made]
    dsimp only
    rw [well]
    unfold stepCalls goesOn
    unfold stepCalls at marked
    cases fails : m.goesWell succeeds step with
    | true => simpa using subs
    | false =>
      rw [fails] at marked
      cases action : step.onFailure with
      | fallback procedureName =>
        have mem : procedureName ∈ fallbackOf step := by
          rw [fallbackOf, action]
          exact List.mem_singleton_self _
        have marked := marked procedureName (List.mem_append_right _ mem)
        rcases called : call { c with name := procedureName } with _ | ⟨e | fb⟩
        · simp [fallbackOf, action, called]
        · have absent : m.procedures.lookup procedureName = none := marked _ called
          simpa [fallbackOf, action, called, absent, or_imp, forall_and] using subs
        · have stored := (marked _ called).1
          simpa [fallbackOf, action, called, stored, or_imp, forall_and] using subs
      | _ => simpa [fallbackOf, action] using subs

theorem runSteps_spec (results : List StepResult)
    (marked : ∀ name ∈ m.stepsCalls succeeds steps, ∀ r, call { c with name } = some r →
      m.Marked succeeds name r) :
    ((m.runSteps call c steps results).isSome ↔
      ∀ name ∈ m.stepsCalls succeeds steps, (call { c with name }).isSome) ∧
      ∀ loop, m.runSteps call c steps results = some loop → loop.success = steps.all (m.goesOn succeeds) := by
  induction steps generalizing results with
  | nil => exact ⟨by simp [runSteps, stepsCalls, reachedSteps], fun loop h => by cases h; rfl⟩
  | cons step steps ih =>
    rw [stepsCalls_cons] at marked ⊢
    obtain ⟨run, ends, leads⟩ := runStep_spec results fun name hname =>
      marked name (List.mem_append_left _ hname)
    rw [runSteps, List.all_cons]
    rcases made : m.runStep call c results step with _ | ⟨loop | results'⟩
    · rw [made, Option.isSome_none] at run
      refine ⟨iff_of_false Bool.false_ne_true fun all => ?_, fun loop h => by cases h⟩
      exact Bool.false_ne_true (run.2 fun name hname => all name (List.mem_append_left _ hname))
    · obtain ⟨stops, fails⟩ := ends loop made
      rw [made] at run
      rw [stops, if_neg Bool.false_ne_true, List.append_nil, Bool.false_and]
      exact ⟨run, fun loop' h => by cases h; exact fails⟩
    · have on := leads results' made
      rw [on, if_pos rfl] at marked ⊢
      rw [made] at run
      obtain ⟨later, success⟩ := ih results' fun name hname => marked name (List.mem_append_right _ hname)
      refine ⟨?_, by rwa [Bool.true_and]⟩
      rw [List.forall_mem_append]
      exact later.trans (and_iff_right (run.1 rfl)).symm

theorem executeWith_stored {r : Except String ProcedureOutcome} (h : m.executeWith call c = some r) :
    (m.procedures.lookup c.name).isSome ↔ ∃ outcome, r = .ok outcome := by
  unfold executeWith at h
  cases stored : m.procedures.lookup c.name with
  | none =>
    rw [stored] at h
    obtain rfl := Option.some.inj h
    simp
  | some procedure =>
    rw [stored] at h
    obtain ⟨loop, -, rfl⟩ := Option.map_eq_some_iff.1 h
    simp

theorem executeWith_spec (call : Calls)
    (marked : ∀ b ∈ m.callsOf succeeds c, ∀ r, call b = some r → m.Marked succeeds b.name r) :
    ((m.executeWith call c).isSome ↔ ∀ b ∈ m.callsOf succeeds c, (call b).isSome) ∧
      ∀ procedure outcome, m.procedures.lookup c.name = some procedure →
        m.executeWith call c = some (.ok outcome) →
        outcome.success = procedure.steps.all (m.goesOn succeeds) := by
  unfold callsOf at marked ⊢
  unfold executeWith
  cases stored : m.procedures.lookup c.name with
  | none => simp
  | some procedure =>
    rw [stored] at marked
    simp only [List.forall_mem_map, Option.isSome_map] at marked ⊢
    obtain ⟨run, success⟩ := runSteps_spec [] marked
    refine ⟨run, fun procedure' outcome found ended => ?_⟩
    obtain rfl := Option.some.inj found
    obtain ⟨loop, ran, same⟩ := Option.map_eq_some_iff.1 ended
    cases same
    exact success loop ran

/-! ## More calls that return -/

section Mono

variable (more : ∀ b r, call b = some r → call' b = some r)

include more

theorem stepResult_mono {step : ProcedureStep} {result : StepResult}
    (h : m.stepResult call c step = some result) :
    m.stepResult call' c step = some result := by
  unfold stepResult at h ⊢
  cases kind : step.kind with
  | subProcedure procedureName =>
    rw [kind] at h
    dsimp only at h ⊢
    cases called : call { c with name := procedureName } with
    | none => rw [called] at h; cases h
    | some answer => rwa [more _ _ called, ← called]
  | _ => rwa [kind] at h

theorem runStep_mono {step : ProcedureStep} {next : LoopEnd ⊕ List StepResult}
    (h : m.runStep call c results step = some next) : m.runStep call' c results step = some next := by
  unfold runStep at h ⊢
  cases made : m.stepResult call c step with
  | none => rw [made] at h; cases h
  | some result =>
    rw [made] at h
    rw [stepResult_mono more made]
    dsimp only at h ⊢
    split_ifs at h ⊢
    · cases action : step.onFailure with
      | fallback procedureName =>
        rw [action] at h
        dsimp only at h ⊢
        cases called : call { c with name := procedureName } with
        | none => rw [called] at h; cases h
        | some answer => rwa [more _ _ called, ← called]
      | _ => rwa [action] at h
    · exact h

theorem runSteps_mono {loop : LoopEnd} (h : m.runSteps call c steps results = some loop) :
    m.runSteps call' c steps results = some loop := by
  induction steps generalizing results with
  | nil => exact h
  | cons step steps ih =>
    unfold runSteps at h ⊢
    rcases made : m.runStep call c results step with _ | ⟨ended | results'⟩
    · rw [made] at h
      cases h
    · rw [made] at h
      rwa [runStep_mono more made]
    · rw [made] at h
      rw [runStep_mono more made]
      exact ih h

end Mono

theorem executeWith_mono : Recursion.Mono m.executeWith := by
  intro call call' more c r h
  unfold executeWith at h ⊢
  cases stored : m.procedures.lookup c.name with
  | none => rwa [stored] at h
  | some procedure =>
    rw [stored] at h
    obtain ⟨loop, ran, rfl⟩ := Option.map_eq_some_iff.1 h
    dsimp only
    rw [runSteps_mono more ran, Option.map_some]

/-! ## Which calls return -/

section Returning

variable {b : ExecuteCall} {n : ℕ}

theorem execute_succ (m : DefaultProceduralMemory) (n : ℕ) (c : ExecuteCall) :
    m.execute (n + 1) c = m.executeWith (m.execute n) c := rfl

/-- A chain of calls leads from one call to another one. -/
abbrev Reaches (m : DefaultProceduralMemory) (succeeds : String → Bool) : ExecuteCall → ExecuteCall → Prop :=
  ReflTransGen (Recursion.Makes (m.callsOf succeeds))

/-- The input and the session are handed on. -/
theorem Reaches.eq (reach : m.Reaches succeeds c b) : b = { c with name := b.name } := by
  induction reach with
  | refl => rfl
  | @tail b d _ makes ih =>
    unfold Recursion.Makes callsOf at makes
    cases stored : m.procedures.lookup b.name with
    | none => rw [stored] at makes; cases makes
    | some procedure =>
      rw [stored] at makes
      obtain ⟨name, -, rfl⟩ := List.mem_map.1 makes
      rw [ih]

theorem finite_reached (m : DefaultProceduralMemory) (succeeds : String → Bool) (c : ExecuteCall) :
    {b | m.Reaches succeeds c b ∧ m.callsOf succeeds b ≠ []}.Finite := by
  refine (m.procedures.keys.finite_toSet.image fun name => ({ c with name } : ExecuteCall)).subset ?_
  rintro b ⟨reach, calls⟩
  refine ⟨b.name, ?_, reach.eq.symm⟩
  rw [Finset.mem_coe, Finmap.mem_keys, ← Finmap.lookup_isSome]
  unfold callsOf at calls
  cases stored : m.procedures.lookup b.name with
  | none => rw [stored] at calls; exact absurd rfl calls
  | some procedure => rfl

section Marked

variable (marked : ∀ d ∈ m.callsOf succeeds b, ∀ n r, m.execute n d = some r → m.Marked succeeds d.name r)

include marked

theorem needs : Recursion.Needs m.executeWith (m.callsOf succeeds) b :=
  fun n => (executeWith_spec _ fun d hd r => marked d hd n r).1

theorem execute_success {procedure : Procedure} {outcome : ProcedureOutcome}
    (stored : m.procedures.lookup b.name = some procedure) (h : m.execute n b = some (.ok outcome)) :
    outcome.success = procedure.steps.all (m.goesOn succeeds) := by
  cases n with
  | zero => cases h
  | succ n => exact (executeWith_spec _ fun d hd r => marked d hd n r).2 procedure outcome stored h

end Marked

theorem execute_stored {r : Except String ProcedureOutcome} (h : m.execute n b = some r) :
    (m.procedures.lookup b.name).isSome ↔ ∃ outcome, r = .ok outcome := by
  cases n with
  | zero => cases h
  | succ n => exact executeWith_stored h

/-- Where the marks are right, what returns does so as it is marked. -/
theorem marked_of_execute (right : ∀ b, m.Reaches succeeds c b → m.MarkedRight succeeds b.name)
    (reach : m.Reaches succeeds c b) {r : Except String ProcedureOutcome} (h : m.execute n b = some r) :
    m.Marked succeeds b.name r := by
  induction n generalizing b r with
  | zero => cases h
  | succ n ih =>
    have stored := executeWith_stored h
    cases r with
    | error e => simpa [Marked] using stored
    | ok outcome =>
      have found := stored.2 ⟨outcome, rfl⟩
      obtain ⟨procedure, lookup⟩ := Option.isSome_iff_exists.1 found
      have spec := executeWith_spec (c := b) (m.execute n) fun d hd r => ih (reach.tail hd)
      exact ⟨found, (spec.2 procedure outcome lookup h).trans (right b reach procedure lookup).symm⟩

/-- The procedures that succeed when they are called with these arguments. -/
def Succeeds (m : DefaultProceduralMemory) (c : ExecuteCall) (name : String) : Prop :=
  ∃ outcome, m.Returns { c with name } (.ok outcome) ∧ outcome.success

open Classical in
theorem marked_succeeds (reach : m.Reaches succeeds c b) {r : Except String ProcedureOutcome}
    (h : m.execute n b = some r) : m.Marked (fun name => m.Succeeds c name) b.name r := by
  have stored := execute_stored h
  cases r with
  | error e => simpa [Marked] using stored
  | ok outcome =>
    have returns : m.Returns { c with name := b.name } (.ok outcome) := by
      rw [← reach.eq]
      exact (Recursion.returns_iff executeWith_mono).2 ⟨n, h⟩
    refine ⟨stored.2 ⟨outcome, rfl⟩, Bool.eq_iff_iff.2 ?_⟩
    rw [decide_eq_true_iff]
    refine ⟨fun success => ⟨outcome, returns, success⟩, ?_⟩
    rintro ⟨outcome', returns', success⟩
    cases returns.unique returns'
    exact success

/-- **A call returns exactly if the calls that it makes lead into no cycle.** -/
theorem execute_returns_iff (m : DefaultProceduralMemory) (c : ExecuteCall) :
    (∃ result, m.Returns c result) ↔ ∃ succeeds : String → Bool, ∀ b, m.Reaches succeeds c b →
      m.MarkedRight succeeds b.name ∧ ¬TransGen (Recursion.Makes (m.callsOf succeeds)) b b := by
  classical
  have start : (∃ result, m.Returns c result) ↔ ∃ n, (m.execute n c).isSome :=
    Recursion.exists_returns_iff executeWith_mono
  rw [start]
  constructor
  · rintro ⟨n, h⟩
    let succeeds (name : String) : Bool := m.Succeeds c name
    have marked {b : ExecuteCall} (reach : m.Reaches succeeds c b) :
        ∀ d ∈ m.callsOf succeeds b, ∀ n r, m.execute n d = some r → m.Marked succeeds d.name r :=
      fun d hd n r => marked_succeeds (reach.tail hd)
    refine ⟨succeeds, fun b reach => ⟨fun procedure stored => ?_, ?_⟩⟩
    · obtain ⟨k, ran⟩ := Recursion.exists_run_of_reach (fun b reach => needs (marked reach)) reach h
      obtain ⟨r, ran⟩ := Option.isSome_iff_exists.1 ran
      obtain ⟨outcome, rfl⟩ := (execute_stored ran).1 (by rw [stored]; rfl)
      have own : outcome.success = succeeds b.name := (marked_succeeds reach ran).2
      rw [← own]
      exact execute_success (marked reach) stored ran
    · exact Recursion.not_cycle_of_run (fun b reach => needs (marked reach)) h reach
  · rintro ⟨succeeds, right⟩
    exact Recursion.exists_run_of_no_cycle
      (fun b reach => needs fun d hd n r =>
        marked_of_execute (fun b reach => (right b reach).1) (reach.tail hd))
      executeWith_mono (finite_reached m succeeds c) fun b reach => (right b reach).2

/-- A procedure whose step is the procedure itself. -/
def selfProcedure : Procedure := ⟨.ofNat 0, "p", [⟨.subProcedure "p", "again", .abort⟩]⟩

/-- A memory with a procedure that runs itself. -/
def selfMemory : DefaultProceduralMemory := (new [] []).storeProcedure selfProcedure

theorem not_execute_returns : ¬∃ result, selfMemory.Returns ⟨"p", .null, ""⟩ result := by
  have stored : selfMemory.procedures.lookup "p" = some selfProcedure := Finmap.lookup_insert _
  have never (n : ℕ) : selfMemory.execute n ⟨"p", .null, ""⟩ = none := by
    induction n with
    | zero => rfl
    | succ n ih =>
      have stuck : selfMemory.runSteps (selfMemory.execute n) ⟨"p", .null, ""⟩ selfProcedure.steps [] =
          none := by
        simp [selfProcedure, runSteps, runStep, stepResult, ih]
      rw [execute_succ, executeWith, stored]
      dsimp only
      rw [stuck, Option.map_none]
  rintro ⟨result, n, returns⟩
  cases (never n).symm.trans (returns n le_rfl)

end Returning

end TORdex.Procedural.DefaultProceduralMemory
