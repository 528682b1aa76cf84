import TORdex.Vm.Effect

/-!
# Calls and returns

A call pushes its own address, and the matching return goes back to it: between them the return stack
grows and shrinks as the calls nest.  The call is executed again.
-/

namespace TORdex.Vm

namespace Executor

variable {W : Type} {svc : Services W}

/-- One round of the loop of `execute`, when the loop goes on. -/
def round (svc : Services W) (ctx : ExecutionContext W) : Option (ExecutionContext W) :=
  match step svc ctx with
  | (.ok .continued, ctx) => some { ctx with cycles := ctx.cycles + 1 }
  | (.ok (.called addr), ctx) =>
    some { ctx with
      cycles := ctx.cycles + 1
      returnStack := ctx.pc :: ctx.returnStack
      pc := addr }
  | (.ok (.returned addr), ctx) => some { ctx with cycles := ctx.cycles + 1, pc := addr }
  | _ => none

/-- The loop is its rounds. -/
theorem executeLoop_round {ctx ctx' : ExecutionContext W} (h : round svc ctx = some ctx') (n : ℕ) :
    executeLoop svc (n + 1) ctx = executeLoop svc n ctx' := by
  simp only [executeLoop]
  unfold round at h
  generalize step svc ctx = stepped at h ⊢
  obtain ⟨result, next⟩ := stepped
  match result with
  | .error e | .ok .halted | .ok (.failed _) => cases h
  | .ok .continued | .ok (.called _) | .ok (.returned _) =>
    cases h
    rfl

/-- The instruction at the program counter. -/
def fetch (ctx : ExecutionContext W) : Option Instruction := ctx.program.instructions[ctx.pc]?

/-- The opcode at the program counter. -/
def fetchOpcode (ctx : ExecutionContext W) : Option Opcode := (fetch ctx).map (·.opcode)

/-- Rounds in which calls and returns are properly nested. -/
inductive Nested (svc : Services W) : ExecutionContext W → ExecutionContext W → Prop
  | done (ctx) : Nested svc ctx ctx
  | plain {ctx next last} (call : fetchOpcode ctx ≠ some .call) (ret : fetchOpcode ctx ≠ some .ret)
    (here : round svc ctx = some next) (rest : Nested svc next last) : Nested svc ctx last
  | call {ctx entry exit back last} (call : fetchOpcode ctx = some .call)
    (enter : round svc ctx = some entry) (body : Nested svc entry exit)
    (ret : fetchOpcode exit = some .ret) (leave : round svc exit = some back)
    (rest : Nested svc back last) : Nested svc ctx last

/-- The execution calls at `ctx`, and the matching return leads to `back`. -/
def CallReturns (svc : Services W) (ctx back : ExecutionContext W) : Prop :=
  ∃ entry exit, fetchOpcode ctx = some .call ∧ round svc ctx = some entry ∧ Nested svc entry exit ∧
    fetchOpcode exit = some .ret ∧ round svc exit = some back

/-! ## What a round does to the return stack -/

/-- The result of an instruction that is neither a call nor a return. -/
def Ordinary (ctx : ExecutionContext W) (r : Except String StepResult × ExecutionContext W) : Prop :=
  r.2.returnStack = ctx.returnStack ∧ (∀ addr, r.1 ≠ .ok (.called addr)) ∧
    ∀ addr, r.1 ≠ .ok (.returned addr)

/-- Every instruction but `call` and `ret` leaves the return stack alone. -/
theorem ordinary_exec {instr : Instruction} {ctx : ExecutionContext W} (call : instr.opcode ≠ .call)
    (ret : instr.opcode ≠ .ret) : Ordinary ctx (exec svc instr ctx) := by
  have effect := Effect.of_exec svc instr ctx
  generalize exec svc instr ctx = executed at effect ⊢
  cases effect with
  | refused | dropped | advanced | jumped | halted => exact ⟨rfl, nofun, nofun⟩
  | called isCall => exact absurd isCall call
  | returned isRet => exact absurd isRet ret

/-! ## Rounds -/

section Rounds

variable {ctx next : ExecutionContext W}

theorem fetchOpcode_eq {op : Opcode} (h : fetchOpcode ctx = some op) :
    ∃ instr, ctx.program.instructions[ctx.pc]? = some instr ∧ instr.opcode = op := by
  unfold fetchOpcode fetch at h
  simpa using h

theorem round_plain (call : fetchOpcode ctx ≠ some .call) (ret : fetchOpcode ctx ≠ some .ret)
    (h : round svc ctx = some next) : next.returnStack = ctx.returnStack := by
  unfold round step at h
  cases hf : ctx.program.instructions[ctx.pc]? with
  | none =>
    simp only [hf] at h
    cases h
  | some instr =>
    have notCall : instr.opcode ≠ .call := by simpa [fetchOpcode, fetch, hf] using call
    have notRet : instr.opcode ≠ .ret := by simpa [fetchOpcode, fetch, hf] using ret
    have ordinary : Ordinary ctx (exec svc instr ctx) := ordinary_exec notCall notRet
    simp only [hf] at h
    generalize exec svc instr ctx = executed at h ordinary
    obtain ⟨result, after⟩ := executed
    match result with
    | .error _ | .ok .halted | .ok (.failed _) => cases h
    | .ok .continued =>
      cases h
      exact ordinary.1
    | .ok (.called addr) => exact absurd rfl (ordinary.2.1 addr)
    | .ok (.returned addr) => exact absurd rfl (ordinary.2.2 addr)

theorem round_call (call : fetchOpcode ctx = some .call) (h : round svc ctx = some next) :
    next.returnStack = ctx.pc :: ctx.returnStack := by
  obtain ⟨instr, hf, ho⟩ := fetchOpcode_eq call
  simp only [round, step, hf, exec, ho] at h
  cases h
  rfl

theorem round_ret (ret : fetchOpcode ctx = some .ret) {addr : ℕ} {stack : List ℕ}
    (hs : ctx.returnStack = addr :: stack) (h : round svc ctx = some next) :
    next.pc = addr ∧ next.returnStack = stack := by
  obtain ⟨instr, hf, ho⟩ := fetchOpcode_eq ret
  simp only [round, step, hf, exec, ho, hs] at h
  cases h
  exact ⟨rfl, rfl⟩

/-- Properly nested rounds leave the return stack as it was. -/
theorem Nested.returnStack {last : ExecutionContext W} (h : Nested svc ctx last) :
    last.returnStack = ctx.returnStack := by
  induction h with
  | done => rfl
  | plain call ret here _ ih => exact ih.trans (round_plain call ret here)
  | call call enter _ ret leave _ body rest =>
    have pushed := body.trans (round_call call enter)
    exact rest.trans (round_ret ret pushed leave).2

/-- Nested rounds are rounds of the loop. -/
theorem Nested.executeLoop_eq {last : ExecutionContext W} (h : Nested svc ctx last) :
    ∃ rounds, ∀ n, executeLoop svc (n + rounds) ctx = executeLoop svc n last := by
  induction h with
  | done => exact ⟨0, fun n => rfl⟩
  | plain _ _ here _ ih =>
    obtain ⟨rounds, ih⟩ := ih
    exact ⟨rounds + 1, fun n => (executeLoop_round here _).trans (ih n)⟩
  | call _ enter _ _ leave _ body rest =>
    obtain ⟨inner, body⟩ := body
    obtain ⟨outer, rest⟩ := rest
    refine ⟨outer + 1 + inner + 1, fun n => ?_⟩
    rw [show n + (outer + 1 + inner + 1) = n + outer + 1 + inner + 1 by omega,
      executeLoop_round enter, body, executeLoop_round leave, rest]

/-- The execution from a call to its matching return is a nesting of rounds. -/
theorem CallReturns.nested {back : ExecutionContext W} (h : CallReturns svc ctx back) :
    Nested svc ctx back := by
  obtain ⟨entry, exit, call, enter, body, ret, leave⟩ := h
  exact .call call enter body ret leave (.done back)

/-- The matching return goes back to the call itself. -/
theorem CallReturns.pc_eq {back : ExecutionContext W} (h : CallReturns svc ctx back) :
    back.pc = ctx.pc := by
  obtain ⟨entry, exit, call, enter, body, ret, leave⟩ := h
  exact (round_ret ret (body.returnStack.trans (round_call call enter)) leave).1

end Rounds

/-- Whatever the program and the execution: the loop that reaches a call and its matching return goes on
with an instruction that is not the one after the call. -/
theorem not_returns_after (ctx back : ExecutionContext W) (h : CallReturns svc ctx back) :
    (∃ rounds, ∀ n, executeLoop svc (n + rounds) ctx = executeLoop svc n back) ∧
      back.pc ≠ ctx.pc + 1 := by
  refine ⟨h.nested.executeLoop_eq, ?_⟩
  rw [h.pc_eq]
  omega

/-- A call of the return behind the `halt`. -/
def callProgram : Program :=
  { Program.new "call" with instructions := [Vm.call 2, halt, Vm.ret] }

/-- The context of the program with so many cycles done, at an address and with a return stack. -/
def callContext (cycles pc : ℕ) (returnStack : List ℕ) : ExecutionContext Unit :=
  { ExecutionContext.new callProgram () with cycles, pc, returnStack }

theorem callReturns_sample :
    CallReturns (echo fun _ => []) (callContext 0 0 []) (callContext 2 0 []) :=
  ⟨callContext 1 2 [0], callContext 1 2 [0], rfl, rfl, .done _, rfl, rfl⟩

theorem not_returns_after_sample : (callContext 2 0 []).pc ≠ 1 :=
  (not_returns_after _ _ callReturns_sample).2

/-- The call at address 0 is executed again after its return. -/
theorem call_returns_to_itself :
    CallReturns (echo fun _ => []) (callContext 0 0 []) (callContext 2 0 []) ∧
      (callContext 2 0 []).pc = 0 ∧ fetch (callContext 2 0 []) = some (Vm.call 2) :=
  ⟨callReturns_sample, rfl, rfl⟩

end Executor

end TORdex.Vm

/-!
## The running flag

`execute` sets the flag, and only the exit at a `halt` clears it: a step that fails leaves by a question
mark, and the last cycle by the condition of the loop.
-/

namespace TORdex.Vm

namespace Executor

variable {W : Type} {svc : Services W} {ctx next : ExecutionContext W}

/-- So many rounds of the loop. -/
def rounds (svc : Services W) : ℕ → ExecutionContext W → Option (ExecutionContext W)
  | 0, ctx => some ctx
  | n + 1, ctx => (round svc ctx).bind (rounds svc n)

/-- Fewer than `n` rounds lead to a `halt`. -/
def HaltsWithin (svc : Services W) (n : ℕ) (ctx : ExecutionContext W) : Prop :=
  ∃ k < n, ∃ last, rounds svc k ctx = some last ∧ fetchOpcode last = some .halt

theorem step_running (svc : Services W) (ctx : ExecutionContext W) :
    (step svc ctx).2.running = ctx.running := by
  unfold step
  cases ctx.program.instructions[ctx.pc]? with
  | none => rfl
  | some instr =>
    have effect := Effect.of_exec svc instr ctx
    dsimp only
    generalize exec svc instr ctx = executed at effect ⊢
    cases effect <;> rfl

theorem step_of_halt (halt : fetchOpcode ctx = some .halt) : step svc ctx = (.ok .halted, ctx) := by
  obtain ⟨instr, fetched, ho⟩ := fetchOpcode_eq halt
  simp only [step, fetched, exec, ho]

/-- The loop goes on, stands at a `halt`, or a step failed. -/
theorem round_cases (svc : Services W) (ctx : ExecutionContext W) :
    (∃ next, round svc ctx = some next ∧ next.running = ctx.running) ∨
      fetchOpcode ctx = some .halt ∨ round svc ctx = none ∧ ∃ e, (step svc ctx).1 = .error e := by
  have running := step_running svc ctx
  unfold round
  unfold step at running ⊢
  cases fetched : ctx.program.instructions[ctx.pc]? with
  | none => exact .inr (.inr ⟨rfl, _, rfl⟩)
  | some instr =>
    rw [fetched] at running
    have effect := Effect.of_exec svc instr ctx
    dsimp only at running ⊢
    generalize exec svc instr ctx = executed at effect running ⊢
    cases effect with
    | refused | dropped => exact .inr (.inr ⟨rfl, _, rfl⟩)
    | advanced | jumped | called | returned => exact .inl ⟨_, rfl, rfl⟩
    | halted halt => exact .inr (.inl (by rw [fetchOpcode, fetch, fetched, Option.map_some, halt]))

theorem haltsWithin_succ_of_round (h : round svc ctx = some next) (n : ℕ) :
    HaltsWithin svc (n + 1) ctx ↔ HaltsWithin svc n next := by
  constructor
  · rintro ⟨k, hk, last, reached, halt⟩
    cases k with
    | zero =>
      cases reached
      simp [round, step_of_halt halt] at h
    | succ k =>
      rw [rounds, h, Option.bind_some] at reached
      exact ⟨k, by omega, last, reached, halt⟩
  · rintro ⟨k, hk, last, reached, halt⟩
    exact ⟨k + 1, by omega, last, by rw [rounds, h, Option.bind_some, reached], halt⟩

/-- The loop clears the flag at a `halt` and nowhere else. -/
theorem executeLoop_running_iff (svc : Services W) (n : ℕ) (ctx : ExecutionContext W)
    (running : ctx.running = true) :
    (executeLoop svc n ctx).2.running = false ↔ HaltsWithin svc n ctx := by
  induction n generalizing ctx with
  | zero => simp [executeLoop, running, HaltsWithin]
  | succ n ih =>
    rcases round_cases svc ctx with ⟨next, went, kept⟩ | halt | ⟨stopped, e, failed⟩
    · rw [executeLoop_round went, haltsWithin_succ_of_round went]
      exact ih next (kept.trans running)
    · have cleared : (executeLoop svc (n + 1) ctx).2.running = false := by
        simp only [executeLoop, step_of_halt halt]
      exact iff_of_true cleared ⟨0, n.succ_pos, ctx, rfl, halt⟩
    · have left : (executeLoop svc (n + 1) ctx).2.running = true := by
        rw [← running, ← step_running svc ctx, executeLoop]
        generalize step svc ctx = stepped at failed
        obtain ⟨result, after⟩ := stepped
        obtain rfl := failed
        rfl
      rw [left]
      refine iff_of_false (by decide) ?_
      rintro ⟨k, -, last, reached, halt⟩
      cases k with
      | zero =>
        cases reached
        rw [step_of_halt halt] at failed
        cases failed
      | succ k =>
        rw [rounds, stopped] at reached
        cases reached

/-- After `execute` the flag is off exactly when a `halt` came before the cycles ran out. -/
theorem execute_running_iff (svc : Services W) (ctx : ExecutionContext W) :
    (execute svc ctx).2.running = false ↔
      HaltsWithin svc ctx.maxCycles { ctx with running := true, cycles := 0 } :=
  executeLoop_running_iff svc ctx.maxCycles _ rfl

/-- The flag stays on after a step that fails, and after the last cycle of an endless loop. -/
theorem execute_leaves_running :
    (execute (echo fun _ => []) (.new (Program.new "empty") ())).2.running = true ∧
      (execute (echo fun _ => []) { ExecutionContext.new
        { Program.new "loop" with instructions := [Instruction.new .jmp] } () with
          maxCycles := 3 }).2.running = true :=
  ⟨rfl, rfl⟩

end Executor

end TORdex.Vm
