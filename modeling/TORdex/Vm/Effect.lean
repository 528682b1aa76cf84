import TORdex.Vm.Executor

/-!
# What a step can do

Everything that an instruction can do to the context it is executed in.  A step that fails leaves the
machine alone, unless it pops a value that it then cannot write.
-/

namespace TORdex.Vm

namespace Executor

variable {W : Type}

/-- What an instruction returns and leaves.  A pop whose register does not exist is the one failure that
leaves another machine: the value is off the stack when the write fails. -/
inductive Effect (instr : Instruction) (ctx : ExecutionContext W) :
    Except String StepResult × ExecutionContext W → Prop
  | refused (e : String) (world : W) : Effect instr ctx (.error e, { ctx with world })
  | dropped (e : String) (stack : InferenceStack) (pop : instr.opcode = .pop)
    (nonempty : ctx.stack.inner ≠ []) (outside : 32 ≤ instr.regA.toNat) :
    Effect instr ctx (.error e, { ctx with stack })
  | advanced (regs : RegisterFile) (stack : InferenceStack) (world : W) :
    Effect instr ctx (.ok .continued, { ctx with regs, stack, world, pc := ctx.pc + 1 })
  | jumped : Effect instr ctx (.ok .continued, { ctx with pc := jumpTarget instr ctx })
  | called (call : instr.opcode = .call) : Effect instr ctx (.ok (.called (jumpTarget instr ctx)), ctx)
  | returned (ret : instr.opcode = .ret) (addr : ℕ) (returnStack : List ℕ) :
    Effect instr ctx (.ok (.returned addr), { ctx with returnStack })
  | halted (halt : instr.opcode = .halt) : Effect instr ctx (.ok .halted, ctx)

namespace Effect

variable {instr : Instruction} {ctx : ExecutionContext W}

theorem error (e : String) : Effect instr ctx (.error e, ctx) := .refused e ctx.world

theorem of_advance (regs : RegisterFile) (stack : InferenceStack) (world : W) :
    Effect instr ctx (advance { ctx with regs, stack, world }) := .advanced regs stack world

theorem of_finish (world : W) (value : Except String RegisterValue) :
    Effect instr ctx (finish instr { ctx with world } value) := by
  unfold finish
  cases value with
  | error e => exact .refused e world
  | ok v =>
    dsimp only
    cases ctx.regs.write instr.regA v with
    | error e => exact .refused e world
    | ok regs => exact of_advance regs ctx.stack world

theorem of_inspect (indices : List UInt8) : Effect instr ctx (inspect ctx indices) := by
  unfold inspect
  cases indices.mapM ctx.regs.read with
  | error e => exact error e
  | ok _ => exact of_advance ctx.regs ctx.stack ctx.world

theorem of_jumpIf (taken : RegisterValue → Bool) : Effect instr ctx (jumpIf instr ctx taken) := by
  unfold jumpIf
  cases ctx.regs.read instr.regA with
  | error e => exact error e
  | ok v =>
    dsimp only
    split_ifs
    · exact jumped
    · exact of_advance ctx.regs ctx.stack ctx.world

theorem of_onStack (stack : Except String InferenceStack) : Effect instr ctx (onStack ctx stack) := by
  cases stack with
  | error e => exact error e
  | ok stack => exact of_advance ctx.regs stack ctx.world

theorem of_stepPop (pop : instr.opcode = .pop) : Effect instr ctx (stepPop instr ctx) := by
  unfold stepPop InferenceStack.pop finish RegisterFile.write
  cases nonempty : ctx.stack.inner with
  | nil => exact error _
  | cons v rest =>
    dsimp only
    split_ifs with inside
    · exact of_advance _ { ctx.stack with inner := rest } ctx.world
    · exact dropped _ _ pop (nonempty ▸ List.cons_ne_nil v rest) (not_lt.1 inside)

section Services

variable (svc : Services W)

theorem of_stepFact : Effect instr ctx (stepFact svc instr ctx) := by
  unfold stepFact
  split
  · dsimp only
    split
    · exact refused _ _
    · exact of_advance ctx.regs ctx.stack _
  all_goals exact error _

theorem of_stepRecall : Effect instr ctx (stepRecall svc instr ctx) := by
  unfold stepRecall
  split
  · exact error _
  · split
    · exact of_advance ctx.regs ctx.stack ctx.world
    · exact of_finish ctx.world _

theorem of_stepStore : Effect instr ctx (stepStore svc instr ctx) := by
  unfold stepStore
  split
  · exact error _
  · split
    · exact refused _ _
    · exact of_finish _ _

theorem of_stepSnapshot : Effect instr ctx (stepSnapshot svc instr ctx) := by
  unfold stepSnapshot
  exact of_finish _ _

theorem of_stepSysCall : Effect instr ctx (stepSysCall svc instr ctx) := by
  unfold stepSysCall
  split
  · exact error _
  · dsimp only
    split_ifs
    · exact of_advance ctx.regs ctx.stack _
    · exact refused _ _

theorem of_stepEmit : Effect instr ctx (stepEmit svc instr ctx) := by
  unfold stepEmit
  split
  · exact error _
  · exact of_advance ctx.regs ctx.stack _

/-- An instruction does one of these things. -/
theorem of_exec (instr : Instruction) (ctx : ExecutionContext W) : Effect instr ctx (exec svc instr ctx) := by
  unfold exec
  cases ho : instr.opcode with
  | nop | consolidate => exact of_advance ctx.regs ctx.stack ctx.world
  | jmp => exact jumped
  | jz | jnz => exact of_jumpIf _
  | call => exact called ho
  | ret =>
    dsimp only
    split
    · exact returned ho _ _
    · exact returned ho _ ctx.returnStack
  | halt => exact halted ho
  | dup | swap => exact of_onStack _
  | relate | index | forget => exact of_inspect _
  | push =>
    dsimp only
    split
    · exact error _
    · exact of_onStack _
  | pop => exact of_stepPop ho
  | fact => exact of_stepFact svc
  | «recall» => exact of_stepRecall svc
  | store => exact of_stepStore svc
  | snapshot => exact of_stepSnapshot svc
  | sysCall => exact of_stepSysCall svc
  | emit => exact of_stepEmit svc
  | _ => exact of_finish ctx.world _

end Services

end Effect

/-! ## Failing steps -/

/-- Registers, stack, program counter and return stack are the same. -/
structure SameMachine (ctx ctx' : ExecutionContext W) : Prop where
  regs : ctx'.regs = ctx.regs
  stack : ctx'.stack = ctx.stack
  pc : ctx'.pc = ctx.pc
  returnStack : ctx'.returnStack = ctx.returnStack

/-- The next step pops a value, and its register does not exist. -/
def DropsTop (ctx : ExecutionContext W) : Prop :=
  ∃ instr, ctx.program.instructions[ctx.pc]? = some instr ∧ instr.opcode = .pop ∧
    32 ≤ instr.regA.toNat ∧ ctx.stack.inner ≠ []

/-- Such a step fails without its value. -/
theorem DropsTop.step {ctx : ExecutionContext W} (h : DropsTop ctx) (svc : Services W) :
    ∃ e, (step svc ctx).1 = .error e ∧ (step svc ctx).2.stack ≠ ctx.stack := by
  obtain ⟨instr, fetched, pop, outside, nonempty⟩ := h
  obtain ⟨v, rest, inner⟩ := List.exists_cons_of_ne_nil nonempty
  have stepped : Executor.step svc ctx =
      (.error (invalidRegister instr.regA), { ctx with stack := { ctx.stack with inner := rest } }) := by
    simp only [Executor.step, fetched, exec, pop, stepPop, InferenceStack.pop, inner, finish,
      RegisterFile.write, dif_neg (not_lt.2 outside)]
  rw [stepped]
  refine ⟨_, rfl, fun same => ?_⟩
  have lengths := congrArg (fun s => s.inner.length) same
  simp [inner] at lengths

/-- A failing step leaves the machine as it was exactly when it does not drop the top of the stack. -/
theorem step_atomic_iff (svc : Services W) (ctx : ExecutionContext W) :
    (∀ e, (step svc ctx).1 = .error e → SameMachine ctx (step svc ctx).2) ↔ ¬DropsTop ctx := by
  constructor
  · intro atomic drops
    obtain ⟨e, failed, changed⟩ := drops.step svc
    exact changed (atomic e failed).stack
  · intro keeps e failed
    unfold step at failed ⊢
    cases fetched : ctx.program.instructions[ctx.pc]? with
    | none => exact ⟨rfl, rfl, rfl, rfl⟩
    | some instr =>
      rw [fetched] at failed
      have effect := Effect.of_exec svc instr ctx
      dsimp only at failed ⊢
      generalize exec svc instr ctx = executed at effect failed ⊢
      cases effect with
      | refused => exact ⟨rfl, rfl, rfl, rfl⟩
      | dropped _ _ pop nonempty outside =>
        exact absurd ⟨instr, fetched, pop, outside, nonempty⟩ keeps
      | advanced | jumped | called | returned | halted => cases failed

/-- A value on the stack, and a pop to register 32. -/
def dropContext : ExecutionContext Unit :=
  { ExecutionContext.new
      { Program.new "pop" with instructions := [(Instruction.new .pop).withRegA 32] } () with
    stack := ⟨[.int 7], 1024⟩ }

theorem step_not_atomic :
    (step (echo fun _ => []) dropContext).1 = .error "invalid register index: 32" ∧
      ¬SameMachine dropContext (step (echo fun _ => []) dropContext).2 :=
  ⟨by decide, fun same => nomatch congrArg (fun s => s.inner.length) same.stack⟩

end Executor

end TORdex.Vm
