import TORdex.Vm.Calls

/-!
# Jumps

A jump adds its immediate to the program counter narrowed to an `i32`.  The sum is checked or wraps,
by the build; where it fits both builds go to the same address.
-/

namespace TORdex.Vm

/-- `pc as i32 + imm` in a build that checks for overflow; `none` is the panic. -/
def checkedSum (pc : ℕ) (imm : Int32) : Option ℤ :=
  let sum := (Int32.ofNat pc).toInt + imm.toInt
  if -2 ^ 31 ≤ sum ∧ sum < 2 ^ 31 then some sum else none

/-- Instructions take eight bytes each, and no vector holds more than `isize::MAX` bytes. -/
def Program.maxInstructions : ℕ := (2 ^ 63 - 1) / 8

namespace Executor

variable {W : Type} {svc : Services W} {instr : Instruction} {ctx : ExecutionContext W}

/-- The instruction jumps: it is a jump or a call, or a conditional jump whose condition holds. -/
def Taken (instr : Instruction) (ctx : ExecutionContext W) : Prop :=
  match instr.opcode with
  | .jmp | .call => True
  | .jz => ∃ v, ctx.regs.read instr.regA = .ok v ∧ v.isTruthy = false
  | .jnz => ∃ v, ctx.regs.read instr.regA = .ok v ∧ v.isTruthy = true
  | _ => False

/-- Where a jump leads, over the integers. -/
def destination (instr : Instruction) (ctx : ExecutionContext W) : ℤ := ctx.pc + instr.imm.toInt

/-- The instruction at an integer address. -/
def instructionAt (program : Program) (address : ℤ) : Option Instruction :=
  if address < 0 then none else program.instructions[address.toNat]?

/-- The sum does not overflow and is the destination, whose instruction comes next; where there is none
the next step says that the program counter is invalid. -/
structure JumpsExactly (svc : Services W) (instr : Instruction) (ctx : ExecutionContext W) : Prop where
  sum : checkedSum ctx.pc instr.imm = some (destination instr ctx)
  next : ∃ next, round svc ctx = some next ∧
    fetch next = instructionAt ctx.program (destination instr ctx) ∧
    (instructionAt ctx.program (destination instr ctx) = none →
      (step svc next).1 = .error ("invalid pc: " ++ toString next.pc))

theorem checkedSum_eq_some_iff {pc : ℕ} {imm : Int32} :
    checkedSum pc imm = some (pc + imm.toInt) ↔ pc < 2 ^ 31 ∧ (pc : ℤ) + imm.toInt < 2 ^ 31 := by
  have below := Int32.toInt_lt (Int32.ofNat pc)
  have low := Int32.le_toInt imm
  unfold checkedSum
  constructor
  · intro h
    dsimp only at h
    split_ifs at h with fits
    have sum := Option.some.inj h
    omega
  · rintro ⟨narrow, fits⟩
    rw [Int32.toInt_ofNat_of_lt narrow]
    exact if_pos ⟨by omega, fits⟩

/-- A sum that does not overflow is what the wrapping addition gives. -/
theorem jumpTarget_of_checkedSum {sum : ℤ} (h : checkedSum ctx.pc instr.imm = some sum) :
    jumpTarget instr ctx = (sum % 2 ^ 64).toNat := by
  unfold checkedSum at h
  dsimp only at h
  split_ifs at h with fits
  obtain rfl := Option.some.inj h
  rw [jumpTarget, Int32.toInt_add, Int.bmod_eq_of_le (by omega) (by omega)]

/-- A jump that is taken sets the program counter. -/
theorem round_of_taken (svc : Services W) (fetched : fetch ctx = some instr) (taken : Taken instr ctx) :
    ∃ next, round svc ctx = some next ∧ next.pc = jumpTarget instr ctx ∧ next.program = ctx.program := by
  have here : ctx.program.instructions[ctx.pc]? = some instr := fetched
  unfold Taken at taken
  unfold round step
  rw [here]
  dsimp only
  unfold exec jumpIf
  cases ho : instr.opcode with
  | jmp | call => exact ⟨_, rfl, rfl, rfl⟩
  | jz | jnz =>
    rw [ho] at taken
    obtain ⟨v, read, truth⟩ := taken
    simp only [read, truth, Bool.not_false, if_true]
    exact ⟨_, rfl, rfl, rfl⟩
  | _ =>
    rw [ho] at taken
    exact taken.elim

/-- The address of a destination holds its instruction: a negative one wraps to an address that is past
the end of every vector. -/
theorem getElem?_wrapped {program : Program} (fits : program.instructions.length ≤ Program.maxInstructions)
    {address : ℤ} (low : -2 ^ 31 ≤ address) (high : address < 2 ^ 31) :
    program.instructions[(address % 2 ^ 64).toNat]? = instructionAt program address := by
  unfold Program.maxInstructions at fits
  unfold instructionAt
  split_ifs with negative
  · apply List.getElem?_eq_none
    omega
  · rw [Int.emod_eq_of_lt (by omega) (by omega)]

/-- A taken jump is exact when the program counter and the sum fit an `i32`, and only then. -/
theorem jumpsExactly_iff (svc : Services W) (instr : Instruction) (ctx : ExecutionContext W)
    (fits : ctx.program.instructions.length ≤ Program.maxInstructions)
    (fetched : fetch ctx = some instr) (taken : Taken instr ctx) :
    JumpsExactly svc instr ctx ↔ ctx.pc < 2 ^ 31 ∧ (ctx.pc : ℤ) + instr.imm.toInt < 2 ^ 31 := by
  refine ⟨fun exactly => checkedSum_eq_some_iff.1 exactly.sum, fun bounds => ?_⟩
  have sum : checkedSum ctx.pc instr.imm = some (destination instr ctx) := checkedSum_eq_some_iff.2 bounds
  obtain ⟨next, went, pc, program⟩ := round_of_taken svc fetched taken
  have low := Int32.le_toInt instr.imm
  have arrived : fetch next = instructionAt ctx.program (destination instr ctx) := by
    rw [fetch, program, pc, jumpTarget_of_checkedSum sum]
    exact getElem?_wrapped fits (by unfold destination; omega) bounds.2
  refine ⟨sum, next, went, arrived, fun outside => ?_⟩
  have nothing : next.program.instructions[next.pc]? = none := arrived.trans outside
  simp only [step, nothing]

/-- The jump to the `halt` behind it. -/
def jumpProgram (imm : Int32) : Program :=
  { Program.new "jump" with instructions := [Instruction.new .nop, (Instruction.new .jmp).withImm imm, halt] }

/-- The context at the jump. -/
def jumpContext (imm : Int32) : ExecutionContext Unit :=
  { ExecutionContext.new (jumpProgram imm) () with pc := 1 }

theorem jumpsExactly_forward :
    JumpsExactly (echo fun _ => []) ((Instruction.new .jmp).withImm 1) (jumpContext 1) :=
  (jumpsExactly_iff _ _ (jumpContext 1) (by decide) rfl (show True from trivial)).2 (by decide)

/-- The largest immediate overflows from address 1. -/
theorem not_jumpsExactly_largest :
    fetch (jumpContext 2147483647) = some ((Instruction.new .jmp).withImm 2147483647) ∧
      Taken ((Instruction.new .jmp).withImm 2147483647) (jumpContext 2147483647) ∧
      checkedSum (jumpContext 2147483647).pc 2147483647 = none ∧
      ¬JumpsExactly (echo fun _ => []) ((Instruction.new .jmp).withImm 2147483647)
        (jumpContext 2147483647) := by
  have overflow : checkedSum 1 2147483647 = none := by decide
  exact ⟨rfl, trivial, overflow, fun exactly => nomatch overflow.symm.trans exactly.sum⟩

end Executor

end TORdex.Vm
