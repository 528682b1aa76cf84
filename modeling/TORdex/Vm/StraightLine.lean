import TORdex.Vm.Executor

/-!
# Straight-line code

An instruction that only writes registers and talks to the outside world is a function on both.  A
block of such instructions, wherever it stands in a program, is executed as the composition of these
functions.
-/

namespace TORdex.Vm

/-! ## The register file as a function -/

namespace RegisterFile

/-- The content of a register. -/
def contents (regs : RegisterFile) (r : UInt8) : RegisterValue := regs[r.toNat]?.getD .nil

/-- The register file with another content of a register. -/
def put (regs : RegisterFile) (r : UInt8) (v : RegisterValue) : RegisterFile :=
  if h : r.toNat < 32 then regs.set r.toNat v h else regs

section At

variable {regs : RegisterFile} {r r' : UInt8} {v : RegisterValue}

theorem read_eq (h : r.toNat < 32) : regs.read r = .ok (regs.contents r) := by
  simp [read, contents, Vector.getElem?_eq_getElem h]

theorem write_eq (h : r.toNat < 32) : regs.write r v = .ok (regs.put r v) := by
  simp [write, put, h]

theorem contents_put_self (h : r.toNat < 32) : (regs.put r v).contents r = v := by
  simp [contents, put, h]

theorem put_contents (regs : RegisterFile) (r : UInt8) : regs.put r (regs.contents r) = regs := by
  unfold put contents
  split_ifs with h
  · rw [Vector.getElem?_eq_getElem h, Option.getD_some, Vector.set_getElem_self]
  · rfl

theorem contents_put_of_ne (h : r ≠ r') : (regs.put r v).contents r' = regs.contents r' := by
  have hn : r.toNat ≠ r'.toNat := fun he => h (UInt8.toNat_inj.1 he)
  unfold contents put
  split_ifs
  · rw [Vector.getElem?_set_ne _ hn]
  · rfl

end At

end RegisterFile

/-! ## Data instructions -/

/-- The instruction writes registers and talks to the outside world, and does nothing else. -/
def Opcode.isData : Opcode → Bool
  | .loadImm | .loadStr | .mov | .loadEntity | .loadGraph | .traverse | .compare | .query | .infer
  | .similar | .classify | .reason | .correlate | .timeline | .search | .rank | .store
  | .snapshot => true
  | _ => false

/-- The registers and the state of the world. -/
abbrev Data (W : Type) := RegisterFile × W

/-- The registers that a data instruction reads. -/
def Instruction.reads (instr : Instruction) : List UInt8 :=
  match instr.opcode with
  | .mov | .loadEntity | .loadGraph | .traverse | .query | .classify | .reason | .timeline =>
    [instr.regB]
  | .compare | .correlate | .search | .rank => [instr.regA, instr.regB]
  | .infer | .similar => [instr.regB, instr.extra]
  | .store => [instr.regA]
  | _ => []

namespace Executor

variable {W : Type} (svc : Services W) (program : Program)

/-- The value that a data instruction writes to its first register. -/
def valueOf (instr : Instruction) (s : Data W) : Except String (RegisterValue × W) :=
  let here (value : Except String RegisterValue) : Except String (RegisterValue × W) :=
    value.map fun v => (v, s.2)
  match instr.opcode with
  | .loadImm => .ok (.int instr.imm.toInt, s.2)
  | .loadStr => .ok (loadStrValue instr program, s.2)
  | .mov => here (movValue s.1 instr)
  | .loadEntity => here (loadEntityValue s.1 instr)
  | .loadGraph => here (loadGraphValue svc s.2 s.1 instr)
  | .traverse => here (traverseValue svc s.2 s.1 instr)
  | .compare => here (compareValue s.1 instr)
  | .query => here (queryValue svc s.2 s.1 instr)
  | .infer => here (inferValue svc s.2 s.1 instr)
  | .similar => here (similarValue svc s.2 s.1 instr)
  | .classify => here (classifyValue svc s.1 instr)
  | .reason => here (reasonValue svc s.2 s.1 instr)
  | .correlate => here (correlateValue svc s.1 instr)
  | .timeline => here (timelineValue svc s.2 s.1 instr)
  | .search => here (searchValue svc s.2 s.1 instr)
  | .rank => here (rankValue svc s.1 instr)
  | .store =>
    (s.1.read instr.regA).bind fun v =>
      match storeValue svc s.2 v with
      | (.error e, _) => .error e
      | (.ok id, world) => .ok (.string id.toString, world)
  | .snapshot => .ok (snapshotValue svc instr (svc.now s.2).1, (svc.now s.2).2)
  | _ => .error ""

/-- What a data instruction does. -/
def execData (instr : Instruction) (s : Data W) : Except String (Data W) :=
  (valueOf svc program instr s).bind fun x =>
    (s.1.write instr.regA x.1).map fun regs => (regs, x.2)

/-- What a block of data instructions does. -/
def runCode : List Instruction → Data W → Except String (Data W)
  | [], s => .ok s
  | instr :: code, s => (execData svc program instr s).bind (runCode code)

/-- The context after a block of so many instructions that left this data. -/
def afterBlock (ctx : ExecutionContext W) (length : ℕ) (s : Data W) : ExecutionContext W :=
  { ctx with regs := s.1, world := s.2, pc := ctx.pc + length }

section Exec

variable {svc} {instr : Instruction} {ctx : ExecutionContext W}

/-- The instruction does in a context what it does to the data. -/
def Acts (svc : Services W) (instr : Instruction) (ctx : ExecutionContext W) : Prop :=
  (∃ s, execData svc ctx.program instr (ctx.regs, ctx.world) = .ok s ∧
    exec svc instr ctx = (.ok .continued, afterBlock ctx 1 s)) ∨
  ∃ e ctx', execData svc ctx.program instr (ctx.regs, ctx.world) = .error e ∧
    exec svc instr ctx = (.error e, ctx')

theorem acts_finish {value : Except String RegisterValue} {world : W}
    (h : exec svc instr ctx = finish instr { ctx with world } value)
    (hv : valueOf svc ctx.program instr (ctx.regs, ctx.world) = value.map fun v => (v, world)) :
    Acts svc instr ctx := by
  unfold Acts execData
  rw [h, hv]
  cases value with
  | error e => exact .inr ⟨e, _, rfl, rfl⟩
  | ok v =>
    simp only [Except.map, Except.bind, finish, advance]
    cases ctx.regs.write instr.regA v with
    | error e => exact .inr ⟨e, _, rfl, rfl⟩
    | ok regs => exact .inl ⟨(regs, world), rfl, rfl⟩

theorem acts_error {e : String} {ctx' : ExecutionContext W}
    (h : exec svc instr ctx = (.error e, ctx'))
    (hv : valueOf svc ctx.program instr (ctx.regs, ctx.world) = .error e) :
    Acts svc instr ctx := by
  refine .inr ⟨e, ctx', ?_, h⟩
  unfold execData
  rw [hv]
  rfl

variable (svc) in
theorem exec_data (h : instr.opcode.isData) (ctx : ExecutionContext W) : Acts svc instr ctx := by
  cases ho : instr.opcode with
  | loadImm | loadStr =>
    exact acts_finish (by simp only [exec, ho]; rfl) (by simp only [valueOf, ho]; rfl)
  | mov | loadEntity | loadGraph | traverse | compare | query | infer | similar | classify
  | reason | correlate | timeline | search | rank =>
    exact acts_finish (by simp only [exec, ho]; rfl) (by simp only [valueOf, ho])
  | snapshot =>
    exact acts_finish (by simp only [exec, ho, stepSnapshot]; rfl)
      (by simp only [valueOf, ho]; rfl)
  | store =>
    cases hr : ctx.regs.read instr.regA with
    | error e =>
      exact acts_error (by simp only [exec, ho, stepStore, hr]; rfl)
        (by simp only [valueOf, ho, hr]; rfl)
    | ok v =>
      rcases hs : storeValue svc ctx.world v with ⟨e | id, world⟩
      · exact acts_error (by simp only [exec, ho, stepStore, hr, hs]; rfl)
          (by simp only [valueOf, ho, hr, Except.bind, hs])
      · exact acts_finish (by simp only [exec, ho, stepStore, hr, hs]; rfl)
          (by simp only [valueOf, ho, hr, Except.bind, hs]; rfl)
  | _ => simp [ho, Opcode.isData] at h

end Exec

/-! ## What the value depends on -/

section Frame

variable {svc program}

theorem execData_eq {instr : Instruction} {regs : RegisterFile} {w w' : W} {v : RegisterValue}
    (h : valueOf svc program instr (regs, w) = .ok (v, w')) (ha : instr.regA.toNat < 32) :
    execData svc program instr (regs, w) = .ok (regs.put instr.regA v, w') := by
  unfold execData
  rw [h]
  simp only [Except.bind, RegisterFile.write_eq ha]
  rfl

theorem runCode_append (code code' : List Instruction) (s : Data W) :
    runCode svc program (code ++ code') s =
      (runCode svc program code s).bind (runCode svc program code') := by
  induction code generalizing s with
  | nil => rfl
  | cons instr code ih =>
    simp only [List.cons_append, runCode]
    cases execData svc program instr s with
    | error e => rfl
    | ok s' => exact ih s'

theorem execData_ok {instr : Instruction} {s s' : Data W}
    (h : execData svc program instr s = .ok s') :
    ∃ v, valueOf svc program instr s = .ok (v, s'.2) ∧ instr.regA.toNat < 32 ∧
      s'.1 = s.1.put instr.regA v := by
  unfold execData at h
  cases hv : valueOf svc program instr s with
  | error e =>
    rw [hv] at h
    cases h
  | ok x =>
    rw [hv] at h
    dsimp only [Except.bind] at h
    by_cases lt : instr.regA.toNat < 32
    · rw [RegisterFile.write_eq lt] at h
      cases h
      exact ⟨x.1, rfl, lt, rfl⟩
    · rw [RegisterFile.write, dif_neg lt] at h
      cases h

theorem runCode_cons_ok {instr : Instruction} {code : List Instruction} {s s' : Data W}
    (h : runCode svc program (instr :: code) s = .ok s') :
    ∃ s₁, execData svc program instr s = .ok s₁ ∧ runCode svc program code s₁ = .ok s' := by
  unfold runCode at h
  cases hi : execData svc program instr s with
  | error e =>
    rw [hi] at h
    cases h
  | ok s₁ =>
    rw [hi] at h
    exact ⟨s₁, rfl, h⟩

/-- A block leaves the registers alone that none of its instructions writes. -/
theorem contents_runCode {code : List Instruction} {s s' : Data W} {r : UInt8}
    (hr : ∀ instr ∈ code, instr.regA ≠ r) (h : runCode svc program code s = .ok s') :
    s'.1.contents r = s.1.contents r := by
  induction code generalizing s with
  | nil =>
    cases h
    rfl
  | cons instr code ih =>
    obtain ⟨s₁, hi, rest⟩ := runCode_cons_ok h
    obtain ⟨v, -, -, regs⟩ := execData_ok hi
    rw [ih (fun i hm => hr i (List.mem_cons_of_mem _ hm)) rest, regs]
    exact RegisterFile.contents_put_of_ne (hr instr List.mem_cons_self)

end Frame

section Builders

variable {svc program} {regs : RegisterFile} {w : W} {d a b : UInt8}

theorem valueOf_mov (ha : a.toNat < 32) :
    valueOf svc program (mov d a) (regs, w) = .ok (regs.contents a, w) := by
  simp only [valueOf, mov, movValue, Instruction.withRegA, Instruction.withRegB, Instruction.new,
    RegisterFile.read_eq ha]
  rfl

theorem valueOf_loadEntity (ha : a.toNat < 32) :
    valueOf svc program (loadEntity d a) (regs, w) =
      .ok (.entity (regs.contents a).toJson.render "0", w) := by
  simp only [valueOf, loadEntity, loadEntityValue, Instruction.withRegA, Instruction.withRegB,
    Instruction.new, RegisterFile.read_eq ha]
  rfl

theorem valueOf_loadGraph (ha : a.toNat < 32) :
    valueOf svc program (loadGraph d a) (regs, w) =
      (queryFacts svc w { SemanticQuery.default with
        subjects := some [(regs.contents a).toJson.render] }).map fun v => (v, w) := by
  simp only [valueOf, loadGraph, loadGraphValue, Instruction.withRegA, Instruction.withRegB,
    Instruction.new, RegisterFile.read_eq ha]
  rfl

theorem valueOf_search (ha : a.toNat < 32) (hb : b.toNat < 32) :
    valueOf svc program (search a b) (regs, w) =
      (queryFacts svc w { SemanticQuery.default with
        subjects := (regs.contents a).toJson.asStr.map fun s => [s]
        predicates := (regs.contents b).toJson.asStr.map fun s => [s]
        limit := 50 }).map fun v => (v, w) := by
  simp only [valueOf, search, searchValue, Instruction.withRegA, Instruction.withRegB,
    Instruction.new, RegisterFile.read_eq ha, RegisterFile.read_eq hb]
  rfl

theorem valueOf_infer (ha : a.toNat < 32) (hb : b.toNat < 32) :
    valueOf svc program (infer d a b) (regs, w) =
      (queryFacts svc w { SemanticQuery.default with
        subjects := some [(regs.contents a).toJson.render]
        predicates := some [(regs.contents b).toJson.render] }).map fun v => (v, w) := by
  simp only [valueOf, infer, inferValue, Instruction.withRegA, Instruction.withRegB,
    Instruction.withExtra, Instruction.new, RegisterFile.read_eq ha, RegisterFile.read_eq hb]
  rfl

end Builders

/-! ## Blocks in a program -/

/-- The code stands at an address of the program. -/
def CodeAt (pc : ℕ) (code : List Instruction) : Prop :=
  ∃ pre post, program.instructions = pre ++ code ++ post ∧ pre.length = pc

/-- Execute so many instructions one after the other; a halt, a call or a return ends the run. -/
def steps : ℕ → ExecutionContext W → Except String (ExecutionContext W)
  | 0, ctx => .ok ctx
  | n + 1, ctx =>
    match step svc ctx with
    | (.error e, _) => .error e
    | (.ok .continued, ctx) => steps n ctx
    | (.ok _, _) => .error "not a straight line"

section Blocks

variable {svc program} {code : List Instruction} {ctx : ExecutionContext W}

theorem CodeAt.tail {pc : ℕ} {instr : Instruction} (h : CodeAt program pc (instr :: code)) :
    CodeAt program (pc + 1) code := by
  obtain ⟨pre, post, hp, rfl⟩ := h
  exact ⟨pre ++ [instr], post, by simp [hp], by simp⟩

theorem CodeAt.fetch {pc : ℕ} {instr : Instruction} (h : CodeAt program pc (instr :: code)) :
    program.instructions[pc]? = some instr := by
  obtain ⟨pre, post, hp, rfl⟩ := h
  simp [hp]

theorem CodeAt.left {pc : ℕ} {code' : List Instruction} (h : CodeAt program pc (code ++ code')) :
    CodeAt program pc code := by
  obtain ⟨pre, post, hp, hl⟩ := h
  exact ⟨pre, code' ++ post, by simp [hp], hl⟩

/-- A block of data instructions, executed where it stands. -/
theorem steps_block (data : ∀ instr ∈ code, instr.opcode.isData)
    (located : CodeAt ctx.program ctx.pc code) :
    steps svc code.length ctx =
      (runCode svc ctx.program code (ctx.regs, ctx.world)).map (afterBlock ctx code.length) := by
  induction code generalizing ctx with
  | nil => rfl
  | cons instr code ih =>
    have rest : ∀ i ∈ code, i.opcode.isData := fun i hi => data i (List.mem_cons_of_mem _ hi)
    simp only [List.length_cons, steps, step, located.fetch, runCode]
    rcases exec_data svc (data instr List.mem_cons_self) ctx with
      ⟨s, ok, next⟩ | ⟨e, ctx', bad, next⟩
    · rw [next, ok]
      dsimp only [Except.bind]
      rw [ih rest located.tail]
      have shift : (afterBlock (afterBlock ctx 1 s) code.length : Data W → _) =
          afterBlock ctx (code.length + 1) := by
        funext s'
        simp only [afterBlock, Nat.add_assoc, Nat.add_comm 1]
      rw [shift]
      rfl
    · rw [next, bad]
      rfl

/-- A data instruction takes one cycle of the loop, or ends it with its error. -/
theorem executeLoop_data {instr : Instruction} (data : instr.opcode.isData) {ctx : ExecutionContext W}
    (fetched : ctx.program.instructions[ctx.pc]? = some instr) (cycles : ℕ) :
    (∃ s, execData svc ctx.program instr (ctx.regs, ctx.world) = .ok s ∧
      executeLoop svc (cycles + 1) ctx =
        executeLoop svc cycles { afterBlock ctx 1 s with cycles := ctx.cycles + 1 }) ∨
      ∃ e ctx', execData svc ctx.program instr (ctx.regs, ctx.world) = .error e ∧
        executeLoop svc (cycles + 1) ctx = (.error e, ctx') := by
  have here : step svc ctx = exec svc instr ctx := by
    simp only [step, fetched]
  rcases exec_data svc data ctx with ⟨s, ok, next⟩ | ⟨e, ctx', bad, next⟩
  · refine .inl ⟨s, ok, ?_⟩
    rw [executeLoop, here, next]
    rfl
  · refine .inr ⟨e, ctx', bad, ?_⟩
    rw [executeLoop, here, next]

end Blocks

/-! ## Blocks that end in a halt -/

section Halting

variable {svc} {code : List Instruction}

/-- The loop runs a block that ends in a halt instruction by instruction, to the first error or the last
cycle. -/
theorem executeLoop_outcome (data : ∀ instr ∈ code, instr.opcode.isData) {ctx : ExecutionContext W}
    (located : CodeAt ctx.program ctx.pc (code ++ [halt])) (cycles : ℕ) :
    (executeLoop svc cycles ctx).1 =
      (runCode svc ctx.program (code.take cycles) (ctx.regs, ctx.world)).bind fun _ =>
        if code.length < cycles then .ok () else .error "execution exceeded max cycles" := by
  induction code generalizing ctx cycles with
  | nil =>
    cases cycles with
    | zero => rfl
    | succ cycles =>
      have fetched : ctx.program.instructions[ctx.pc]? = some halt := located.fetch
      simp only [executeLoop, step, fetched]
      rfl
  | cons instr code ih =>
    cases cycles with
    | zero => rfl
    | succ cycles =>
      have rest : ∀ i ∈ code, i.opcode.isData := fun i hi => data i (List.mem_cons_of_mem _ hi)
      rcases executeLoop_data (data instr List.mem_cons_self) located.fetch cycles with
        ⟨s, ok, loop⟩ | ⟨e, ctx', bad, loop⟩
      · rw [loop, ih rest located.tail]
        simp only [List.take_succ_cons, runCode, ok, Except.bind, List.length_cons,
          Nat.add_lt_add_iff_right]
        rfl
      · rw [loop]
        simp only [List.take_succ_cons, runCode, bad]
        rfl

/-- The context that the block leaves at its halt. -/
theorem executeLoop_ok (data : ∀ instr ∈ code, instr.opcode.isData) {ctx done : ExecutionContext W}
    (located : CodeAt ctx.program ctx.pc (code ++ [halt])) {cycles : ℕ}
    (halts : executeLoop svc cycles ctx = (.ok (), done)) :
    runCode svc ctx.program code (ctx.regs, ctx.world) = .ok (done.regs, done.world) ∧
      done = { afterBlock ctx code.length (done.regs, done.world) with
        cycles := ctx.cycles + code.length + 1, running := false } := by
  induction code generalizing ctx cycles with
  | nil =>
    cases cycles with
    | zero => cases halts
    | succ cycles =>
      have fetched : ctx.program.instructions[ctx.pc]? = some halt := located.fetch
      simp only [executeLoop, step, fetched] at halts
      cases halts
      exact ⟨rfl, rfl⟩
  | cons instr code ih =>
    cases cycles with
    | zero => cases halts
    | succ cycles =>
      have rest : ∀ i ∈ code, i.opcode.isData := fun i hi => data i (List.mem_cons_of_mem _ hi)
      rcases executeLoop_data (data instr List.mem_cons_self) located.fetch cycles with
        ⟨s, ok, loop⟩ | ⟨e, ctx', -, loop⟩
      · rw [loop] at halts
        obtain ⟨run, after⟩ := ih rest located.tail halts
        refine ⟨?_, ?_⟩
        · rw [runCode, ok]
          exact run
        · rw [after]
          simp only [afterBlock, List.length_cons]
          congr 1 <;> omega
      · rw [loop] at halts
        cases halts

end Halting

end Executor

end TORdex.Vm
