import TORdex.Tdxl.Registers

/-!
# Reads of clobbered constants

At every instruction that reads the register of a string constant, the last write of the register should
be the load of that constant.  Three registers do not suffice: a later constant with the same number modulo
three, a filter, a resolution or a correlation takes the register over.
-/

namespace TORdex

open Vm

/-! ## Reads in the emitted code -/

/-- A read of the register of a value: the instructions of the operation before it, the value and the
register. -/
structure TempRead where
  code : List Instruction
  value : KirValueId
  reg : UInt8

namespace CodegenEngine

/-- The moves to the accumulator. -/
def movedReads (e : CodegenEngine) (op : KirOp) : List TempRead :=
  match op.accInput with
  | some i => if e.isPipeline i then [] else [⟨[], i, (e.regs.alloc i).1⟩]
  | none => []

/-- The reads of the other operands. -/
def otherReads (e : CodegenEngine) : KirOp → List TempRead
  | .collect _ x | .sourceEntity _ x | .sourceSearch _ x | .timeline _ x =>
    [⟨[], x, (e.regs.alloc x).1⟩]
  | .similar _ x threshold => [⟨[loadImm NUM (timesTen threshold)], x, (e.regs.alloc x).1⟩]
  | .traverse _ i x _ | .infer _ i x => [⟨e.accCode i, x, e.secondReg i x⟩]
  | .resolve _ i x => [⟨e.accCode i ++ [loadGraph TMP1 ACC], x, e.secondReg i x⟩]
  | .correlate _ i x =>
    [⟨e.accCode i ++ [loadStr TMP2 (stringIndex "_target" e.consts)], x, e.secondReg i x⟩]
  | _ => []

/-- The reads of registers of values by the code of an operation. -/
def tempReads (e : CodegenEngine) (op : KirOp) : List TempRead := e.movedReads op ++ e.otherReads op

/-- The reads of what the operation itself has put into a temporary. -/
def ownReads (e : CodegenEngine) : KirOp → List (List Instruction × UInt8)
  | .filter o i c =>
    [(e.accCode i ++ loadGraph TMP1 ACC :: e.filterCode o i c, e.secondReg i o)]
  | .correlate _ i x =>
    [(e.accCode i ++ [loadStr TMP2 (stringIndex "_target" e.consts),
      loadEntity TMP3 (e.secondReg i x)], TMP3)]
  | _ => []

/-- The temporaries among some registers. -/
def tempsIn (regs : List UInt8) : List UInt8 :=
  regs.filter fun r => r = TMP1 ∨ r = TMP2 ∨ r = TMP3

/-- All reads of temporaries in a block, each with the instructions before it. -/
def readsAfter (pre : List Instruction) : List Instruction → List (List Instruction × UInt8)
  | [] => []
  | instr :: code => (tempsIn instr.reads).map (Prod.mk pre) ++ readsAfter (pre ++ [instr]) code

section Reads

variable {r : UInt8} {pre code code' : List Instruction} {instr : Instruction}

theorem tempsIn_single (h : IsTemp r) : tempsIn [r] = [r] :=
  List.filter_cons_of_pos (decide_eq_true h)

theorem readsAfter_skip (h : tempsIn instr.reads = []) :
    readsAfter pre (instr :: code) = readsAfter (pre ++ [instr]) code := by
  rw [readsAfter, h, List.map_nil, List.nil_append]

theorem readsAfter_read (h : tempsIn instr.reads = [r]) :
    readsAfter pre (instr :: code) = (pre, r) :: readsAfter (pre ++ [instr]) code := by
  rw [readsAfter, h, List.map_singleton, List.singleton_append]

theorem readsAfter_append :
    readsAfter pre (code ++ code') = readsAfter pre code ++ readsAfter (pre ++ code) code' := by
  induction code generalizing pre with
  | nil => simp [readsAfter]
  | cons instr code ih => simp [readsAfter, ih]

end Reads

theorem readsAfter_accCode {e : CodegenEngine} (temps : e.regs.Temps) (i : KirValueId) :
    readsAfter [] (e.accCode i) = if e.isPipeline i then [] else [([], (e.regs.alloc i).1)] := by
  unfold accCode
  split_ifs
  · rfl
  · exact readsAfter_read (tempsIn_single (temps.alloc i).1)

/-- These are all reads of temporaries. -/
theorem readsAfter_opCode {e : CodegenEngine} (temps : e.regs.Temps) (op : KirOp) :
    readsAfter [] (e.opCode op) =
      (e.tempReads op).map (fun x => (x.code, x.reg)) ++ e.ownReads op := by
  have first : ∀ x, tempsIn [(e.regs.alloc x).1] = [(e.regs.alloc x).1] := fun x =>
    tempsIn_single (temps.alloc x).1
  have second : ∀ i x, tempsIn [e.secondReg i x] = [e.secondReg i x] := fun i x =>
    tempsIn_single ((Temps.accRegs temps i).alloc x).1
  -- Behind the move to the accumulator only the other operand and the operation's own data are read.
  have behind : ∀ (op : KirOp) (i : KirValueId) (code : List Instruction), op.accInput = some i →
      e.opCode op = e.accCode i ++ code →
      readsAfter (e.accCode i) code = (e.otherReads op).map (fun x => (x.code, x.reg)) ++
        e.ownReads op →
      readsAfter [] (e.opCode op) =
        (e.tempReads op).map (fun x => (x.code, x.reg)) ++ e.ownReads op := by
    intro op i code hi hc rest
    rw [hc, readsAfter_append, readsAfter_accCode temps, List.nil_append, rest, tempReads, movedReads,
      hi]
    dsimp only
    split_ifs <;> simp
  cases op with
  | traverse o i x d =>
    refine behind _ i _ rfl rfl ?_
    have reads : tempsIn (Vm.traverse ACC (e.secondReg i x)).reads = [e.secondReg i x] := second i x
    rw [readsAfter_read reads]
    cases d <;> rfl
  | infer o i x =>
    refine behind _ i _ rfl rfl ?_
    have reads : tempsIn (Vm.infer ACC ACC (e.secondReg i x)).reads = [e.secondReg i x] := second i x
    rw [readsAfter_read reads]
    rfl
  | resolve o i x =>
    refine behind _ i _ rfl rfl ?_
    have reads : tempsIn (search ACC (e.secondReg i x)).reads = [e.secondReg i x] := second i x
    rw [readsAfter_skip rfl, readsAfter_read reads]
    rfl
  | correlate o i x =>
    refine behind _ i _ rfl rfl ?_
    have reads : tempsIn (loadEntity TMP3 (e.secondReg i x)).reads = [e.secondReg i x] := second i x
    have own : tempsIn (Vm.correlate ACC TMP3).reads = [TMP3] := rfl
    rw [readsAfter_skip rfl, readsAfter_read reads, readsAfter_read own]
    simp [otherReads, ownReads, readsAfter]
  | filter o i c =>
    refine behind _ i _ rfl rfl ?_
    have text : readsAfter (e.accCode i ++ [loadGraph TMP1 ACC]) (e.filterCode o i c) = [] := by
      unfold filterCode strCode
      split_ifs <;> rfl
    have reads : tempsIn (search ACC (e.secondReg i o)).reads = [e.secondReg i o] := second i o
    rw [readsAfter_skip rfl, readsAfter_append, text, readsAfter_read reads]
    simp [otherReads, ownReads, readsAfter]
  | observe _ i | classify _ i | loadGraph _ i | store i _ | exportTo i _ | snapshot _ i _ =>
    exact behind _ i _ rfl rfl rfl
  | collect _ x | sourceEntity _ x | sourceSearch _ x | timeline _ x =>
    exact readsAfter_read (first x)
  | similar o x th => exact (readsAfter_skip rfl).trans (readsAfter_read (first x))
  | _ => rfl

end CodegenEngine

/-- The last write of a register. -/
def lastWrite (code : List Instruction) (reg : UInt8) : Option Instruction :=
  (code.filter fun instr => instr.regA = reg).getLast?

/-- Registers hold what code generation believes: at every read of the register of a string constant, the
last write of the register is the load of the constant's string. -/
def HoldsConstants (program : KirProgram) : Prop :=
  ∀ before op after, program.ops = before ++ op :: after →
    ∀ x ∈ (CodegenEngine.stateBefore program before).tempReads op,
      ∀ s, .constStr x.value s ∈ program.ops →
        ∃ idx, lastWrite ((CodegenEngine.stateBefore program before).instrs ++ x.code) x.reg =
          some (loadStr x.reg idx) ∧ (codegenKir program).getConstant idx = some (.str s)

/-! ## Reads of the operations -/

/-- What is left in the register of the string constant number `n`, when the writes begin with the string
constants in order: its string, unless a later write has the same number modulo three. -/
def leftIn (n : ℕ) (s : String) (ws : List TempWrite) : Option String :=
  match ((ws.drop (n + 1)).filter fun w => w.1 % 3 = n % 3).getLast? with
  | some w => w.2
  | none => some s

/-- Every string constant that an operation reads is still in its register. -/
def Undisturbed (program : KirProgram) : Prop :=
  ∀ before op after, program.ops = before ++ op :: after →
    ∀ x ∈ op.tempReads (accAfter none before), ∀ s, .constStr x.2 s ∈ program.ops →
      (leftIn (program.number x.2) s (program.writes before ++ x.1)).bind program.loads = some s

section Last

variable {α β : Type*} {R : α → β → Prop}

theorem forall₂_getLast? {l : List α} {l' : List β} (h : List.Forall₂ R l l') :
    Option.Rel R l.getLast? l'.getLast? := by
  induction h with
  | nil => exact .none
  | cons hd _ ih =>
    rw [List.getLast?_cons, List.getLast?_cons]
    revert ih
    generalize List.getLast? _ = a
    generalize List.getLast? _ = b
    intro ih
    cases ih with
    | none => exact .some hd
    | some h => exact .some h

end Last

namespace CodegenEngine

section Reads

variable {program : KirProgram} {before after : List KirOp} {op : KirOp} {e : CodegenEngine}
  {ids : List KirValueId} {texts : List String} {code : List Instruction} {ws : List TempWrite}

/-- A read of the emitted code is a read of the operation. -/
structure Reads (program : KirProgram) (x : TempRead) (y : List TempWrite × KirValueId) : Prop where
  value : x.value = y.2
  reg : x.reg = temp (program.number y.2)
  written : EmitsAll program x.code y.1

theorem Reached.movedReads (h : Reached program e op ids texts) :
    List.Forall₂ (Reads program) (e.movedReads op) ((op.moved e.pipelineVal).map (Prod.mk [])) := by
  have reg := fun i (hi : i ∈ op.moved e.pipelineVal) => h.movedReg hi
  unfold CodegenEngine.movedReads KirOp.moved isPipeline at *
  cases hi : op.accInput with
  | none => exact .nil
  | some i =>
    simp only [hi, decide_eq_true_eq] at reg ⊢
    split_ifs at reg ⊢
    · exact .nil
    · exact .cons ⟨rfl, reg i (List.mem_singleton_self i), emitsAll_nil rfl⟩ .nil

theorem Reached.otherReads (h : Reached program e op ids texts) :
    List.Forall₂ (Reads program) (e.otherReads op)
      (op.otherRead.toList.map (Prod.mk op.writesFirst)) := by
  have acc : ∀ i, EmitsAll program (e.accCode i) [] := emitsAll_accCode
  cases op with
  | collect _ x | sourceEntity _ x | sourceSearch _ x | timeline _ x =>
    exact .cons ⟨rfl, h.firstReg rfl rfl, emitsAll_nil rfl⟩ .nil
  | similar _ x th => exact .cons ⟨rfl, h.firstReg rfl rfl, emitsAll_nil rfl⟩ .nil
  | traverse _ i x _ | infer _ i x => exact .cons ⟨rfl, h.secondReg rfl rfl, acc i⟩ .nil
  | resolve _ i x =>
    have graph : EmitsAll program [loadGraph TMP1 ACC] [(0, none)] :=
      emitsAll_singleton (emits_other rfl (by decide))
    exact .cons ⟨rfl, h.secondReg rfl rfl, (acc i).append graph⟩ .nil
  | correlate _ i x => exact .cons ⟨rfl, h.secondReg rfl rfl, (acc i).append h.target⟩ .nil
  | _ => exact .nil

/-- The reads of the emitted code are the reads of the operation. -/
theorem Reached.reads (h : Reached program e op ids texts) :
    List.Forall₂ (Reads program) (e.tempReads op) (op.tempReads e.pipelineVal) :=
  List.rel_append h.movedReads h.otherReads

end Reads

/-- The number of a string constant is its place. -/
theorem number_eq {program : KirProgram} (nodup : (outputs program.ops).Nodup)
    {l l' : List (KirValueId × String)} {id : KirValueId} {s : String}
    (split : program.strings = l ++ (id, s) :: l') : program.number id = l.length := by
  have ids : (l.map Prod.fst ++ id :: l'.map Prod.fst).Nodup := by
    have all : (program.strings.map Prod.fst).Nodup := nodup.sublist (strings_sublist program.ops)
    rw [split, List.map_append] at all
    exact all
  have fresh : id ∉ l.map Prod.fst := by
    intro hm
    exact (List.nodup_append.1 ids).2.2 id hm id List.mem_cons_self rfl
  have more : l.map Prod.fst ++ [id] <+: program.requests program.ops := by
    simp [KirProgram.requests, split]
  unfold KirProgram.number
  rw [idxOf_eraseDups_append more (by simp), idxOf_eraseDups_concat fresh,
    eraseDups_of_nodup (List.nodup_append.1 ids).1, List.length_map]

/-- The last write into the register of a string constant. -/
theorem leftIn_eq {n : ℕ} {s : String} {ws ws' : List TempWrite} (hn : ws.length = n) :
    (((ws ++ (n, some s) :: ws').filter fun w => w.1 % 3 = n % 3).getLast?.bind Prod.snd) =
      leftIn n s (ws ++ (n, some s) :: ws') := by
  have later : (ws ++ (n, some s) :: ws').drop (n + 1) = ws' := by
    rw [← hn, List.drop_append]
    simp
  unfold leftIn
  rw [later, List.filter_append, List.filter_cons_of_pos (by simp), List.getLast?_append,
    List.getLast?_cons]
  cases (ws'.filter fun w => w.1 % 3 = n % 3).getLast? <;> rfl

/-! ## The last write of a register -/

section Written

variable {program : KirProgram} {code : List Instruction} {ws : List TempWrite}

theorem constants_addConstants (texts : List String) (p : Program) :
    (texts.foldl (fun p s => p.addConstant (.str s)) p).constants =
      p.constants ++ texts.map Json.str := by
  induction texts generalizing p with
  | nil => simp
  | cons s texts ih => rw [List.foldl_cons, ih, Program.addConstant]; simp

/-- The constants of the finished program are the pool. -/
theorem constants_codegenKir (nodup : (outputs program.ops).Nodup) :
    (codegenKir program).constants = program.pool.map Json.str := by
  have follows := follows_stateBefore nodup (List.append_nil program.ops).symm
  have consts : (new.emitAll program).consts = program.pool := follows.consts
  have added := constants_addConstants (new.emitAll program).consts (Program.new "tdxl_program")
  rw [consts] at added
  exact consts ▸ added

theorem getConstant_codegenKir (nodup : (outputs program.ops).Nodup) (k : ℕ) :
    (codegenKir program).getConstant (UInt16.ofNat k) =
      program.pool[k % 2 ^ 16]?.map Json.str := by
  have index : (UInt16.ofNat k).toNat = k % 2 ^ 16 := rfl
  rw [Program.getConstant, constants_codegenKir nodup, List.getElem?_map, index]

theorem loadStr_inj {r : UInt8} {a b : UInt16} (h : loadStr r a = loadStr r b) : a = b := by
  have imm : Int32.ofNat a.toNat = Int32.ofNat b.toNat := congrArg Instruction.imm h
  have back := congrArg Int32.toNatClampNeg imm
  have ha := a.toNat_lt
  have hb := b.toNat_lt
  rw [Int32.toNatClampNeg_ofNat_of_lt (by omega), Int32.toNatClampNeg_ofNat_of_lt (by omega)] at back
  exact UInt16.toNat.inj back

/-- The last write of a register in the code is the last write with its number. -/
theorem lastWrite_rel (h : EmitsAll program code ws) (n : ℕ) :
    Option.Rel (Emits program) (lastWrite code (temp n))
      (ws.filter fun w => w.1 % 3 = n % 3).getLast? := by
  have temps : (code.filter fun instr => instr.regA = temp n) =
      (code.filter writesTemp).filter fun instr => instr.regA = temp n := by
    rw [List.filter_filter]
    apply List.filter_congr
    intro instr _
    by_cases hr : instr.regA = temp n
    · have writes : writesTemp instr := decide_eq_true (by rw [hr]; exact isTemp_temp n)
      simp [hr, writes]
    · simp [hr]
  unfold lastWrite
  rw [temps]
  refine forall₂_getLast? (List.rel_filter (fun instr w emits => ?_) h)
  simp only [emits.reg, decide_eq_true_eq, temp_eq_iff]

/-- A register holds a string when the last write to it is a load of the string. -/
theorem loaded_iff (nodup : (outputs program.ops).Nodup) (h : EmitsAll program code ws) (n : ℕ)
    (s : String) :
    (∃ idx, lastWrite code (temp n) = some (loadStr (temp n) idx) ∧
      (codegenKir program).getConstant idx = some (.str s)) ↔
      ((ws.filter fun w => w.1 % 3 = n % 3).getLast?.bind Prod.snd).bind program.loads = some s := by
  have rel := lastWrite_rel h n
  cases hw : (ws.filter fun w => w.1 % 3 = n % 3).getLast? with
  | none =>
    rw [hw] at rel
    generalize lastWrite code (temp n) = last at rel
    cases rel
    simp
  | some w =>
    have same : temp w.1 = temp n := by
      have mem := (List.mem_filter.1 (List.mem_of_getLast? hw)).2
      exact temp_eq_iff.2 (by simpa using mem)
    rw [hw] at rel
    generalize lastWrite code (temp n) = last at rel
    cases rel with
    | some emits =>
    rename_i instr
    cases ht : w.2 with
    | none =>
      -- Something else than a string was written.
      simp only [Option.bind_some, ht, Option.bind_none, reduceCtorEq, iff_false, not_exists, not_and]
      intro idx load
      exact absurd (congrArg Instruction.opcode (Option.some.inj load)) (emits.other ht)
    | some text =>
      have load := emits.text text ht
      rw [same] at load
      have constant := getConstant_codegenKir nodup (program.pool.idxOf text)
      simp only [Option.bind_some, ht, KirProgram.loads]
      constructor
      · rintro ⟨idx, hi, hc⟩
        rw [load] at hi
        rw [← loadStr_inj (Option.some.inj hi), constant] at hc
        obtain ⟨s', hs, hj⟩ := Option.map_eq_some_iff.1 hc
        rw [hs, Json.str.inj hj]
      · intro hs
        refine ⟨_, congrArg some load, ?_⟩
        rw [constant, hs]
        rfl

end Written

/-! ## Whole programs -/

section Whole

variable {α β : Type*} {R : α → β → Prop}

theorem forall₂_forall_iff {P : α → Prop} {Q : β → Prop} {l : List α} {l' : List β}
    (h : List.Forall₂ R l l') (hpq : ∀ a b, R a b → (P a ↔ Q b)) :
    (∀ a ∈ l, P a) ↔ ∀ b ∈ l', Q b := by
  induction h with
  | nil => simp
  | cons hd _ ih => rw [List.forall_mem_cons, List.forall_mem_cons, hpq _ _ hd, ih]

/-- In a program whose values are produced once, the registers hold what code generation believes exactly
when no constant is overwritten before it is read. -/
theorem holdsConstants_iff {program : KirProgram} (nodup : (outputs program.ops).Nodup) :
    HoldsConstants program ↔ Undisturbed program := by
  unfold HoldsConstants Undisturbed
  refine forall_congr' fun before => forall_congr' fun op => forall_congr' fun after =>
    forall_congr' fun split => ?_
  have follows := follows_stateBefore nodup split
  have reached := follows.reached nodup split
  rw [← follows.pipelineVal]
  refine forall₂_forall_iff reached.reads fun x y same => ?_
  rw [same.value]
  refine forall_congr' fun s => forall_congr' fun hs => ?_
  rw [same.reg, loaded_iff nodup (follows.written.append same.written)]
  obtain ⟨l, l', place⟩ := List.append_of_mem (mem_stringsIn.2 hs)
  have number := number_eq nodup place
  have writes : program.writes before ++ y.1 =
      l.map (fun x => (program.number x.1, some x.2)) ++ (program.number y.2, some s) ::
        (l'.map (fun x => (program.number x.1, some x.2)) ++
          before.flatMap (KirOp.writes program.number) ++ y.1) := by
    have strings : program.strings = l ++ (y.2, s) :: l' := place
    simp [KirProgram.writes, strings]
  rw [writes, leftIn_eq (by rw [number, List.length_map])]

end Whole

end CodegenEngine

end TORdex
