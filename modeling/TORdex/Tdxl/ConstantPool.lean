import TORdex.Tdxl.Clobbering

/-!
# The strings behind the constant pool

Code generation gives each string it loads its place in the constant pool, cut down to 16 bits.  Here are the
strings that it loads, as a function of the program, and when the loads find them in the finished program.
-/

namespace TORdex

open Vm

/-- The values that a load was emitted for, and the strings that the loads are meant to write, in order. -/
structure Loads where
  marked : List KirValueId
  texts : List String

namespace Loads

/-- `emit_load_str`: a value is loaded once. -/
def load (l : Loads) (id : KirValueId) (s : String) : Loads :=
  if id ∈ l.marked then l else ⟨id :: l.marked, l.texts ++ [s]⟩

/-- The load of a string constant, before all operations. -/
def constant (l : Loads) : KirOp → Loads
  | .constStr output value => l.load output value
  | _ => l

/-- The loads of an operation. -/
def operation (l : Loads) : KirOp → Loads
  | .filter output _ cond => l.load output (CodegenEngine.filterJson cond)
  | .correlate .. => { l with texts := l.texts ++ ["_target"] }
  | _ => l

end Loads

/-- The strings that the loads of a program are meant to write, in order. -/
def KirProgram.loadedTexts (program : KirProgram) : List String :=
  (program.ops.foldl Loads.operation (program.ops.foldl Loads.constant ⟨[], []⟩)).texts

/-- The instruction loads a string constant. -/
def isLoadStr (instr : Instruction) : Bool := instr.opcode = .loadStr

/-- Wherever the instruction stands in a program that is being executed, a step of the executor writes the
string into its register and changes no other. -/
def WritesString (program : Program) (instr : Instruction) (s : String) : Prop :=
  ∀ (W : Type) (svc : Services W) (ctx : ExecutionContext W), ctx.program = program →
    program.instructions[ctx.pc]? = some instr →
    ∃ regs, ctx.regs.write instr.regA (.string s) = .ok regs ∧
      Executor.step svc ctx = (.ok .continued, { ctx with regs, pc := ctx.pc + 1 })

/-- Every `load_str` of the finished program writes the string that was meant. -/
def ResolvesStrings (program : KirProgram) : Prop :=
  List.Forall₂ (WritesString (codegenKir program))
    ((codegenKir program).instructions.filter isLoadStr) program.loadedTexts

/-! ## What code generation emits -/

namespace CodegenEngine

/-- The instruction loads the place of the string in a pool into a temporary. -/
def LoadsPlace (pool : List String) (instr : Instruction) (s : String) : Prop :=
  s ∈ pool ∧ ∃ r, IsTemp r ∧ instr = loadStr r (UInt16.ofNat (pool.idxOf s))

/-- Code generation has emitted the loads. -/
structure Emitted (e : CodegenEngine) (l : Loads) : Prop where
  temps : e.regs.Temps
  marked : e.regs.materialized = l.marked
  consts : e.consts = l.texts.eraseDups
  loads : List.Forall₂ (LoadsPlace e.consts) (e.instrs.filter isLoadStr) l.texts

section Steps

variable {e : CodegenEngine} {l : Loads}

/-- A place in the pool stays when strings are added. -/
theorem LoadsPlace.mono {texts more : List String} {instr : Instruction} {s : String}
    (h : LoadsPlace texts.eraseDups instr s) : LoadsPlace (texts ++ more).eraseDups instr s := by
  obtain ⟨hs, r, temp, rfl⟩ := h
  have here := List.mem_eraseDups.1 hs
  refine ⟨List.mem_eraseDups.2 (List.mem_append_left _ here), r, temp, ?_⟩
  rw [idxOf_eraseDups_append (List.prefix_append _ _) here]

/-- One more load. -/
theorem Emitted.loads_concat (h : Emitted e l) {r : UInt8} (temp : IsTemp r) (s : String) :
    List.Forall₂ (LoadsPlace (l.texts ++ [s]).eraseDups)
      (e.instrs.filter isLoadStr ++ [loadStr r (stringIndex s e.consts)]) (l.texts ++ [s]) := by
  have before := h.loads
  rw [h.consts] at before ⊢
  refine List.rel_append (before.imp fun _ _ place => place.mono) ?_
  refine List.Forall₂.cons ⟨List.mem_eraseDups.2 (by simp), r, temp, ?_⟩ .nil
  rw [stringIndex_eraseDups (List.prefix_refl _)]

theorem isMaterialized_iff (h : Emitted e l) (id : KirValueId) :
    e.regs.isMaterialized id = true ↔ id ∈ l.marked := by
  rw [RegAlloc.isMaterialized, h.marked, decide_eq_true_eq]

/-- No load was emitted. -/
theorem Emitted.keep {e' : CodegenEngine} (h : Emitted e l) (temps : e'.regs.Temps)
    (marked : e'.regs.materialized = e.regs.materialized) (consts : e'.consts = e.consts)
    (loads : e'.instrs.filter isLoadStr = e.instrs.filter isLoadStr) : Emitted e' l :=
  ⟨temps, marked.trans h.marked, consts.trans h.consts, by rw [consts, loads]; exact h.loads⟩

/-- One load was emitted. -/
theorem Emitted.loaded {e' : CodegenEngine} {s : String} {r : UInt8} (h : Emitted e l)
    (temps : e'.regs.Temps) (consts : e'.consts = withString s e.consts) (temp : IsTemp r)
    (loads : e'.instrs.filter isLoadStr =
      e.instrs.filter isLoadStr ++ [loadStr r (stringIndex s e.consts)]) :
    Emitted e' ⟨e'.regs.materialized, l.texts ++ [s]⟩ := by
  have pool : e'.consts = (l.texts ++ [s]).eraseDups := by
    rw [consts, h.consts]
    exact withString_eraseDups
  refine ⟨temps, rfl, pool, ?_⟩
  rw [pool, loads]
  exact h.loads_concat temp s

theorem emitted_new : Emitted new ⟨[], []⟩ := ⟨RegAlloc.temps_new, rfl, rfl, .nil⟩

/-- The load of a constant. -/
theorem Emitted.preload (h : Emitted e l) (op : KirOp) : Emitted (e.preload op) (l.constant op) := by
  have temps : (e.preload op).regs.Temps := temps_preload h.temps [op]
  cases op with
  | constStr id s =>
    by_cases hm : e.regs.isMaterialized id = true
    · have known : l.load id s = l := if_pos ((isMaterialized_iff h id).1 hm)
      show Emitted _ (l.load id s)
      rw [known]
      refine h.keep temps ?_ ?_ ?_ <;>
        simp [CodegenEngine.preload, emitLoadStr_eq, hm, strCode, RegAlloc.materialized_alloc]
    · have fresh : l.load id s = ⟨id :: l.marked, l.texts ++ [s]⟩ :=
        if_neg (mt (isMaterialized_iff h id).2 hm)
      have marked : (e.preload (.constStr id s)).regs.materialized = id :: l.marked := by
        simp [CodegenEngine.preload, emitLoadStr_eq, hm, RegAlloc.markMaterialized,
          RegAlloc.materialized_alloc, h.marked]
      show Emitted _ (l.load id s)
      rw [fresh, ← marked]
      refine h.loaded temps ?_ (h.temps.alloc id).1 ?_
      · simp [CodegenEngine.preload, emitLoadStr_eq, hm]
      · simp [CodegenEngine.preload, emitLoadStr_eq, hm, strCode, List.filter_append, isLoadStr, loadStr,
          Instruction.new, Instruction.withRegA, Instruction.withImm]
  | _ => exact h

theorem loads_accCode (e : CodegenEngine) (id : KirValueId) : (e.accCode id).filter isLoadStr = [] := by
  rw [List.filter_eq_nil_iff]
  intro i hi
  rw [eq_of_mem_accCode hi]
  simp [isLoadStr, mov, Instruction.new, Instruction.withRegA, Instruction.withRegB]

theorem materialized_accRegs (e : CodegenEngine) (id : KirValueId) :
    (e.accRegs id).materialized = e.regs.materialized := by
  unfold accRegs
  split_ifs
  · rfl
  · exact RegAlloc.materialized_alloc _ _

/-- Only filters and correlations load strings. -/
theorem loads_opCode (e : CodegenEngine) {op : KirOp} (noFilter : ∀ o i c, op ≠ .filter o i c)
    (noCorrelate : ∀ o i t, op ≠ .correlate o i t) : (e.opCode op).filter isLoadStr = [] := by
  have after : ∀ {id : KirValueId} {code : List Instruction}, code.filter isLoadStr = [] →
      (e.accCode id ++ code).filter isLoadStr = [] := by
    intro id code none
    rw [List.filter_append, loads_accCode, none, List.append_nil]
  cases op with
  | filter o i c => exact absurd rfl (noFilter o i c)
  | correlate o i t => exact absurd rfl (noCorrelate o i t)
  | traverse o i r d => cases d <;> exact after rfl
  | observe | classify | loadGraph | resolve | infer | store | exportTo | snapshot => exact after rfl
  | _ => rfl

/-- The loads of an operation. -/
theorem Emitted.emitOp (h : Emitted e l) (op : KirOp) : Emitted (e.emitOp op) (l.operation op) := by
  have temps := temps_opRegs h.temps op
  have marked := materialized_accRegs e
  rw [emitOp_eq h.temps]
  cases op with
  | filter o i c =>
    have known : (e.accRegs i).isMaterialized o = true ↔ o ∈ l.marked := by
      rw [RegAlloc.isMaterialized, marked, h.marked, decide_eq_true_eq]
    have code : (e.opCode (.filter o i c)).filter isLoadStr = e.filterCode o i c := by
      have text : (e.filterCode o i c).filter isLoadStr = e.filterCode o i c := by
        refine List.filter_eq_self.2 fun instr hi => ?_
        rw [eq_of_mem_strCode hi]
        rfl
      simp only [opCode, List.filter_append, List.filter_cons, loads_accCode, text]
      simp [isLoadStr, loadGraph, search, Instruction.new, Instruction.withRegA, Instruction.withRegB]
    show Emitted _ (l.load o (filterJson c))
    by_cases hm : (e.accRegs i).isMaterialized o = true
    · rw [Loads.load, if_pos (known.1 hm)]
      refine h.keep temps ?_ ?_ ?_
      · simp only [opRegs, hm, if_true, RegAlloc.materialized_alloc, marked]
      · simp only [opConsts, hm, if_true]
      · rw [List.filter_append, code, filterCode, strCode]
        simp [hm]
    · have tag : (e.opRegs (.filter o i c)).materialized = o :: l.marked := by
        simp [opRegs, hm, RegAlloc.markMaterialized, RegAlloc.materialized_alloc, marked, h.marked]
      rw [Loads.load, if_neg (mt known.2 hm), ← tag]
      refine h.loaded temps ?_ ((Temps.accRegs h.temps i).alloc o).1 ?_
      · simp only [opConsts, hm, Bool.false_eq_true, if_false]
      · rw [List.filter_append, code, filterCode, strCode]
        simp [hm]
  | correlate o i t =>
    have tag : (e.opRegs (.correlate o i t)).materialized = l.marked := by
      simp only [opRegs, RegAlloc.materialized_alloc, marked, h.marked]
    show Emitted _ ⟨l.marked, l.texts ++ ["_target"]⟩
    rw [← tag]
    refine h.loaded temps rfl (.inr (.inl rfl)) ?_
    rw [List.filter_append, opCode, List.filter_append, loads_accCode]
    rfl
  | _ =>
    refine h.keep temps ?_ rfl ?_
    · simp only [opRegs, RegAlloc.materialized_alloc, marked]
    · rw [List.filter_append, loads_opCode, List.append_nil]
      · rintro _ _ _ ⟨⟩
      · rintro _ _ _ ⟨⟩

theorem Emitted.foldl {f : CodegenEngine → KirOp → CodegenEngine} {g : Loads → KirOp → Loads}
    (step : ∀ {e l}, Emitted e l → ∀ op, Emitted (f e op) (g l op)) (h : Emitted e l)
    (ops : List KirOp) : Emitted (ops.foldl f e) (ops.foldl g l) := by
  induction ops generalizing e l with
  | nil => exact h
  | cons op ops ih => exact ih (step h op)

end Steps

/-- Code generation emits the loads of the program. -/
theorem emitted_emitAll (program : KirProgram) : Emitted (new.emitAll program)
    (program.ops.foldl Loads.operation (program.ops.foldl Loads.constant ⟨[], []⟩)) :=
  Emitted.foldl Emitted.emitOp (Emitted.foldl Emitted.preload emitted_new program.ops) program.ops

end CodegenEngine

/-! ## What the loads write -/

section Finished

variable {program : KirProgram}

/-- The pool of a program: its strings, each once. -/
theorem consts_emitAll (program : KirProgram) :
    (CodegenEngine.new.emitAll program).consts = program.loadedTexts.eraseDups :=
  (CodegenEngine.emitted_emitAll program).consts

/-- The constants of the finished program. -/
theorem constants_finish (program : KirProgram) :
    (codegenKir program).constants = program.loadedTexts.eraseDups.map Json.str := by
  have added := CodegenEngine.constants_addConstants (CodegenEngine.new.emitAll program).consts
    (Program.new "tdxl_program")
  rw [consts_emitAll] at added
  exact consts_emitAll program ▸ added

/-- The string that a `load_str` writes. -/
theorem loadStrValue_loadStr (p : Program) (r : UInt8) (idx : UInt16) :
    Executor.loadStrValue (loadStr r idx) p =
      .string (((p.getConstant idx).bind Json.asStr).getD "") := by
  have small := idx.toNat_lt
  have imm : (loadStr r idx).imm.toInt = idx.toNat := Int32.toInt_ofNat_of_lt (by omega)
  have back : UInt16.ofNat ((loadStr r idx).imm.toInt % 2 ^ 16).toNat = idx := by
    rw [imm, Int.emod_eq_of_lt (Int.natCast_nonneg _) (by omega), Int.toNat_natCast, UInt16.ofNat_toNat]
  rw [Executor.loadStrValue, back]

/-- A `load_str` of the program writes the string at its index. -/
theorem writesString_iff {p : Program} {r : UInt8} {idx : UInt16} {s : String} (temp : IsTemp r)
    (stands : loadStr r idx ∈ p.instructions) :
    WritesString p (loadStr r idx) s ↔ ((p.getConstant idx).bind Json.asStr).getD "" = s := by
  have step : ∀ {W : Type} (svc : Services W) (ctx : ExecutionContext W), ctx.program = p →
      p.instructions[ctx.pc]? = some (loadStr r idx) →
      Executor.step svc ctx = (.ok .continued, { ctx with
        regs := ctx.regs.set r.toNat (.string (((p.getConstant idx).bind Json.asStr).getD "")) temp.lt
        pc := ctx.pc + 1 }) := by
    rintro W svc ctx rfl here
    unfold Executor.step
    rw [here]
    show Executor.finish _ _ (.ok (Executor.loadStrValue (loadStr r idx) ctx.program)) = _
    rw [loadStrValue_loadStr]
    have write (v : RegisterValue) : ctx.regs.write (loadStr r idx).regA v = .ok (ctx.regs.set r.toNat v temp.lt) := by
      show RegisterFile.write ctx.regs r v = _
      rw [RegisterFile.write, dif_pos temp.lt]
    simp only [Executor.finish, write]
    rfl
  constructor
  · intro writes
    obtain ⟨k, hk, here⟩ := List.mem_iff_getElem.1 stands
    have there := List.getElem?_eq_some_iff.2 ⟨hk, here⟩
    let ctx : ExecutionContext Unit := { ExecutionContext.new p () with pc := k }
    obtain ⟨regs, written, stepped⟩ := writes Unit (echo fun _ => []) ctx rfl there
    rw [step _ ctx rfl there] at stepped
    rw [show (loadStr r idx).regA = r from rfl, RegisterFile.write, dif_pos temp.lt] at written
    have same : ctx.regs.set r.toNat _ temp.lt = ctx.regs.set r.toNat _ temp.lt :=
      (congrArg (fun x => x.2.regs) stepped).trans (Except.ok.inj written).symm
    have value := congrArg (fun regs : RegisterFile => regs[r.toNat]?) same
    simpa [temp.lt] using value
  · rintro rfl W svc ctx hp here
    exact ⟨_, dif_pos temp.lt, step svc ctx hp here⟩

/-- A load writes its string exactly when the place of the string fits into 16 bits. -/
theorem writesString_place {instr : Instruction} {s : String}
    (place : CodegenEngine.LoadsPlace program.loadedTexts.eraseDups instr s)
    (stands : instr ∈ (codegenKir program).instructions) :
    WritesString (codegenKir program) instr s ↔ program.loadedTexts.eraseDups.idxOf s < 2 ^ 16 := by
  obtain ⟨hs, r, temp, rfl⟩ := place
  have pool : ∀ k, (codegenKir program).getConstant (UInt16.ofNat k) =
      program.loadedTexts.eraseDups[k % 2 ^ 16]?.map Json.str := by
    intro k
    rw [Program.getConstant, constants_finish, List.getElem?_map, UInt16.toNat_ofNat']
  have inside := List.idxOf_lt_length_of_mem hs
  have cut : program.loadedTexts.eraseDups.idxOf s % 2 ^ 16 < program.loadedTexts.eraseDups.length :=
    (Nat.mod_le _ _).trans_lt inside
  rw [writesString_iff temp stands, pool, List.getElem?_eq_getElem cut]
  show program.loadedTexts.eraseDups[_] = s ↔ _
  constructor
  · intro same
    have position := List.Nodup.idxOf_getElem (nodup_eraseDups program.loadedTexts) _ cut
    rw [same] at position
    rw [position]
    exact Nat.mod_lt _ (by decide)
  · intro small
    simp only [Nat.mod_eq_of_lt small]
    exact List.getElem_idxOf inside

theorem forall₂_iff_of_rel {α β : Type*} {R S : α → β → Prop} {T : β → Prop} {l : List α} {l' : List β}
    (h : List.Forall₂ R l l') (same : ∀ a ∈ l, ∀ b, R a b → (S a b ↔ T b)) :
    List.Forall₂ S l l' ↔ ∀ b ∈ l', T b := by
  induction h with
  | nil => simp
  | cons hab _ ih =>
    rw [List.forall₂_cons, List.forall_mem_cons, same _ List.mem_cons_self _ hab,
      ih fun a ha => same a (List.mem_cons_of_mem _ ha)]

theorem resolvesStrings_iff_length (program : KirProgram) :
    ResolvesStrings program ↔ program.loadedTexts.eraseDups.length ≤ 2 ^ 16 := by
  have emitted := CodegenEngine.emitted_emitAll program
  have code : (codegenKir program).instructions = (CodegenEngine.new.emitAll program).instrs ++ [halt] :=
    rfl
  have loads : (codegenKir program).instructions.filter isLoadStr =
      (CodegenEngine.new.emitAll program).instrs.filter isLoadStr := by
    rw [code, List.filter_append]
    exact List.append_nil _
  have places : List.Forall₂ (CodegenEngine.LoadsPlace program.loadedTexts.eraseDups)
      ((codegenKir program).instructions.filter isLoadStr) program.loadedTexts := by
    rw [loads, ← consts_emitAll]
    exact emitted.loads
  have each : ResolvesStrings program ↔
      ∀ s ∈ program.loadedTexts, program.loadedTexts.eraseDups.idxOf s < 2 ^ 16 :=
    forall₂_iff_of_rel places fun instr hi s place => writesString_place place (List.mem_filter.1 hi).1
  rw [each]
  constructor
  · intro small
    by_contra large
    have inside : 2 ^ 16 < program.loadedTexts.eraseDups.length := by omega
    have position := List.Nodup.idxOf_getElem (nodup_eraseDups program.loadedTexts) _ inside
    have early := small _ (List.mem_eraseDups.1 (List.getElem_mem inside))
    omega
  · intro few s hs
    have := List.idxOf_lt_length_of_mem (List.mem_eraseDups.2 hs)
    omega

/-- Every `load_str` of the finished program writes the string that was meant exactly when the program loads
at most 65536 different strings. -/
theorem resolvesStrings_iff (program : KirProgram) :
    ResolvesStrings program ↔ program.loadedTexts.toFinset.card ≤ 2 ^ 16 := by
  have size : program.loadedTexts.toFinset.card = program.loadedTexts.eraseDups.length := by
    rw [← List.toFinset_card_of_nodup (nodup_eraseDups program.loadedTexts)]
    congr 1
    ext s
    simp
  rw [size, resolvesStrings_iff_length]

end Finished

/-! ## A program with many strings -/

/-- One constant for each number below `n`, the strings `a`, `aa` and so on. -/
def manyStrings (n : ℕ) : KirProgram :=
  ⟨(List.range n).map fun k => .constStr k (String.ofList (List.replicate k 'a')), none, n⟩

theorem loadedTexts_manyStrings (n : ℕ) : (manyStrings n).loadedTexts =
    (List.range n).map fun k => String.ofList (List.replicate k 'a') := by
  have constants : (manyStrings n).ops.foldl Loads.constant ⟨[], []⟩ =
      ⟨(List.range n).reverse, (List.range n).map fun k => String.ofList (List.replicate k 'a')⟩ := by
    induction n with
    | zero => rfl
    | succ n ih =>
      have split : (manyStrings (n + 1)).ops =
          (manyStrings n).ops ++ [.constStr n (String.ofList (List.replicate n 'a'))] := by
        simp [manyStrings, List.range_succ]
      rw [split, List.foldl_append, ih]
      simp [Loads.constant, Loads.load, List.range_succ]
  have operations : ∀ (ops : List KirOp) (l : Loads), (∀ op ∈ ops, ∃ id s, op = .constStr id s) →
      ops.foldl Loads.operation l = l := by
    intro ops
    induction ops with
    | nil => exact fun _ _ => rfl
    | cons op ops ih =>
      intro l all
      obtain ⟨id, s, rfl⟩ := all op List.mem_cons_self
      exact ih l fun op hop => all op (List.mem_cons_of_mem _ hop)
  unfold KirProgram.loadedTexts
  rw [operations, constants]
  intro op hop
  obtain ⟨k, -, rfl⟩ := List.mem_map.1 hop
  exact ⟨_, _, rfl⟩

/-- With 65537 strings the last load gets the place of the first. -/
theorem not_resolvesStrings : ¬ResolvesStrings (manyStrings (2 ^ 16 + 1)) := by
  rw [resolvesStrings_iff_length, loadedTexts_manyStrings, eraseDups_of_nodup, List.length_map,
    List.length_range]
  · omega
  · refine List.nodup_range.map fun a b same => ?_
    have lists := congrArg String.toList same
    simpa using congrArg List.length lists

end TORdex
