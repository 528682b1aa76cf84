import TORdex.Tdxl.Dataflow
import TORdex.Tdxl.Slots

/-!
# What the registers hold

Code generation follows the numbering of values, operation by operation; so the last write of a
temporary in the emitted code is the last write that the operations make.
-/

namespace TORdex

open Vm

/-! ## The allocator -/

namespace RegAlloc

/-- The registers of the values that were asked for, in order. -/
structure Numbered (regs : RegAlloc) (ids : List KirValueId) : Prop where
  lookup : ∀ id, regs.map.lookup id =
    if id ∈ ids then some (temp (ids.eraseDups.idxOf id)) else none
  next : regs.nextTmp = temp ids.eraseDups.length

theorem numbered_new : Numbered new [] := ⟨fun _ => rfl, rfl⟩

section Numbered

variable {regs : RegAlloc} {ids all : List KirValueId} (id : KirValueId)

theorem Numbered.alloc (h : regs.Numbered ids) : (regs.alloc id).2.Numbered (ids ++ [id]) := by
  have hl := h.lookup id
  by_cases hid : id ∈ ids
  · rw [if_pos hid] at hl
    rw [alloc_known id hl]
    have same : (ids ++ [id]).eraseDups = ids.eraseDups := by rw [eraseDups_concat, if_pos hid]
    refine ⟨fun x => ?_, by rw [same]; exact h.next⟩
    rw [h.lookup, same]
    have mem : x ∈ ids ++ [id] ↔ x ∈ ids := by
      simp only [List.mem_append, List.mem_singleton, or_iff_left_iff_imp]
      rintro rfl
      exact hid
    simp only [mem]
  · rw [if_neg hid] at hl
    rw [alloc_fresh id hl]
    constructor
    · intro x
      dsimp only
      by_cases hx : x = id
      · subst hx
        rw [Finmap.lookup_insert, if_pos (by simp), idxOf_eraseDups_concat hid, h.next]
      · rw [Finmap.lookup_insert_of_ne _ hx, h.lookup]
        by_cases hm : x ∈ ids
        · rw [if_pos hm, if_pos (List.mem_append_left _ hm),
            idxOf_eraseDups_append (List.prefix_append _ _) hm]
        · rw [if_neg hm, if_neg (by simp [hm, hx])]
    · dsimp only
      rw [h.next, temp_succ, eraseDups_concat, if_neg hid, List.length_append, List.length_singleton]

variable {id} in
/-- The register of a value depends on its number among all values. -/
theorem Numbered.reg (h : regs.Numbered ids) (more : ids ++ [id] <+: all) :
    (regs.alloc id).1 = temp (all.eraseDups.idxOf id) := by
  have known := (h.alloc id).lookup id
  rw [lookup_alloc, if_pos (by simp)] at known
  rw [Option.some.inj known, idxOf_eraseDups_append more (by simp)]

end Numbered

theorem materialized_alloc (regs : RegAlloc) (id : KirValueId) :
    (regs.alloc id).2.materialized = regs.materialized := by
  unfold alloc
  split <;> rfl

end RegAlloc

/-! ## The constant pool -/

section Pool

variable {texts all : List String} {s : String}

theorem findIdx?_of_mem (h : s ∈ texts) : texts.findIdx? (· = s) = some (texts.idxOf s) := by
  have lt : texts.idxOf s < texts.length := List.idxOf_lt_length_iff.2 h
  exact List.findIdx?_eq_some_iff_findIdx_eq.2 ⟨lt, rfl⟩

theorem findIdx?_of_notMem (h : s ∉ texts) : texts.findIdx? (· = s) = none := by
  rw [List.findIdx?_eq_none_iff]
  rintro x hx
  have ne : x ≠ s := by
    rintro rfl
    exact h hx
  simp [ne]

theorem stringIndex_eraseDups (more : texts ++ [s] <+: all) :
    CodegenEngine.stringIndex s texts.eraseDups = UInt16.ofNat (all.eraseDups.idxOf s) := by
  unfold CodegenEngine.stringIndex
  by_cases hs : s ∈ texts
  · rw [findIdx?_of_mem (List.mem_eraseDups.2 hs),
      idxOf_eraseDups_append ((List.prefix_append _ _).trans more) hs]
  · rw [findIdx?_of_notMem (List.mem_eraseDups.not.2 hs), idxOf_eraseDups_append more (by simp),
      idxOf_eraseDups_concat hs]

theorem withString_eraseDups :
    CodegenEngine.withString s texts.eraseDups = (texts ++ [s]).eraseDups := by
  unfold CodegenEngine.withString
  rw [eraseDups_concat]
  by_cases hs : s ∈ texts
  · rw [findIdx?_of_mem (List.mem_eraseDups.2 hs), if_pos hs]
  · rw [findIdx?_of_notMem (List.mem_eraseDups.not.2 hs), if_neg hs]

end Pool

/-! ## The emitted writes -/

/-- The instruction writes a temporary.  Every instruction of the emitted code writes its first
register. -/
def writesTemp (instr : Instruction) : Bool :=
  instr.regA = TMP1 ∨ instr.regA = TMP2 ∨ instr.regA = TMP3

/-- An emitted instruction makes a write. -/
structure Emits (program : KirProgram) (instr : Instruction) (w : TempWrite) : Prop where
  reg : instr.regA = temp w.1
  text : ∀ s, w.2 = some s →
    instr = loadStr (temp w.1) (UInt16.ofNat (program.pool.idxOf s))
  other : w.2 = none → instr.opcode ≠ .loadStr

/-- The writes of the code into the temporaries are the given ones. -/
def EmitsAll (program : KirProgram) (code : List Instruction) (ws : List TempWrite) : Prop :=
  List.Forall₂ (Emits program) (code.filter writesTemp) ws

section Emits

variable {program : KirProgram} {code code' : List Instruction} {ws ws' : List TempWrite}

/-- The code writes no temporary. -/
theorem emitsAll_nil (h : code.all (fun instr => !writesTemp instr) = true) :
    EmitsAll program code [] := by
  unfold EmitsAll
  rw [List.filter_eq_nil_iff.2 fun instr hi => by simpa using List.all_eq_true.1 h instr hi]
  exact .nil

theorem EmitsAll.append (h : EmitsAll program code ws) (h' : EmitsAll program code' ws') :
    EmitsAll program (code ++ code') (ws ++ ws') := by
  unfold EmitsAll
  rw [List.filter_append]
  exact List.rel_append h h'

theorem emitsAll_singleton {instr : Instruction} {w : TempWrite} (h : Emits program instr w) :
    EmitsAll program [instr] [w] := by
  unfold EmitsAll
  have writes : writesTemp instr := by
    have temporary := isTemp_temp w.1
    rw [← h.reg] at temporary
    exact decide_eq_true temporary
  rw [List.filter_cons_of_pos writes, List.filter_nil]
  exact .cons h .nil

theorem emits_other {instr : Instruction} {n : ℕ} (reg : instr.regA = temp n)
    (other : instr.opcode ≠ .loadStr) : Emits program instr (n, none) :=
  ⟨reg, fun _ h => absurd h (by simp), fun _ => other⟩

theorem emits_text {n : ℕ} {s : String} :
    Emits program (loadStr (temp n) (UInt16.ofNat (program.pool.idxOf s))) (n, some s) :=
  ⟨rfl, fun _ h => by rw [← Option.some.inj h], fun h => absurd h (by simp)⟩

end Emits

/-! ## Operations -/

namespace CodegenEngine

section Op

variable {program : KirProgram} {e : CodegenEngine} {ids : List KirValueId} {texts : List String}

theorem numbered_accRegs (h : e.regs.Numbered ids) {op : KirOp} {i : KirValueId}
    (hi : op.accInput = some i) : (e.accRegs i).Numbered (ids ++ op.moved e.pipelineVal) := by
  unfold accRegs isPipeline KirOp.moved
  simp only [hi, decide_eq_true_eq]
  split_ifs
  · rwa [List.append_nil]
  · exact h.alloc i

/-- An operation asks for registers in the order of `asks`. -/
theorem numbered_opRegs (h : e.regs.Numbered ids) (op : KirOp) :
    (e.opRegs op).Numbered (ids ++ op.asks e.pipelineVal) := by
  unfold KirOp.asks
  rw [← List.append_assoc]
  cases op with
  | filter o i c =>
    have regs := (numbered_accRegs h (show (KirOp.filter o i c).accInput = some i from rfl)).alloc o
    simp only [opRegs]
    split_ifs
    · exact regs
    · exact ⟨regs.lookup, regs.next⟩
  | resolve _ _ x | traverse _ _ x _ | correlate _ _ x | infer _ _ x | store _ x | exportTo _ x =>
    exact (numbered_accRegs h rfl).alloc x
  | observe | classify | loadGraph | snapshot =>
    simpa [opRegs, KirOp.placed] using numbered_accRegs h rfl
  | collect _ x | sourceEntity _ x | sourceSearch _ x | similar _ x _ | timeline _ x =>
    simpa [opRegs, KirOp.moved, KirOp.accInput, KirOp.placed] using h.alloc x
  | _ => simpa [opRegs, KirOp.moved, KirOp.accInput, KirOp.placed] using h

theorem isMaterialized_accRegs {o : KirValueId} (h : o ∉ e.regs.materialized) (i : KirValueId) :
    (e.accRegs i).isMaterialized o = false := by
  unfold accRegs RegAlloc.isMaterialized
  split_ifs <;> simpa [RegAlloc.materialized_alloc] using h

/-- The strings that an operation loads enter the constant pool. -/
theorem opConsts_eq (h : e.consts = texts.eraseDups) {op : KirOp}
    (fresh : ∀ o i c, op = .filter o i c → o ∉ e.regs.materialized) :
    e.opConsts op = (texts ++ op.texts).eraseDups := by
  cases op with
  | filter o i c =>
    have new := isMaterialized_accRegs (fresh o i c rfl) i
    simp only [opConsts, new, h]
    exact withString_eraseDups
  | correlate o i t =>
    simp only [opConsts, h]
    exact withString_eraseDups
  | _ => simpa [opConsts, KirOp.texts] using h

/-- Only filters mark a value as loaded: their own. -/
theorem materialized_opRegs {op : KirOp} {id : KirValueId} (h : id ∈ (e.opRegs op).materialized) :
    id ∈ e.regs.materialized ∨ op.outputId = some id := by
  have acc : ∀ i, (e.accRegs i).materialized = e.regs.materialized := by
    intro i
    unfold accRegs
    split_ifs
    · rfl
    · exact RegAlloc.materialized_alloc _ _
  cases op with
  | filter o i c =>
    simp only [opRegs] at h
    split_ifs at h
    · rw [RegAlloc.materialized_alloc, acc] at h
      exact .inl h
    · simp only [RegAlloc.markMaterialized, RegAlloc.materialized_alloc, acc, List.mem_cons] at h
      exact h.symm.imp (fun old => old) fun same => congrArg some same.symm
  | _ =>
    simp only [opRegs, RegAlloc.materialized_alloc, acc] at h
    exact .inl h

/-- The operation stands at a place of the program that code generation has reached. -/
structure Reached (program : KirProgram) (e : CodegenEngine) (op : KirOp) (ids : List KirValueId)
    (texts : List String) : Prop where
  numbered : e.regs.Numbered ids
  ids : ids ++ op.asks e.pipelineVal <+: program.requests program.ops
  consts : e.consts = texts.eraseDups
  texts : texts ++ op.texts <+: program.texts program.ops
  fresh : ∀ o i c, op = .filter o i c → o ∉ e.regs.materialized

variable {op : KirOp}

/-- The register of the value that the operation moves to the accumulator. -/
theorem Reached.movedReg (h : Reached program e op ids texts) {i : KirValueId}
    (hi : i ∈ op.moved e.pipelineVal) : (e.regs.alloc i).1 = temp (program.number i) := by
  apply h.numbered.reg
  refine List.IsPrefix.trans ?_ h.ids
  have single : op.moved e.pipelineVal = [i] := by
    unfold KirOp.moved at hi ⊢
    split at hi
    · split_ifs at hi ⊢
      · cases hi
      · rw [List.mem_singleton.1 hi]
    · cases hi
  rw [KirOp.asks, single, ← List.append_assoc]
  exact List.prefix_append _ _

/-- The register of the other value, when the operation takes one from the accumulator. -/
theorem Reached.secondReg (h : Reached program e op ids texts) {i x : KirValueId}
    (hi : op.accInput = some i) (hx : op.placed = some x) :
    e.secondReg i x = temp (program.number x) := by
  apply (numbered_accRegs h.numbered hi).reg
  have asks : ids ++ op.asks e.pipelineVal = ids ++ op.moved e.pipelineVal ++ [x] := by
    rw [KirOp.asks, hx, List.append_assoc]
    rfl
  rw [← asks]
  exact h.ids

/-- The register of the other value, when the operation takes none. -/
theorem Reached.firstReg (h : Reached program e op ids texts) {x : KirValueId}
    (hi : op.accInput = none) (hx : op.placed = some x) :
    (e.regs.alloc x).1 = temp (program.number x) := by
  apply h.numbered.reg
  have asks : op.asks e.pipelineVal = [x] := by
    simp [KirOp.asks, KirOp.moved, hi, hx]
  rw [← asks]
  exact h.ids

theorem emitsAll_accCode (i : KirValueId) : EmitsAll program (e.accCode i) [] := by
  unfold accCode
  split_ifs <;> exact emitsAll_nil rfl

theorem Reached.target {o i x : KirValueId}
    (h : Reached program e (.correlate o i x) ids texts) :
    EmitsAll program [loadStr TMP2 (stringIndex "_target" e.consts)] [(1, some "_target")] := by
  rw [h.consts, stringIndex_eraseDups h.texts]
  exact emitsAll_singleton (emits_text (n := 1))

/-- The code of an operation makes its writes. -/
theorem Reached.emitsAll (h : Reached program e op ids texts) :
    EmitsAll program (e.opCode op) (op.writes program.number) := by
  have acc : ∀ i, EmitsAll program (e.accCode i) [] := emitsAll_accCode
  have graph : EmitsAll program [loadGraph TMP1 ACC] [(0, none)] :=
    emitsAll_singleton (emits_other rfl (by decide))
  cases op with
  | filter o i c =>
    have new : (e.accRegs i).isMaterialized o = false := isMaterialized_accRegs (h.fresh o i c rfl) i
    have text : EmitsAll program (e.filterCode o i c) [(program.number o, some (filterJson c))] := by
      have reg := h.secondReg (show (KirOp.filter o i c).accInput = some i from rfl) rfl
      unfold CodegenEngine.secondReg at reg
      simp only [filterCode, strCode, new, h.consts, stringIndex_eraseDups h.texts, reg]
      exact emitsAll_singleton emits_text
    exact (acc i).append (graph.append (text.append (emitsAll_nil rfl)))
  | resolve o i x => exact (acc i).append (graph.append (emitsAll_nil rfl))
  | correlate o i x =>
    have entity : EmitsAll program [loadEntity TMP3 (e.secondReg i x)] [(2, none)] :=
      emitsAll_singleton (emits_other rfl (show Opcode.loadEntity ≠ .loadStr by decide))
    exact (acc i).append (h.target.append (entity.append (emitsAll_nil rfl)))
  | traverse o i x d => cases d <;> exact (acc i).append (emitsAll_nil rfl)
  | observe _ i | classify _ i | loadGraph _ i | infer _ i _ | store i _ | exportTo i _
  | snapshot _ i _ => exact (acc i).append (emitsAll_nil rfl)
  | _ => exact emitsAll_nil rfl

end Op

/-! ## The whole program -/

section Whole

variable {program : KirProgram} {before after : List KirOp} {op : KirOp} {e : CodegenEngine}

/-- The state of code generation between two operations. -/
structure Follows (program : KirProgram) (before : List KirOp) (e : CodegenEngine) : Prop where
  numbered : e.regs.Numbered (program.requests before)
  consts : e.consts = (program.texts before).eraseDups
  materialized : ∀ id ∈ e.regs.materialized,
    id ∈ program.strings.map Prod.fst ∨ id ∈ outputs before
  pipelineVal : e.pipelineVal = accAfter none before
  written : EmitsAll program e.instrs (program.writes before)

theorem requests_append : program.requests (before ++ after) =
    program.requests before ++ asked (accAfter none before) after := by
  simp [KirProgram.requests, asked_append]

theorem texts_append : program.texts (before ++ after) =
    program.texts before ++ after.flatMap KirOp.texts := by
  simp [KirProgram.texts]

theorem writes_append : program.writes (before ++ after) =
    program.writes before ++ after.flatMap (KirOp.writes program.number) := by
  simp [KirProgram.writes]

/-- The next operation of a program whose values are produced once. -/
theorem Follows.reached (h : Follows program before e) (nodup : (outputs program.ops).Nodup)
    (split : program.ops = before ++ op :: after) :
    Reached program e op (program.requests before) (program.texts before) where
  numbered := h.numbered
  ids := by
    rw [h.pipelineVal, split, requests_append, asked, ← List.append_assoc]
    exact List.prefix_append _ _
  consts := h.consts
  texts := by
    rw [split, texts_append, List.flatMap_cons, ← List.append_assoc]
    exact List.prefix_append _ _
  fresh := by
    rintro o i c rfl hm
    have here : KirOp.filter o i c ∈ program.ops := by simp [split]
    rcases h.materialized o hm with hs | ho
    · obtain ⟨⟨id, s⟩, hmem, rfl⟩ := List.mem_map.1 hs
      cases producer_unique nodup here (mem_stringsIn.1 hmem) rfl rfl
    · rw [split, outputs_append, List.nodup_append] at nodup
      exact nodup.2.2 o ho o (mem_outputs.2 ⟨_, List.mem_cons_self, rfl⟩) rfl

theorem Follows.step (h : Follows program before e) (nodup : (outputs program.ops).Nodup)
    (split : program.ops = before ++ op :: after) (temps : e.regs.Temps) :
    Follows program (before ++ [op]) (e.emitOp op) := by
  have reached := h.reached nodup split
  rw [emitOp_eq temps]
  constructor
  · rw [requests_append, asked, asked, List.append_nil, ← h.pipelineVal]
    exact numbered_opRegs h.numbered op
  · rw [texts_append, List.flatMap_singleton]
    exact opConsts_eq h.consts reached.fresh
  · intro id hid
    rw [outputs_append, List.mem_append]
    rcases materialized_opRegs hid with old | new
    · exact (h.materialized id old).imp_right .inl
    · exact .inr (.inr (mem_outputs.2 ⟨op, List.mem_singleton_self op, new⟩))
  · simp only [h.pipelineVal, accAfter, List.foldl_append, List.foldl_cons, List.foldl_nil]
  · rw [writes_append, List.flatMap_singleton]
    exact h.written.append reached.emitsAll

theorem follows_emitOps (nodup : (outputs program.ops).Nodup)
    (start : Follows program [] e) (temps : e.regs.Temps)
    (split : program.ops = before ++ after) : Follows program before (before.foldl emitOp e) := by
  induction before using List.reverseRecOn generalizing after with
  | nil => exact start
  | append_singleton before op ih =>
    rw [List.append_assoc] at split
    rw [List.foldl_concat]
    exact (ih split).step nodup split (temps_emitOps temps before)

/-- The state of code generation after the constants of some operations. -/
structure Preloaded (program : KirProgram) (done : List KirOp) (e : CodegenEngine) : Prop where
  numbered : e.regs.Numbered ((stringsIn done).map Prod.fst)
  consts : e.consts = ((stringsIn done).map Prod.snd).eraseDups
  materialized : ∀ id ∈ e.regs.materialized, id ∈ (stringsIn done).map Prod.fst
  pipelineVal : e.pipelineVal = none
  written : EmitsAll program e.instrs
    ((stringsIn done).map fun x => (program.number x.1, some x.2))

theorem Preloaded.skip {done : List KirOp} (h : Preloaded program done e)
    (none : stringsIn [op] = []) : Preloaded program (done ++ [op]) e := by
  have same : stringsIn (done ++ [op]) = stringsIn done := by
    unfold stringsIn at none ⊢
    rw [List.filterMap_append, none, List.append_nil]
  refine ⟨by rw [same]; exact h.numbered, by rw [same]; exact h.consts, fun id hid => ?_,
    h.pipelineVal, by rw [same]; exact h.written⟩
  rw [same]
  exact h.materialized id hid

theorem Preloaded.step {done rest : List KirOp} (h : Preloaded program done e)
    (nodup : (outputs program.ops).Nodup) (split : program.ops = done ++ op :: rest) :
    Preloaded program (done ++ [op]) (e.preload op) := by
  cases op with
  | constStr o s =>
    have fresh : e.regs.isMaterialized o = false := by
      refine decide_eq_false fun hm => ?_
      obtain ⟨⟨id, s'⟩, earlier, rfl⟩ := List.mem_map.1 (h.materialized o hm)
      rw [split, outputs_append, List.nodup_append] at nodup
      exact nodup.2.2 id (mem_outputs.2 ⟨_, mem_stringsIn.1 earlier, rfl⟩) id
        (mem_outputs.2 ⟨_, List.mem_cons_self, rfl⟩) rfl
    have strings : stringsIn (done ++ [.constStr o s]) = stringsIn done ++ [(o, s)] := by
      simp [stringsIn]
    have whole : program.strings = stringsIn done ++ (o, s) :: stringsIn rest := by
      simp [KirProgram.strings, split, stringsIn]
    have ids : (stringsIn done).map Prod.fst ++ [o] <+: program.requests program.ops := by
      simp [KirProgram.requests, whole]
    have texts : (stringsIn done).map Prod.snd ++ [s] <+: program.texts program.ops := by
      simp [KirProgram.texts, whole]
    simp only [preload, emitLoadStr_eq, fresh, strCode]
    constructor
    · rw [strings, List.map_append]
      exact ⟨(h.numbered.alloc o).lookup, (h.numbered.alloc o).next⟩
    · rw [strings, List.map_append, h.consts]
      exact withString_eraseDups
    · intro id hid
      rw [strings, List.map_append, List.mem_append]
      simp only [RegAlloc.markMaterialized, RegAlloc.materialized_alloc] at hid
      rcases List.mem_cons.1 hid with rfl | old
      · exact .inr (List.mem_singleton_self _)
      · exact .inl (h.materialized id old)
    · exact h.pipelineVal
    · rw [strings, List.map_append, h.consts, stringIndex_eraseDups texts, h.numbered.reg ids]
      exact h.written.append (emitsAll_singleton emits_text)
  | _ => exact h.skip (by simp [stringsIn])

theorem preloaded {done rest : List KirOp} (nodup : (outputs program.ops).Nodup)
    (split : program.ops = done ++ rest) : Preloaded program done (done.foldl preload new) := by
  induction done using List.reverseRecOn generalizing rest with
  | nil => exact ⟨RegAlloc.numbered_new, rfl, List.forall_mem_nil _, rfl, emitsAll_nil rfl⟩
  | append_singleton done op ih =>
    rw [List.append_assoc] at split
    rw [List.foldl_concat]
    exact (ih split).step nodup split

/-- Code generation follows the numbering of the values. -/
theorem follows_stateBefore (nodup : (outputs program.ops).Nodup)
    (split : program.ops = before ++ after) : Follows program before (stateBefore program before) := by
  have loaded := preloaded nodup (List.append_nil program.ops).symm
  have start : Follows program [] (program.ops.foldl preload new) := by
    refine ⟨?_, ?_, ?_, loaded.pipelineVal, ?_⟩
    · simpa [KirProgram.requests, KirProgram.strings, asked] using loaded.numbered
    · simpa [KirProgram.texts, KirProgram.strings] using loaded.consts
    · exact fun id hid => .inl (loaded.materialized id hid)
    · simpa [KirProgram.writes, KirProgram.strings] using loaded.written
  exact follows_emitOps nodup start (temps_preload RegAlloc.temps_new program.ops) split

end Whole

end CodegenEngine

end TORdex
