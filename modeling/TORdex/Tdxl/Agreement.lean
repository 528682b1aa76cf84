import TORdex.Tdxl.Emission

/-!
# Where the executor finds its operands

A register reaches an operand when no instruction before it overwrites it.  That a register matters is
seen in a world that answers each query with a part of the query itself.
-/

namespace TORdex

open Vm Vm.Executor CodegenEngine

/-! ## Operands that arrive -/

/-- After the code, one register holds what another one held before it. -/
def Arrives (program : Program) (code : List Instruction) (reg r : UInt8) : Prop :=
  ∀ (W : Type) (svc : Services W) (s s' : Data W), runCode svc program code s = .ok s' →
    s'.1.contents r = s.1.contents reg

section Fed

variable {program : Program} {start : ℕ} {pre post : List Instruction} {instr : Instruction}
  {operand : Operand} {reg r : UInt8}

theorem arrives_kept (kept : ∀ i ∈ pre, i.regA ≠ r) : Arrives program pre r r :=
  fun _ _ _ _ run => contents_runCode kept run

theorem fed_of (located : CodeAt program start (pre ++ instr :: post)) (data : AllData pre)
    (reads : operandReg instr operand = some r) (arrives : Arrives program pre reg r) :
    Fed program start (pre ++ instr :: post) operand reg := by
  refine ⟨pre, instr, post, r, rfl, reads, fun W svc ctx ctx' hp hs run => ?_⟩
  subst hp hs
  rw [steps_block data located.left] at run
  cases h : runCode svc ctx.program pre (ctx.regs, ctx.world) with
  | error e =>
    rw [h] at run
    cases run
  | ok s =>
    rw [h] at run
    cases run
    exact arrives W svc _ s h

end Fed

namespace CodegenEngine

section Acc

variable {W : Type} {svc : Services W} {program : Program} {e : CodegenEngine}

/-- Bringing a value into the accumulator copies its register there. -/
theorem runCode_accCode (temps : e.regs.Temps) (id : KirValueId) (s : Data W) :
    runCode svc program (e.accCode id) s = .ok (s.1.put ACC (s.1.contents (e.accReg id)), s.2) := by
  unfold accCode accReg
  split_ifs with hp
  · rw [RegisterFile.put_contents]
    rfl
  · have value : valueOf svc program (mov ACC (e.regs.alloc id).1) (s.1, s.2) =
        .ok (s.1.contents (e.regs.alloc id).1, s.2) := valueOf_mov (temps.alloc id).1.lt
    simp only [runCode]
    rw [execData_eq value (show ACC.toNat < 32 by decide)]
    rfl

theorem arrives_acc (temps : e.regs.Temps) {id : KirValueId} {mid : List Instruction}
    (kept : ∀ i ∈ mid, i.regA ≠ ACC) :
    Arrives program (e.accCode id ++ mid) (e.accReg id) ACC := by
  intro W svc s s' run
  rw [runCode_append, runCode_accCode temps] at run
  rw [contents_runCode kept run]
  exact RegisterFile.contents_put_self (by decide)

/-- Only the accumulator is written on the way. -/
theorem accCode_keeps {id : KirValueId} {r : UInt8} (hr : r ≠ ACC) :
    ∀ i ∈ e.accCode id, i.regA ≠ r := fun i hi => by
  rw [eq_of_mem_accCode hi]
  exact hr.symm

theorem strCode_regA {id : KirValueId} {text : String} {i : Instruction}
    (h : i ∈ e.strCode id text) : i.regA = (e.regs.alloc id).1 := by
  rw [eq_of_mem_strCode h]
  rfl

end Acc

end CodegenEngine

/-! ## Registers that matter -/

section Echo

variable {pick : SemanticQuery → List String} {program : Program}

theorem queryFacts_echo (query : SemanticQuery) :
    queryFacts (echo pick) () query = .ok (.facts ((pick query).map .string)) := by
  simp [queryFacts, echo, factValues]

/-- Instructions that cannot fail when queries are answered. -/
inductive Calm : Instruction → Prop
  | mov {d a : UInt8} (hd : d.toNat < 32) (ha : a.toNat < 32) : Calm (mov d a)
  | loadStr {d : UInt8} (hd : d.toNat < 32) (idx : UInt16) : Calm (loadStr d idx)
  | loadImm {d : UInt8} (hd : d.toNat < 32) (value : Int32) : Calm (loadImm d value)
  | loadEntity {d a : UInt8} (hd : d.toNat < 32) (ha : a.toNat < 32) : Calm (loadEntity d a)
  | loadGraph {d a : UInt8} (hd : d.toNat < 32) (ha : a.toNat < 32) : Calm (loadGraph d a)

theorem Calm.regA {instr : Instruction} (calm : Calm instr) : instr.regA.toNat < 32 := by
  cases calm <;> assumption

variable (pick program) in
theorem valueOf_calm {instr : Instruction} (calm : Calm instr) (regs : RegisterFile) :
    ∃ v, valueOf (echo pick) program instr (regs, ()) = .ok (v, ()) := by
  cases calm with
  | mov _ ha => exact ⟨_, valueOf_mov ha⟩
  | loadStr => exact ⟨_, rfl⟩
  | loadImm => exact ⟨_, rfl⟩
  | loadEntity _ ha => exact ⟨_, valueOf_loadEntity ha⟩
  | loadGraph _ ha =>
    rw [valueOf_loadGraph ha, queryFacts_echo]
    exact ⟨_, rfl⟩

variable (pick program) in
theorem runCode_calm {code : List Instruction} (calm : ∀ i ∈ code, Calm i) (s : Data Unit) :
    ∃ s', runCode (echo pick) program code s = .ok s' := by
  induction code generalizing s with
  | nil => exact ⟨s, rfl⟩
  | cons instr code ih =>
    obtain ⟨v, hv⟩ := valueOf_calm pick program
      (calm instr List.mem_cons_self) s.1
    simp only [runCode]
    rw [execData_eq hv (calm instr List.mem_cons_self).regA]
    exact ih (fun i hi => calm i (List.mem_cons_of_mem _ hi)) _

/-- The registers of an execution whose only content is a text. -/
def only (reg : UInt8) (text : String) : RegisterFile := RegisterFile.new.put reg (.string text)

theorem contents_new (r : UInt8) : RegisterFile.new.contents r = .nil := by
  unfold RegisterFile.contents RegisterFile.new
  by_cases h : r.toNat < 32
  · rw [Vector.getElem?_eq_getElem h, Vector.getElem_replicate]
    rfl
  · rw [Vector.getElem?_eq_none (by omega)]
    rfl

theorem contents_only_self {reg : UInt8} (h : reg.toNat < 32) {text : String} :
    (only reg text).contents reg = .string text := RegisterFile.contents_put_self h

theorem contents_only_of_ne {reg r : UInt8} (h : reg ≠ r) {text : String} :
    (only reg text).contents r = .nil :=
  (RegisterFile.contents_put_of_ne h).trans (contents_new r)

section Last

variable {start : ℕ} {pre : List Instruction} {last : Instruction} {reg r : UInt8}

variable (pick) in
/-- The last instruction leaves in the accumulator what depends on the text in the register. -/
theorem matters_of {result : String → RegisterValue}
    (located : CodeAt program start (pre ++ [last])) (calm : ∀ i ∈ pre, Calm i)
    (data : AllData (pre ++ [last])) (writes : last.regA = ACC)
    (value : ∀ text regs, runCode (echo pick) program pre (only reg text, ()) = .ok (regs, ()) →
      valueOf (echo pick) program last (regs, ()) = .ok (result text, ()))
    (differ : result "a" ≠ result "1234567890") : Matters program start (pre ++ [last]) reg := by
  have run : ∀ text, ∃ s, runCode (echo pick) program (pre ++ [last]) (only reg text, ()) = .ok s ∧
      s.1.contents ACC = result text := by
    intro text
    obtain ⟨⟨regs, w⟩, hs⟩ := runCode_calm pick program calm
      (only reg text, ())
    have here := value text regs hs
    refine ⟨(regs.put ACC (result text), ()), ?_, RegisterFile.contents_put_self (by decide)⟩
    rw [runCode_append, hs]
    simp only [Except.bind, runCode]
    rw [execData_eq here (by rw [writes]; decide), writes]
  obtain ⟨s₁, run₁, acc₁⟩ := run "a"
  obtain ⟨s₂, run₂, acc₂⟩ := run "1234567890"
  let ctx : ExecutionContext Unit := { ExecutionContext.new program () with pc := start }
  let final (text : String) := afterBlock { ctx with regs := only reg text } (pre ++ [last]).length
  refine ⟨Unit, echo pick, ctx, final "a" s₁, final "1234567890" s₂, .string "a",
    .string "1234567890", rfl, rfl, ?_, ?_, .inl ?_⟩
  · exact (steps_block data located).trans (congrArg _ run₁)
  · exact (steps_block data located).trans (congrArg _ run₂)
  · show s₁.1.contents ACC ≠ s₂.1.contents ACC
    rw [acc₁, acc₂]
    exact differ

/-- The result depends on the text in a register that the last instruction reads. -/
theorem matters_read {result : String → RegisterValue} (hreg : reg.toNat < 32)
    (located : CodeAt program start (pre ++ [last])) (calm : ∀ i ∈ pre, Calm i)
    (data : AllData (pre ++ [last])) (writes : last.regA = ACC) (arrives : Arrives program pre reg r)
    (value : ∀ text regs, regs.contents r = .string text →
      valueOf (echo pick) program last (regs, ()) = .ok (result text, ()))
    (differ : result "a" ≠ result "1234567890") : Matters program start (pre ++ [last]) reg :=
  matters_of pick located calm data writes (fun text regs run => value text regs
    ((arrives Unit (echo pick) _ _ run).trans (contents_only_self hreg))) differ

end Last

section Values

variable {regs : RegisterFile} {text : String} {d a b : UInt8}

theorem valueOf_loadEntity_text (ha : a.toNat < 32) (h : regs.contents a = .string text) :
    valueOf (echo pick) program (loadEntity d a) (regs, ()) =
      .ok (.entity (Json.str text).render "0", ()) := by
  rw [valueOf_loadEntity ha, h]
  rfl

theorem valueOf_loadGraph_text (ha : a.toNat < 32) (h : regs.contents a = .string text) :
    valueOf (echo fun q => q.subjects.getD []) program (loadGraph d a) (regs, ()) =
      .ok (.facts [.string (Json.str text).render], ()) := by
  rw [valueOf_loadGraph ha, queryFacts_echo, h]
  rfl

theorem valueOf_classify_text (ha : a.toNat < 32) (h : regs.contents a = .string text) :
    valueOf (echo pick) program (classify d a) (regs, ()) =
      .ok (.string (if 5 < text.length then "url" else "unknown"), ()) := by
  simp only [valueOf, classify, classifyValue, Instruction.withRegA, Instruction.withRegB,
    Instruction.new, RegisterFile.read_eq ha, h]
  by_cases long : 5 < text.length
  · simp [RegisterValue.toJson, Json.asStr, classes, echo, plainGpu, long, Except.map]
  · simp [RegisterValue.toJson, Json.asStr, classes, echo, plainGpu, long, Except.map]

theorem valueOf_search_left (ha : a.toNat < 32) (hb : b.toNat < 32)
    (h : regs.contents a = .string text) :
    valueOf (echo fun q => q.subjects.getD []) program (search a b) (regs, ()) =
      .ok (.facts [.string text], ()) := by
  rw [valueOf_search ha hb, queryFacts_echo, h]
  rfl

theorem valueOf_search_right (ha : a.toNat < 32) (hb : b.toNat < 32)
    (h : regs.contents b = .string text) :
    valueOf (echo fun q => q.predicates.getD []) program (search a b) (regs, ()) =
      .ok (.facts [.string text], ()) := by
  rw [valueOf_search ha hb, queryFacts_echo, h]
  rfl

theorem valueOf_infer_left (ha : a.toNat < 32) (hb : b.toNat < 32)
    (h : regs.contents a = .string text) :
    valueOf (echo fun q => q.subjects.getD []) program (infer d a b) (regs, ()) =
      .ok (.facts [.string (Json.str text).render], ()) := by
  rw [valueOf_infer ha hb, queryFacts_echo, h]
  rfl

theorem valueOf_infer_right (ha : a.toNat < 32) (hb : b.toNat < 32)
    (h : regs.contents b = .string text) :
    valueOf (echo fun q => q.predicates.getD []) program (infer d a b) (regs, ()) =
      .ok (.facts [.string (Json.str text).render], ()) := by
  rw [valueOf_infer ha hb, queryFacts_echo, h]
  rfl

theorem valueOf_similar_text (ha : a.toNat < 32) (hb : b.toNat < 32)
    (h : regs.contents a = .string text) :
    valueOf (echo fun q => q.subjects.getD []) program (similar d a b) (regs, ()) =
      .ok (.facts [.string text], ()) := by
  simp only [valueOf, similar, similarValue, Instruction.withRegA, Instruction.withRegB,
    Instruction.withExtra, Instruction.new, RegisterFile.read_eq ha, RegisterFile.read_eq hb, h]
  rfl

theorem valueOf_timeline_text (ha : a.toNat < 32) (h : regs.contents a = .string text) :
    valueOf (echo fun _ => []) program (timeline d a) (regs, ()) =
      .ok (.string (Json.render (.obj [("episodes", .arr []), ("query", .str text),
        ("status", .str "built"), ("total", .int 0)])), ()) := by
  simp only [valueOf, timeline, timelineValue, Instruction.withRegA, Instruction.withRegB,
    Instruction.new, RegisterFile.read_eq ha, h]
  simp [echo, scoredFacts, RegisterValue.toJson, Except.map]
  rfl

theorem ne_facts {s s' : String} (h : s ≠ s') :
    RegisterValue.facts [.string s] ≠ .facts [.string s'] := by simpa using h

/-- The answer to a correlation with an entity of a kind. -/
def correlation (left : RegisterValue) (kind : String) : RegisterValue :=
  .string (Json.render (.obj [
    ("correlation", .str (if 5 < (left.toJson.asStr.getD "").length then "strong" else "none")),
    ("entity_a", left.toJson), ("entity_b", (RegisterValue.entity kind "0").toJson),
    ("score", .int (left.toJson.asStr.getD "").length)]))

theorem valueOf_correlate {left : RegisterValue} {kind : String} (ha : a.toNat < 32)
    (hb : b.toNat < 32) (hl : regs.contents a = left) (hr : regs.contents b = .entity kind "0") :
    valueOf (echo pick) program (correlate a b) (regs, ()) = .ok (correlation left kind, ()) := by
  simp only [valueOf, correlate, correlateValue, Instruction.withRegA, Instruction.withRegB,
    Instruction.new, RegisterFile.read_eq ha, RegisterFile.read_eq hb, hl, hr]
  by_cases long : 5 < (left.toJson.asStr.getD "").length
  · simp [correlation, echo, plainGpu, long, Except.map, bind, Except.bind, pure,
      Except.pure]
  · simp [correlation, echo, plainGpu, long, Except.map, bind, Except.bind, pure,
      Except.pure]

end Values

end Echo

/-! ## Operations -/

namespace CodegenEngine

section Ops

variable {e : CodegenEngine} {program : Program} {input : KirValueId} {r : UInt8}

theorem calm_accCode (temps : e.regs.Temps) : ∀ i ∈ e.accCode input, Calm i := fun i hi => by
  rw [eq_of_mem_accCode hi]
  exact .mov (by decide) (temps.alloc input).1.lt

theorem accReg_lt (temps : e.regs.Temps) : (e.accReg input).toNat < 32 := by
  unfold accReg
  split_ifs
  · decide
  · exact (temps.alloc input).1.lt

variable (input) in
theorem secondReg_temp (temps : e.regs.Temps) (id : KirValueId) : IsTemp (e.secondReg input id) :=
  ((Temps.accRegs temps input).alloc id).1

theorem arrives_second (hr : r ≠ ACC) {mid : List Instruction} (kept : ∀ i ∈ mid, i.regA ≠ r) :
    Arrives program (e.accCode input ++ mid) r r :=
  arrives_kept (List.forall_mem_append.2 ⟨accCode_keeps hr, kept⟩)

/-- A block reads an operand, and its result depends on the register of the operand. -/
def Reaches (program : Program) (start : ℕ) (code : List Instruction)
    (x : Operand × UInt8) : Prop :=
  Fed program start code x.1 x.2 ∧ Matters program start code x.2

section Blocks

variable {start : ℕ} {pre : List Instruction} {last : Instruction} {reg : UInt8}

variable (pre last) in
/-- The last instruction reads the operand. -/
theorem reaches_last (pick : SemanticQuery → List String) {operand : Operand}
    {result : String → RegisterValue} (hreg : reg.toNat < 32)
    (located : CodeAt program start (pre ++ [last])) (calm : ∀ i ∈ pre, Calm i)
    (data : AllData (pre ++ [last])) (writes : last.regA = ACC) (arrives : Arrives program pre reg r)
    (reads : operandReg last operand = some r)
    (value : ∀ text regs, regs.contents r = .string text →
      valueOf (echo pick) program last (regs, ()) = .ok (result text, ()))
    (differ : result "a" ≠ result "1234567890") :
    Reaches program start (pre ++ [last]) (operand, reg) :=
  ⟨fed_of located (fun i hi => data i (List.mem_append_left _ hi)) reads arrives,
    matters_read hreg located calm data writes arrives value differ⟩

theorem reaches_loadEntity (hr : IsTemp r) (located : CodeAt program start [loadEntity ACC r]) :
    Reaches program start [loadEntity ACC r] (.entityKind, r) := by
  apply reaches_last [] _ (fun _ => []) hr.lt located
  · simp
  · exact allData_of_all rfl
  · rfl
  · exact arrives_kept (by simp)
  · rfl
  · exact fun _ _ h => valueOf_loadEntity_text hr.lt h
  · exact fun h => absurd (RegisterValue.entity.inj h).1 (by decide)

theorem reaches_timeline (hr : IsTemp r) (located : CodeAt program start [timeline ACC r]) :
    Reaches program start [timeline ACC r] (.timelineQuery, r) := by
  apply reaches_last [] _ (fun _ => []) hr.lt located
  · simp
  · exact allData_of_all rfl
  · rfl
  · exact arrives_kept (by simp)
  · rfl
  · exact fun _ _ h => valueOf_timeline_text hr.lt h
  · exact mt RegisterValue.string.inj (by decide)

theorem reaches_similar (hr : IsTemp r) {threshold : Int32}
    (located : CodeAt program start [loadImm NUM threshold, similar ACC r NUM]) :
    Reaches program start [loadImm NUM threshold, similar ACC r NUM] (.similarValue, r) := by
  apply reaches_last [loadImm NUM threshold] (similar ACC r NUM) (fun q => q.subjects.getD []) hr.lt
    located
  · simp only [List.forall_mem_singleton]
    exact .loadImm (by decide) threshold
  · exact allData_of_all rfl
  · rfl
  · apply arrives_kept
    simp only [List.forall_mem_singleton]
    show NUM ≠ r
    rcases hr with rfl | rfl | rfl <;> decide
  · rfl
  · exact fun _ _ h => valueOf_similar_text hr.lt (by decide) h
  · simp

/-- What may stand between the pipeline input and the last instruction. -/
structure Between (mid : List Instruction) : Prop where
  calm : ∀ i ∈ mid, Calm i
  data : AllData mid
  acc : ∀ i ∈ mid, i.regA ≠ ACC

theorem between_nil : Between [] := ⟨by simp, by simp [AllData], by simp⟩

variable {mid : List Instruction}

/-- The last instruction reads the pipeline input. -/
theorem reaches_input (pick : SemanticQuery → List String) {operand : Operand}
    {result : String → RegisterValue} (temps : e.regs.Temps) (between : Between mid)
    (located : CodeAt program start (e.accCode input ++ mid ++ [last]))
    (lastData : last.opcode.isData) (writes : last.regA = ACC)
    (reads : operandReg last operand = some ACC)
    (value : ∀ text regs, regs.contents ACC = .string text →
      valueOf (echo pick) program last (regs, ()) = .ok (result text, ()))
    (differ : result "a" ≠ result "1234567890") :
    Reaches program start (e.accCode input ++ mid ++ [last]) (operand, e.accReg input) := by
  apply reaches_last _ _ pick (accReg_lt temps) located _ _ writes (arrives_acc temps between.acc) reads value
    differ
  · exact List.forall_mem_append.2 ⟨calm_accCode temps, between.calm⟩
  · exact ((allData_accCode e input).append between.data).append (by simpa [AllData] using lastData)

/-- The last instruction reads another register. -/
theorem reaches_second (pick : SemanticQuery → List String) {operand : Operand}
    {result : String → RegisterValue} (temps : e.regs.Temps) (hr : IsTemp r) (between : Between mid)
    (kept : ∀ i ∈ mid, i.regA ≠ r) (located : CodeAt program start (e.accCode input ++ mid ++ [last]))
    (lastData : last.opcode.isData) (writes : last.regA = ACC)
    (reads : operandReg last operand = some r)
    (value : ∀ text regs, regs.contents r = .string text →
      valueOf (echo pick) program last (regs, ()) = .ok (result text, ()))
    (differ : result "a" ≠ result "1234567890") :
    Reaches program start (e.accCode input ++ mid ++ [last]) (operand, r) := by
  apply reaches_last _ _ pick hr.lt located _ _ writes (arrives_second hr.ne_ACC kept) reads value differ
  · exact List.forall_mem_append.2 ⟨calm_accCode temps, between.calm⟩
  · exact ((allData_accCode e input).append between.data).append (by simpa [AllData] using lastData)

/-- The target entity has the target as its kind. -/
theorem contents_target (hr : IsTemp r) (clear : r ≠ TMP2) {idx : UInt16}
    {W : Type} {svc : Services W} {s s' : Data W}
    (run : runCode svc program (e.accCode input ++ [loadStr TMP2 idx, loadEntity TMP3 r]) s =
      .ok s') : s'.1.contents TMP3 = .entity (s.1.contents r).toJson.render "0" := by
  have split : e.accCode input ++ [loadStr TMP2 idx, loadEntity TMP3 r] =
      (e.accCode input ++ [loadStr TMP2 idx]) ++ [loadEntity TMP3 r] := by simp
  rw [split, runCode_append] at run
  cases before : runCode svc program (e.accCode input ++ [loadStr TMP2 idx]) s with
  | error err =>
    rw [before] at run
    cases run
  | ok s₁ =>
    rw [before] at run
    have kept : s₁.1.contents r = s.1.contents r :=
      arrives_second hr.ne_ACC (List.forall_mem_singleton.2 clear.symm) W svc s s₁ before
    have loaded : execData svc program (loadEntity TMP3 r) s₁ =
        .ok (s₁.1.put TMP3 (.entity (s₁.1.contents r).toJson.render "0"), s₁.2) :=
      execData_eq (valueOf_loadEntity hr.lt) (show TMP3.toNat < 32 by decide)
    simp only [Except.bind, runCode, loaded] at run
    cases run
    rw [← kept]
    exact RegisterFile.contents_put_self (by decide)

/-- The correlated entity is loaded last; its kind is the text of the target. -/
theorem reaches_correlate (temps : e.regs.Temps) (hr : IsTemp r) (clear : r ≠ TMP2) {idx : UInt16}
    (located : CodeAt program start
      (e.accCode input ++ [loadStr TMP2 idx, loadEntity TMP3 r] ++ [correlate ACC TMP3])) :
    ∀ x ∈ [(Operand.correlateLeft, e.accReg input), (.entityKind, r)], Reaches program start
      (e.accCode input ++ [loadStr TMP2 idx, loadEntity TMP3 r] ++ [correlate ACC TMP3]) x := by
  have calm : ∀ i ∈ e.accCode input ++ [loadStr TMP2 idx, loadEntity TMP3 r], Calm i := by
    refine List.forall_mem_append.2 ⟨calm_accCode temps, List.forall_mem_cons.2
      ⟨.loadStr (by decide) idx, List.forall_mem_singleton.2 (.loadEntity (by decide) hr.lt)⟩⟩
  have data : AllData (e.accCode input ++ [loadStr TMP2 idx, loadEntity TMP3 r] ++
      [correlate ACC TMP3]) :=
    ((allData_accCode e input).append (allData_of_all rfl)).append (allData_of_all rfl)
  have left : Arrives program (e.accCode input ++ [loadStr TMP2 idx, loadEntity TMP3 r])
      (e.accReg input) ACC :=
    arrives_acc temps (List.forall_mem_cons.2 ⟨(by decide : TMP2 ≠ ACC),
      List.forall_mem_singleton.2 (by decide : TMP3 ≠ ACC)⟩)
  -- Both operands are known from the registers before the block.
  have known : ∀ reg (result : String → RegisterValue),
      (∀ text, result text = correlation ((only reg text).contents (e.accReg input))
        ((only reg text).contents r).toJson.render) →
      result "a" ≠ result "1234567890" → Matters program start
        (e.accCode input ++ [loadStr TMP2 idx, loadEntity TMP3 r] ++ [correlate ACC TMP3]) reg := by
    intro reg result hres differ
    apply matters_of (fun _ => []) located calm data rfl _ differ
    intro text regs run
    rw [hres]
    exact valueOf_correlate (by decide) (by decide) (left Unit _ _ _ run)
      (contents_target hr clear run)
  have inputMatters : Matters program start
      (e.accCode input ++ [loadStr TMP2 idx, loadEntity TMP3 r] ++ [correlate ACC TMP3])
      (e.accReg input) := by
    by_cases same : e.accReg input = r
    · apply known _ fun text => correlation (.string text) (Json.str text).render
      · intro text
        rw [same, contents_only_self hr.lt]
        rfl
      · exact mt RegisterValue.string.inj (by decide)
    · apply known _ fun text => correlation (.string text) "null"
      · intro text
        rw [contents_only_self (accReg_lt temps), contents_only_of_ne same]
        rfl
      · exact mt RegisterValue.string.inj (by decide)
  have targetMatters : Matters program start
      (e.accCode input ++ [loadStr TMP2 idx, loadEntity TMP3 r] ++ [correlate ACC TMP3]) r := by
    by_cases same : e.accReg input = r
    · rw [same] at inputMatters
      exact inputMatters
    · apply known _ fun text => correlation .nil (Json.str text).render
      · intro text
        rw [contents_only_self hr.lt, contents_only_of_ne (Ne.symm same)]
        rfl
      · exact mt RegisterValue.string.inj (by decide)
  simp only [List.forall_mem_cons]
  refine ⟨⟨?_, inputMatters⟩, ⟨?_, targetMatters⟩, by simp⟩
  · exact fed_of located (fun i hi => data i (List.mem_append_left _ hi)) rfl left
  · have split : e.accCode input ++ [loadStr TMP2 idx, loadEntity TMP3 r] ++ [correlate ACC TMP3] =
        (e.accCode input ++ [loadStr TMP2 idx]) ++ loadEntity TMP3 r :: [correlate ACC TMP3] := by
      simp
    rw [split] at located ⊢
    apply fed_of located ((allData_accCode e input).append (allData_of_all rfl)) rfl
    exact arrives_second hr.ne_ACC (List.forall_mem_singleton.2 clear.symm)

theorem between_loadGraph {code : List Instruction} (calm : ∀ i ∈ code, Calm i)
    (data : AllData code) (acc : ∀ i ∈ code, i.regA ≠ ACC) :
    Between (loadGraph TMP1 ACC :: code) where
  calm := List.forall_mem_cons.2 ⟨.loadGraph (by decide) (by decide), calm⟩
  data := List.forall_mem_cons.2 ⟨rfl, data⟩
  acc := List.forall_mem_cons.2 ⟨by decide, acc⟩

end Blocks

theorem opcode_accCode {i : Instruction} (h : i ∈ e.accCode input) : i.opcode = .mov := by
  rw [eq_of_mem_accCode h]
  rfl

theorem opcode_strCode {id : KirValueId} {text : String} {i : Instruction}
    (h : i ∈ e.strCode id text) : i.opcode = .loadStr := by
  rw [eq_of_mem_strCode h]
  rfl

theorem calm_strCode (temps : e.regs.Temps) {id : KirValueId} {text : String} :
    ∀ i ∈ e.strCode id text, Calm i := fun i hi => by
  rw [eq_of_mem_strCode hi]
  exact .loadStr (temps.alloc id).1.lt _

theorem no_literals {op : KirOp} (clear : Unclobbered e op) :
    ∀ i ∈ e.opCode op, literalOperands i = [] := by
  have others : ∀ i : Instruction, i.opcode ≠ .snapshot → literalOperands i = [] := by
    intro i hi
    unfold literalOperands
    cases ho : i.opcode <;> simp_all
  have acc : ∀ input, ∀ i ∈ e.accCode input, literalOperands i = [] := fun _ i hi =>
    others i (by rw [opcode_accCode hi]; decide)
  cases op with
  | sourceSearch | traverse | store | exportTo | snapshot => exact clear.elim
  | observe _ i | classify _ i | loadGraph _ i | resolve _ i _ | infer _ i _ | correlate _ i _ =>
    refine List.forall_mem_append.2 ⟨acc i, ?_⟩
    simp only [List.forall_mem_cons]
    simp [literalOperands, Vm.classify, Vm.loadGraph, search, Vm.infer, Vm.correlate, loadStr,
      loadEntity, Instruction.withRegA, Instruction.withRegB, Instruction.withExtra,
      Instruction.withImm, Instruction.new]
  | filter o i c =>
    have text : ∀ i' ∈ e.filterCode o i c, literalOperands i' = [] := fun i' hi =>
      others i' (by rw [opcode_strCode hi]; decide)
    refine List.forall_mem_append.2 ⟨acc i, List.forall_mem_cons.2 ⟨rfl, ?_⟩⟩
    exact List.forall_mem_append.2 ⟨text, by simp only [List.forall_mem_singleton]; rfl⟩
  | collect | sourceEntity | timeline => exact List.forall_mem_singleton.2 rfl
  | similar => exact List.forall_mem_cons.2 ⟨rfl, List.forall_mem_singleton.2 rfl⟩
  | ret | sortHint | limitHint | constStr | constInt | constFloat => exact List.forall_mem_nil _

theorem inputs_reach (temps : e.regs.Temps) {op : KirOp}
    (located : CodeAt program e.instrs.length (e.opCode op)) (clear : Unclobbered e op) :
    ∀ x ∈ e.inputRegs op, Reaches program e.instrs.length (e.opCode op) x := by
  cases op with
  | sourceSearch | traverse | store | exportTo | snapshot => exact clear.elim
  | ret | sortHint | limitHint | constStr | constInt | constFloat => exact List.forall_mem_nil _
  | collect _ s | sourceEntity _ s =>
    simp only [inputRegs, List.forall_mem_singleton]
    exact reaches_loadEntity (temps.alloc s).1 located
  | timeline _ q =>
    simp only [inputRegs, List.forall_mem_singleton]
    exact reaches_timeline (temps.alloc q).1 located
  | similar _ t th =>
    simp only [inputRegs, List.forall_mem_singleton]
    exact reaches_similar (temps.alloc t).1 located
  | observe _ i | classify _ i =>
    simp only [inputRegs, List.forall_mem_singleton, opCode] at located ⊢
    rw [← List.append_nil (e.accCode i)] at located ⊢
    apply reaches_input (fun _ => []) temps between_nil located rfl rfl rfl
    · exact fun _ _ h => valueOf_classify_text (by decide) h
    · exact mt RegisterValue.string.inj (by decide)
  | loadGraph _ i =>
    simp only [inputRegs, List.forall_mem_singleton, opCode] at located ⊢
    rw [← List.append_nil (e.accCode i)] at located ⊢
    apply reaches_input _ temps between_nil located rfl rfl rfl
    · exact fun _ _ h => valueOf_loadGraph_text (by decide) h
    · exact ne_facts (by decide)
  | infer _ i r =>
    have second := secondReg_temp i temps r
    simp only [inputRegs, List.forall_mem_cons, opCode] at located ⊢
    rw [← List.append_nil (e.accCode i)] at located ⊢
    refine ⟨?_, ?_, by simp⟩
    · apply reaches_input _ temps between_nil located rfl rfl rfl
      · exact fun _ _ h => valueOf_infer_left (by decide) second.lt h
      · exact ne_facts (by decide)
    · apply reaches_second _ temps second between_nil (by simp) located rfl rfl rfl
      · exact fun _ _ h => valueOf_infer_right (by decide) second.lt h
      · exact ne_facts (by decide)
  | resolve o i s =>
    have second := secondReg_temp i temps s
    have mid : Between [Vm.loadGraph TMP1 ACC] :=
      between_loadGraph (by simp) (by simp [AllData]) (by simp)
    have split : e.opCode (.resolve o i s) =
        e.accCode i ++ [Vm.loadGraph TMP1 ACC] ++ [search ACC (e.secondReg i s)] := by simp [opCode]
    rw [split] at located ⊢
    simp only [inputRegs, List.forall_mem_cons]
    refine ⟨?_, ?_, by simp⟩
    · apply reaches_input _ temps mid located rfl rfl rfl
      · exact fun _ _ h => valueOf_search_left (by decide) second.lt h
      · exact ne_facts (by decide)
    · have kept : ∀ i' ∈ [Vm.loadGraph TMP1 ACC], i'.regA ≠ e.secondReg i s :=
        List.forall_mem_singleton.2 (Ne.symm clear)
      apply reaches_second _ temps second mid kept located rfl rfl rfl
      · exact fun _ _ h => valueOf_search_right (by decide) second.lt h
      · exact ne_facts (by decide)
  | filter o i c =>
    have second := secondReg_temp i temps o
    have textTemps : (CodegenEngine.mk e.consts e.instrs (e.accRegs i) e.pipelineVal).regs.Temps :=
      Temps.accRegs temps i
    have mid : Between (Vm.loadGraph TMP1 ACC :: e.filterCode o i c) :=
      between_loadGraph (calm_strCode textTemps) (allData_strCode _ _ _) fun i' hi => by
        rw [strCode_regA hi]
        exact (textTemps.alloc o).1.ne_ACC
    have split : e.opCode (.filter o i c) = e.accCode i ++
        (Vm.loadGraph TMP1 ACC :: e.filterCode o i c) ++ [search ACC (e.secondReg i o)] := by
      simp [opCode]
    rw [split] at located ⊢
    simp only [inputRegs, List.forall_mem_singleton]
    apply reaches_input _ temps mid located rfl rfl rfl
    · exact fun _ _ h => valueOf_search_left (by decide) second.lt h
    · exact ne_facts (by decide)
  | correlate o i t =>
    have split : e.opCode (.correlate o i t) = e.accCode i ++
        [loadStr TMP2 (stringIndex "_target" e.consts), loadEntity TMP3 (e.secondReg i t)] ++
        [Vm.correlate ACC TMP3] := by simp [opCode]
    rw [split] at located ⊢
    exact reaches_correlate temps (secondReg_temp _ temps t) clear located

theorem operands_agree (temps : e.regs.Temps) {op : KirOp}
    (located : CodeAt program e.instrs.length (e.opCode op)) (clear : Unclobbered e op) :
    OperandsAgree program e op where
  fed x hx := (inputs_reach temps located clear x hx).1
  matters x hx := (inputs_reach temps located clear x hx).2
  depth := by
    cases op with
    | traverse => exact clear.elim
    | _ => trivial
  literals instr hi l hl := by
    rw [no_literals clear instr hi] at hl
    cases hl

/-! ## Operands that do not arrive -/

section Lost

variable {start : ℕ} {a b : List Instruction} {x : Instruction} {operand : Operand} {reg : UInt8}

theorem not_fed_of_none {code : List Instruction} (none : ∀ i ∈ code, operandReg i operand = none) :
    ¬Fed program start code operand reg := by
  rintro ⟨pre, instr, post, r, rfl, reads, -⟩
  rw [none instr (by simp)] at reads
  cases reads

/-- The one instruction that reads the operand finds something else in its register. -/
theorem not_fed_of_run (located : CodeAt program start (a ++ x :: b)) (data : AllData a)
    (before : ∀ i ∈ a, operandReg i operand = none) (after : ∀ i ∈ b, operandReg i operand = none)
    (reads : operandReg x operand = some r) {s : Data Unit} (s' : Data Unit)
    (run : runCode (echo fun _ => []) program a s = .ok s')
    (other : s'.1.contents r ≠ s.1.contents reg) :
    ¬Fed program start (a ++ x :: b) operand reg := by
  rintro ⟨pre, instr, post, r', split, reads', arrives⟩
  have here : pre = a ∧ instr = x := by
    rcases List.append_eq_append_iff.1 split with ⟨c, hp, hx⟩ | ⟨c, ha, hi⟩
    · cases c with
      | nil =>
        rw [List.nil_append] at hx
        exact ⟨by simpa using hp, (List.cons.inj hx).1.symm⟩
      | cons y c =>
        rw [List.cons_append] at hx
        rw [after instr (by rw [(List.cons.inj hx).2]; simp)] at reads'
        cases reads'
    · cases c with
      | nil =>
        rw [List.nil_append] at hi
        exact ⟨by simpa using ha.symm, (List.cons.inj hi).1⟩
      | cons y c =>
        rw [List.cons_append] at hi
        rw [before instr (by rw [ha, (List.cons.inj hi).1]; simp)] at reads'
        cases reads'
  obtain ⟨rfl, rfl⟩ := here
  rw [reads] at reads'
  cases reads'
  let ctx : ExecutionContext Unit :=
    { ExecutionContext.new program s.2 with pc := start, regs := s.1 }
  have stepped : steps (echo fun _ => []) pre.length ctx = .ok (afterBlock ctx pre.length s') := by
    rw [steps_block data located.left]
    exact congrArg _ run
  exact other (arrives Unit _ ctx _ rfl rfl stepped)

/-- An instruction just before overwrites the register. -/
theorem not_fed_of_write (calm : ∀ i ∈ a, Calm i) {w : Instruction} (hw : Calm w)
    (located : CodeAt program start ((a ++ [w]) ++ x :: b)) (data : AllData (a ++ [w]))
    (before : ∀ i ∈ a ++ [w], operandReg i operand = none)
    (after : ∀ i ∈ b, operandReg i operand = none) (reads : operandReg x operand = some w.regA)
    (some : ∀ regs v, valueOf (echo fun _ => []) program w (regs, ()) = .ok (v, ()) → v ≠ .nil) :
    ¬Fed program start ((a ++ [w]) ++ x :: b) operand w.regA := by
  obtain ⟨⟨regs, u⟩, run⟩ := runCode_calm (fun _ => []) program calm
    (RegisterFile.new, ())
  obtain ⟨v, hv⟩ := valueOf_calm (fun _ => []) program hw regs
  apply not_fed_of_run located data before after reads (regs.put w.regA v, ())
  · rw [runCode_append, run]
    simp only [Except.bind, runCode]
    rw [execData_eq hv hw.regA]
  · rw [contents_new, RegisterFile.contents_put_self hw.regA]
    exact some regs v hv

end Lost

theorem operandReg_accCode {operand : Operand} {i : Instruction} (h : i ∈ e.accCode input) :
    operandReg i operand = none := by
  unfold operandReg
  rw [opcode_accCode h]

theorem unclobbered_of_agree (temps : e.regs.Temps) {op : KirOp}
    (located : CodeAt program e.instrs.length (e.opCode op)) (agree : OperandsAgree program e op) :
    Unclobbered e op := by
  have fed := agree.fed
  cases op with
  | sourceSearch o q =>
    -- The query register is read as the kind.
    refine not_fed_of_run (a := []) (b := []) (s := (only (e.regs.alloc q).1 "a", ())) located
      (by simp [AllData]) (by simp) (by simp) rfl _ rfl ?_
      (fed (.searchQuery, (e.regs.alloc q).1) (by simp [inputRegs]))
    have temp := (temps.alloc q).1
    rw [contents_only_self temp.lt]
    show (only (e.regs.alloc q).1 "a").contents ACC ≠ _
    rw [contents_only_of_ne temp.ne_ACC]
    simp
  | traverse o i r d =>
    refine not_fed_of_none ?_ (fed (.traverseRelation, e.secondReg i r) (by simp [inputRegs]))
    intro instr _
    cases h : instr.opcode <;> simp [operandReg, h]
  | store v n =>
    refine not_fed_of_none ?_ (fed (.storedName, e.secondReg v n) (by simp [inputRegs]))
    intro instr _
    cases h : instr.opcode <;> simp [operandReg, h]
  | exportTo v f =>
    refine not_fed_of_none ?_ (fed (.snapshotValue, e.accReg v) (by simp [inputRegs]))
    intro instr _
    cases h : instr.opcode <;> simp [operandReg, h]
  | snapshot o v k =>
    refine not_fed_of_none ?_ (fed (.snapshotValue, e.accReg v) (by simp [inputRegs]))
    intro instr _
    cases h : instr.opcode <;> simp [operandReg, h]
  | resolve o i s =>
    intro same
    have fedKind := fed (.searchKind, e.secondReg i s) (by simp [inputRegs])
    have split : e.opCode (.resolve o i s) =
        (e.accCode i ++ [Vm.loadGraph TMP1 ACC]) ++ search ACC TMP1 :: [] := by simp [opCode, same]
    rw [same, split] at fedKind
    rw [split] at located
    refine not_fed_of_write (calm_accCode temps) (.loadGraph (by decide) (by decide)) located
      ((allData_accCode e i).append (allData_of_all rfl)) ?_ (by simp) rfl ?_ fedKind
    · exact List.forall_mem_append.2 ⟨fun _ h => operandReg_accCode h, by simp; rfl⟩
    · intro regs v hv
      rw [valueOf_loadGraph (by decide), queryFacts_echo] at hv
      cases hv
      simp
  | correlate o i t =>
    intro same
    have fedKind := fed (.entityKind, e.secondReg i t) (by simp [inputRegs])
    have split : e.opCode (.correlate o i t) =
        (e.accCode i ++ [loadStr TMP2 (stringIndex "_target" e.consts)]) ++
          loadEntity TMP3 TMP2 :: [Vm.correlate ACC TMP3] := by simp [opCode, same]
    rw [same, split] at fedKind
    rw [split] at located
    refine not_fed_of_write (calm_accCode temps) (.loadStr (by decide) _) located
      ((allData_accCode e i).append (allData_of_all rfl)) ?_ ?_ rfl ?_ fedKind
    · exact List.forall_mem_append.2 ⟨fun _ h => operandReg_accCode h, by simp; rfl⟩
    · simp only [List.forall_mem_singleton]
      rfl
    · intro regs v hv
      cases hv
      show RegisterValue.string _ ≠ .nil
      simp
  | _ => trivial

/-- Codegen and executor agree on the operands of exactly the operations whose operands the executor
has, unless the operation overwrites its second operand. -/
theorem operands_agree_iff {program : KirProgram} {before after : List KirOp} {op : KirOp}
    (h : program.ops = before ++ op :: after) :
    OperandsAgree (codegenKir program) (stateBefore program before) op ↔
      Unclobbered (stateBefore program before) op :=
  ⟨unclobbered_of_agree (temps_stateBefore program before) (codeAt_opCode h),
    operands_agree (temps_stateBefore program before) (codeAt_opCode h)⟩

end Ops

/-- `FROM`, then `INFER`. -/
def inferProgram : KirProgram :=
  ⟨[.constStr 0 "page", .sourceEntity 1 0, .constStr 2 "rule", .infer 3 1 2], some 3, 4⟩

/-- The rule of an inference reaches the executor. -/
theorem operands_agree_infer :
    OperandsAgree (codegenKir inferProgram) (stateBefore inferProgram (inferProgram.ops.take 3))
      (.infer 3 1 2) :=
  (operands_agree_iff (show inferProgram.ops = inferProgram.ops.take 3 ++ .infer 3 1 2 :: [] from rfl)).2
    trivial

/-- `FROM`, then `TRAVERSE` with a depth. -/
def traverseProgram : KirProgram :=
  ⟨[.constStr 0 "page", .sourceEntity 1 0, .constStr 2 "links", .traverse 3 1 2 (some 2)], some 3, 4⟩

/-- The traversal starts from its relation, and the depth is loaded after it. -/
theorem traverse_disagrees :
    let e := stateBefore traverseProgram (traverseProgram.ops.take 3)
    e.opCode (.traverse 3 1 2 (some 2)) = [Vm.traverse ACC TMP2, loadImm DEPTH 2] ∧
      ¬OperandsAgree (codegenKir traverseProgram) e (.traverse 3 1 2 (some 2)) :=
  have split : traverseProgram.ops =
      traverseProgram.ops.take 3 ++ .traverse 3 1 2 (some 2) :: [] := rfl
  ⟨rfl, unclobbered_of_agree (temps_stateBefore traverseProgram _) (codeAt_opCode split)⟩

end CodegenEngine

end TORdex
