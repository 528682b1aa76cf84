import TORdex.Tdxl.Dataflow

/-!
# The program builder of the language frontends

The five frontends recognise calls of the knowledge API line by line, and emit the same operations for
the same calls.  `emit` is what a recognised call adds to the program; how a line is recognised is each
frontend's own.  An unknown variable and an absent pipeline stand for the id `0`.
-/

namespace TORdex

/-- A text by its characters. -/
abbrev SourceText := List Char

/-- Where the input of an operation comes from. -/
inductive CallInput where
  | var (name : SourceText)
  | pipeline

/-- A recognised call of the knowledge API.  The second argument of `similar` is not used. -/
inductive KnowledgeCall where
  | collect (source : SourceText) (filter : Option FilterCond)
  | search (query : SourceText) (filter : Option FilterCond)
  | traverse (entity relation : SourceText) (depth : Option ℤ)
  | classify (input : CallInput)
  | infer (input : CallInput)
  | correlate (entity target : SourceText)
  | similar (target : SourceText)
  | observe (input : CallInput)
  | store (key : SourceText)
  | snapshot

/-- A call, and the variable that the line binds to its result. -/
structure KnowledgeLine where
  call : KnowledgeCall
  binds : Option SourceText

/-- The call emits a string constant before its operation. -/
def KnowledgeCall.constFirst : KnowledgeCall → Bool
  | collect .. | search .. | traverse .. | infer .. | store .. => true
  | classify .. | correlate .. | similar .. | observe .. | snapshot => false

/-- The builder, with the `pipeline` variable of the compile functions. -/
structure ProgramBuilder where
  prog : KirProgram
  nextId : KirValueId
  vars : SourceText → Option KirValueId
  pipeline : Option KirValueId

namespace ProgramBuilder

/-- An empty program. -/
def new : ProgramBuilder where
  prog := .new
  nextId := 0
  vars _ := none
  pipeline := none

/-- The next id. -/
def alloc (pb : ProgramBuilder) : KirValueId × ProgramBuilder :=
  (pb.nextId, { pb with nextId := pb.nextId + 1 })

/-- `self.prog.push(op)`. -/
def pushDirect (pb : ProgramBuilder) (op : KirOp) : ProgramBuilder :=
  { pb with prog := pb.prog.push op }

/-- Add a string constant. -/
def constStr (pb : ProgramBuilder) (s : SourceText) : KirValueId × ProgramBuilder :=
  let (id, pb) := pb.alloc
  (id, pb.pushDirect (.constStr id (String.ofList s)))

/-- Bind a variable to a value. -/
def setVar (pb : ProgramBuilder) (name : SourceText) (id : KirValueId) : ProgramBuilder :=
  { pb with vars := Function.update pb.vars name (some id) }

/-- The id that `push_op` returns is not used.  The argument of `unwrap_or` is evaluated for every
operation, so an id is taken also when the operation has an output. -/
def pushOp (pb : ProgramBuilder) (op : KirOp) : ProgramBuilder := pb.alloc.2.pushDirect op

/-- `get_var(name).unwrap_or(0)`, or `pipeline.unwrap_or(0)`. -/
def valueOf (pb : ProgramBuilder) : CallInput → KirValueId
  | .var name => (pb.vars name).getD 0
  | .pipeline => pb.pipeline.getD 0

/-- `let out = pb.alloc(); pb.push_op(op(out)); pipeline = Some(out);` -/
def produce (push : ProgramBuilder → KirOp → ProgramBuilder) (pb : ProgramBuilder)
    (op : KirValueId → KirOp) : ProgramBuilder :=
  let (out, pb) := pb.alloc
  { push pb (op out) with pipeline := some out }

/-- The filter of a `collect` or `search`, if any.  Its input is the result just produced, which the
pipeline holds. -/
def filtered (push : ProgramBuilder → KirOp → ProgramBuilder) (pb : ProgramBuilder) :
    Option FilterCond → ProgramBuilder
  | some cond => pb.produce push fun out => .filter out (pb.valueOf .pipeline) cond
  | none => pb

/-- The operations of a call.  The inputs are read before the constants are emitted. -/
def emit (push : ProgramBuilder → KirOp → ProgramBuilder) (pb : ProgramBuilder) :
    KnowledgeCall → ProgramBuilder
  | .collect source filter =>
    let (srcId, pb) := pb.constStr source
    (pb.produce push fun out => .collect out srcId).filtered push filter
  | .search query filter =>
    let (qid, pb) := pb.constStr query
    (pb.produce push fun out => .sourceSearch out qid).filtered push filter
  | .traverse entity relation depth =>
    let input := pb.valueOf (.var entity)
    let (relId, pb) := pb.constStr relation
    pb.produce push fun out => .traverse out input relId depth
  | .classify input => pb.produce push fun out => .classify out (pb.valueOf input)
  | .infer input =>
    let input := pb.valueOf input
    let (rule, pb) := pb.constStr "default_rule".toList
    pb.produce push fun out => .infer out input rule
  | .correlate entity target =>
    pb.produce push fun out =>
      .correlate out (pb.valueOf (.var entity)) (pb.valueOf (.var target))
  | .similar target =>
    pb.produce push fun out =>
      .similar out (pb.valueOf (.var target)) (.finite ⟨false, 75, -2⟩)
  | .observe input => pb.produce push fun out => .observe out (pb.valueOf input)
  | .store key =>
    let (nameId, pb) := pb.constStr key
    push pb (.store (pb.valueOf .pipeline) nameId)
  | .snapshot => pb.produce push fun out => .snapshot out (pb.valueOf .pipeline) 0

/-- `if let Some(vn) = var_name { pb.set_var(&vn, pipeline.unwrap()) }`: the calls that bind a variable
have set the pipeline. -/
def bindVar (pb : ProgramBuilder) (binds : Option SourceText) : ProgramBuilder :=
  match binds, pb.pipeline with
  | some name, some id => pb.setVar name id
  | _, _ => pb

/-- Add the call of a line, and bind its variable. -/
def line (push : ProgramBuilder → KirOp → ProgramBuilder) (pb : ProgramBuilder)
    (line : KnowledgeLine) : ProgramBuilder :=
  (pb.emit push line.call).bindVar line.binds

/-- The end of the compile functions: a `Return` of the pipeline, if there is one. -/
def finish (pb : ProgramBuilder) : KirProgram :=
  match pb.pipeline with
  | some last => ⟨pb.prog.ops ++ [.ret last], some last, pb.nextId⟩
  | none => { pb.prog with nextId := pb.nextId }

end ProgramBuilder

/-- The program of the recognised lines. -/
def buildProgram (push : ProgramBuilder → KirOp → ProgramBuilder) (lines : List KnowledgeLine) :
    KirProgram :=
  (lines.foldl (ProgramBuilder.line push) .new).finish

/-- What the optimiser and the code generator assume of a program. -/
structure SsaOk (p : KirProgram) : Prop where
  ops : OpsOk p.ops
  output : ∀ id ∈ p.output, id ∈ outputs p.ops
  next : ∀ id, (∃ op ∈ p.ops, id ∈ op.outputId ∨ id ∈ op.inputIds) ∨ id ∈ p.output → id < p.nextId

/-! ## What a line preserves -/

/-- The part of the builder that every recognised line keeps valid.  The id `0`, which stands for what is
not known, is the first that is taken. -/
structure ProgramBuilder.Valid (pb : ProgramBuilder) : Prop where
  ops : OpsOk pb.prog.ops
  below : ∀ id ∈ outputs pb.prog.ops, id < pb.nextId
  vars : ∀ name id, pb.vars name = some id → id ∈ outputs pb.prog.ops
  pipeline : ∀ id, pb.pipeline = some id → id ∈ outputs pb.prog.ops
  zero : pb.nextId = 0 ∨ 0 ∈ outputs pb.prog.ops
  noOutput : pb.prog.output = none

/-- The id `0` has a producer. -/
structure ProgramBuilder.Started (pb : ProgramBuilder) : Prop extends ProgramBuilder.Valid pb where
  known : 0 ∈ outputs pb.prog.ops

/-- How an operation is pushed: it is appended, and ids may be skipped. -/
def Appends (push : ProgramBuilder → KirOp → ProgramBuilder) : Prop :=
  ∀ pb op, ∃ n, pb.nextId ≤ n ∧ push pb op = { pb with prog := pb.prog.push op, nextId := n }

theorem pushDirect_appends : Appends ProgramBuilder.pushDirect := fun _ _ => ⟨_, le_rfl, rfl⟩

theorem pushOp_appends : Appends ProgramBuilder.pushOp := fun _ _ => ⟨_, Nat.le_succ _, rfl⟩

namespace ProgramBuilder

theorem valid_new : Valid .new where
  ops := ⟨List.nodup_nil, by simp [new, KirProgram.new]⟩
  below _ h := absurd h List.not_mem_nil
  vars _ _ h := nomatch h
  pipeline _ h := nomatch h
  zero := .inl rfl
  noOutput := rfl

variable {push : ProgramBuilder → KirOp → ProgramBuilder} {pb : ProgramBuilder}

/-- An operation with known inputs, and with the id just taken or none. -/
theorem Valid.append (h : Valid pb) {op : KirOp} {n : ℕ} (le : pb.nextId ≤ n)
    (inputs : ∀ x ∈ op.inputIds, x ∈ outputs pb.prog.ops)
    (out : ∀ id, op.outputId = some id → id = pb.nextId ∧ pb.nextId < n)
    (known : 0 ∈ outputs (pb.prog.ops ++ [op])) :
    Started { pb with prog := pb.prog.push op, nextId := n } := by
  have kept : ∀ id ∈ outputs pb.prog.ops, id ∈ outputs (pb.prog.ops ++ [op]) := fun id hm => by
    rw [outputs_append]
    exact List.mem_append_left _ hm
  refine ⟨⟨opsOk_concat.2 ⟨h.ops, inputs, fun id ho hm => ?_⟩, fun id hm => ?_,
    fun name id hv => kept id (h.vars name id hv), fun id hp => kept id (h.pipeline id hp),
    .inr known, h.noOutput⟩, known⟩
  · exact absurd (out id ho).1 (h.below id hm).ne
  · rcases List.mem_append.1 (outputs_append ▸ hm) with hm | hm
    · exact (h.below id hm).trans_le le
    · obtain ⟨op', mem, ho⟩ := mem_outputs.1 hm
      rw [List.mem_singleton.1 mem] at ho
      obtain ⟨rfl, lt⟩ := out id ho
      exact lt

/-- An operation that produces the next id. -/
theorem Valid.take (h : Valid pb) {op : KirOp} {n : ℕ} (lt : pb.nextId < n)
    (inputs : ∀ x ∈ op.inputIds, x ∈ outputs pb.prog.ops) (out : op.outputId = some pb.nextId) :
    Started { pb with prog := pb.prog.push op, nextId := n } := by
  refine h.append lt.le inputs (fun id ho => ⟨Option.some_inj.1 (ho.symm.trans out), lt⟩) ?_
  rw [outputs_append, List.mem_append]
  rcases h.zero with first | known
  · exact .inr (mem_outputs.2 ⟨op, List.mem_singleton_self op, first ▸ out⟩)
  · exact .inl known

theorem Valid.constStr (h : Valid pb) (s : SourceText) : Started (pb.constStr s).2 :=
  h.take (Nat.lt_succ_self _) (by simp [KirOp.inputIds]) rfl

/-- The constant is produced by the operation just pushed. -/
theorem constStr_mem (s : SourceText) : (pb.constStr s).1 ∈ outputs (pb.constStr s).2.prog.ops := by
  refine mem_outputs.2 ⟨.constStr pb.nextId (String.ofList s), ?_, rfl⟩
  exact List.mem_append_right _ (List.mem_singleton_self _)

theorem valueOf_constStr (s : SourceText) (o : CallInput) :
    (pb.constStr s).2.valueOf o = pb.valueOf o := by
  cases o <;> rfl

/-- A variable, the pipeline, and the id that stands for neither. -/
theorem Started.valueOf (h : Started pb) (o : CallInput) : pb.valueOf o ∈ outputs pb.prog.ops := by
  cases o with
  | var name =>
    show (pb.vars name).getD 0 ∈ _
    cases hv : pb.vars name with
    | none => exact h.known
    | some id => exact h.vars name id hv
  | pipeline =>
    show pb.pipeline.getD 0 ∈ _
    cases hp : pb.pipeline with
    | none => exact h.known
    | some id => exact h.pipeline id hp

theorem Valid.produce (hp : Appends push) (h : Valid pb) {op : KirValueId → KirOp}
    (inputs : ∀ x ∈ (op pb.nextId).inputIds, x ∈ outputs pb.prog.ops)
    (out : (op pb.nextId).outputId = some pb.nextId) : Started (pb.produce push op) := by
  obtain ⟨n, le, eq⟩ := hp pb.alloc.2 (op pb.nextId)
  have pushed := h.take (Nat.lt_of_succ_le le) inputs out
  have whole : pb.produce push op =
      { pb with prog := pb.prog.push (op pb.nextId), nextId := n, pipeline := some pb.nextId } := by
    show { push pb.alloc.2 (op pb.nextId) with pipeline := some pb.nextId } = _
    rw [eq]
    rfl
  rw [whole]
  refine ⟨⟨pushed.ops, pushed.below, pushed.vars, ?_, pushed.zero, pushed.noOutput⟩, pushed.known⟩
  rintro id ⟨⟩
  refine mem_outputs.2 ⟨op pb.nextId, ?_, out⟩
  exact List.mem_append_right _ (List.mem_singleton_self _)

/-- An operation that consumes one value. -/
theorem Valid.consume (hp : Appends push) (h : Valid pb) (op : KirValueId → KirOp) {x : KirValueId}
    (hx : x ∈ outputs pb.prog.ops) (inputs : (op pb.nextId).inputIds = [x])
    (out : (op pb.nextId).outputId = some pb.nextId) : Started (pb.produce push op) := by
  refine h.produce hp (fun y hy => ?_) out
  rw [inputs, List.mem_singleton] at hy
  exact hy ▸ hx

/-- An operation that consumes two values. -/
theorem Valid.consumeTwo (hp : Appends push) (h : Valid pb) (op : KirValueId → KirOp) {x y : KirValueId}
    (hx : x ∈ outputs pb.prog.ops) (hy : y ∈ outputs pb.prog.ops)
    (inputs : (op pb.nextId).inputIds = [x, y])
    (out : (op pb.nextId).outputId = some pb.nextId) : Started (pb.produce push op) := by
  refine h.produce hp (fun z hz => ?_) out
  rw [inputs, List.mem_pair] at hz
  rcases hz with rfl | rfl
  · exact hx
  · exact hy

theorem Started.filtered (hp : Appends push) (h : Started pb) (filter : Option FilterCond) :
    Started (pb.filtered push filter) := by
  cases filter with
  | none => exact h
  | some cond => exact h.toValid.consume hp (.filter · _ cond) (h.valueOf .pipeline) rfl rfl

theorem emit_store (key : SourceText) : pb.emit push (.store key) =
    push (pb.constStr key).2
      (.store ((pb.constStr key).2.valueOf .pipeline) (pb.constStr key).1) := rfl

/-- A call keeps the builder valid when the id `0` has a producer before its operation. -/
theorem Valid.emit (hp : Appends push) (h : Valid pb) {call : KnowledgeCall}
    (first : call.constFirst = true ∨ 0 ∈ outputs pb.prog.ops) : Started (pb.emit push call) := by
  have started : call.constFirst = false → Started pb := fun hc =>
    ⟨h, first.resolve_left (by simp [hc])⟩
  cases call with
  | collect source filter =>
    have collected := (h.constStr source).toValid.consume hp (.collect · _) (constStr_mem source) rfl rfl
    exact collected.filtered hp filter
  | search query filter =>
    have found := (h.constStr query).toValid.consume hp (.sourceSearch · _) (constStr_mem query) rfl rfl
    exact found.filtered hp filter
  | traverse entity relation depth =>
    have input := (h.constStr relation).valueOf (.var entity)
    rw [valueOf_constStr] at input
    exact (h.constStr relation).toValid.consumeTwo hp (.traverse · _ _ depth) input
      (constStr_mem relation) rfl rfl
  | classify input =>
    exact h.consume hp (.classify · _) ((started rfl).valueOf input) rfl rfl
  | infer input =>
    have known := (h.constStr "default_rule".toList).valueOf input
    rw [valueOf_constStr] at known
    exact (h.constStr _).toValid.consumeTwo hp (.infer · _ _) known (constStr_mem _) rfl rfl
  | correlate entity target =>
    exact h.consumeTwo hp (.correlate · _ _) ((started rfl).valueOf (.var entity))
      ((started rfl).valueOf (.var target)) rfl rfl
  | similar target =>
    exact h.consume hp (.similar · _ _) ((started rfl).valueOf (.var target)) rfl rfl
  | observe input =>
    exact h.consume hp (.observe · _) ((started rfl).valueOf input) rfl rfl
  | store key =>
    have named := h.constStr key
    obtain ⟨n, le, eq⟩ := hp (pb.constStr key).2
      (.store ((pb.constStr key).2.valueOf .pipeline) (pb.constStr key).1)
    rw [emit_store, eq]
    refine named.toValid.append le (fun x hx => ?_) (fun _ ho => nomatch ho) ?_
    · rcases List.mem_pair.1 hx with rfl | rfl
      · exact named.valueOf .pipeline
      · exact constStr_mem key
    · rw [outputs_append]
      exact List.mem_append_left _ named.known
  | snapshot =>
    exact h.consume hp (.snapshot · _ 0) ((started rfl).valueOf .pipeline) rfl rfl

theorem Started.bindVar (h : Started pb) (binds : Option SourceText) : Started (pb.bindVar binds) := by
  unfold ProgramBuilder.bindVar
  split
  next name id hp =>
    refine ⟨⟨h.ops, h.below, fun other x hv => ?_, h.pipeline, h.zero, h.noOutput⟩, h.known⟩
    rcases eq_or_ne other name with rfl | hne
    · have same : some id = some x := by simpa [setVar] using hv
      exact Option.some_inj.1 same ▸ h.pipeline id hp
    · exact h.vars other x (by simpa [setVar, hne] using hv)
  next => exact h

theorem Valid.line (hp : Appends push) (h : Valid pb) {l : KnowledgeLine}
    (first : l.call.constFirst = true ∨ 0 ∈ outputs pb.prog.ops) : Started (pb.line push l) :=
  (h.emit hp first).bindVar l.binds

/-- Once the id `0` is produced, every further line keeps the builder valid. -/
theorem Started.lines (hp : Appends push) (h : Started pb) (lines : List KnowledgeLine) :
    Started (lines.foldl (ProgramBuilder.line push) pb) := by
  induction lines generalizing pb with
  | nil => exact h
  | cons l rest ih => exact ih (h.toValid.line hp (.inr h.known))

/-! ## Lines only append -/

theorem produce_ops (hp : Appends push) (op : KirValueId → KirOp) :
    (pb.produce push op).prog.ops = pb.prog.ops ++ [op pb.nextId] := by
  obtain ⟨n, -, eq⟩ := hp pb.alloc.2 (op pb.nextId)
  show (push pb.alloc.2 (op pb.nextId)).prog.ops = _
  rw [eq]
  rfl

theorem filtered_extends (hp : Appends push) (filter : Option FilterCond) :
    pb.prog.ops <+: (pb.filtered push filter).prog.ops := by
  cases filter with
  | none => exact List.prefix_rfl
  | some cond => exact ⟨_, (produce_ops hp _).symm⟩

theorem constStr_extends (s : SourceText) : pb.prog.ops <+: (pb.constStr s).2.prog.ops :=
  ⟨_, rfl⟩

theorem emit_extends (hp : Appends push) (call : KnowledgeCall) :
    pb.prog.ops <+: (pb.emit push call).prog.ops := by
  have produced : ∀ (pb : ProgramBuilder) op, pb.prog.ops <+: (pb.produce push op).prog.ops :=
    fun _ op => ⟨_, (produce_ops hp op).symm⟩
  cases call with
  | collect source filter =>
    exact (constStr_extends source).trans ((produced _ _).trans (filtered_extends hp filter))
  | search query filter =>
    exact (constStr_extends query).trans ((produced _ _).trans (filtered_extends hp filter))
  | traverse entity relation depth => exact (constStr_extends relation).trans (produced _ _)
  | infer input => exact (constStr_extends _).trans (produced _ _)
  | store key =>
    obtain ⟨n, -, eq⟩ := hp (pb.constStr key).2
      (.store ((pb.constStr key).2.valueOf .pipeline) (pb.constStr key).1)
    rw [emit_store, eq]
    exact (constStr_extends key).trans ⟨_, rfl⟩
  | classify | correlate | similar | observe | snapshot => exact produced _ _

theorem bindVar_ops (binds : Option SourceText) : (pb.bindVar binds).prog = pb.prog := by
  unfold bindVar
  split <;> rfl

theorem lines_extends (hp : Appends push) (lines : List KnowledgeLine) :
    pb.prog.ops <+: (lines.foldl (ProgramBuilder.line push) pb).prog.ops := by
  induction lines generalizing pb with
  | nil => exact List.prefix_rfl
  | cons l rest ih =>
    have step : pb.prog.ops <+: (pb.line push l).prog.ops := by
      rw [ProgramBuilder.line, bindVar_ops]
      exact emit_extends hp l.call
    exact step.trans ih

theorem finish_extends : pb.prog.ops <+: pb.finish.ops := by
  unfold finish
  split
  · exact ⟨_, rfl⟩
  · exact List.prefix_rfl

/-- As the first call of a source, an operation without constant consumes the id that it produces. -/
theorem emit_first (hp : Appends push) {call : KnowledgeCall} (h : call.constFirst = false) :
    ¬ OpsOk ((new.emit push call).prog.ops) := by
  have self : ∀ op : KirValueId → KirOp, 0 ∈ (op 0).inputIds →
      ¬ OpsOk (new.produce push op).prog.ops := fun op input ok => by
    rw [produce_ops hp] at ok
    exact List.not_mem_nil ((opsOk_concat.1 ok).2.1 0 input)
  have unknown : ∀ o : CallInput, new.valueOf o = 0 := fun o => by cases o <;> rfl
  cases call with
  | classify input => exact self _ (by simp [KirOp.inputIds, unknown])
  | correlate entity target => exact self _ (by simp [KirOp.inputIds, unknown])
  | similar target => exact self _ (by simp [KirOp.inputIds, unknown])
  | observe input => exact self _ (by simp [KirOp.inputIds, unknown])
  | snapshot => exact self _ (by simp [KirOp.inputIds, unknown])
  | collect | search | traverse | infer | store => simp [KnowledgeCall.constFirst] at h

/-- A valid builder finishes with a well-formed program. -/
theorem Valid.finish (h : Valid pb) : SsaOk pb.finish := by
  have used : ∀ (ops : List KirOp), OpsOk ops → (∀ id ∈ outputs ops, id < pb.nextId) →
      ∀ id, (∃ op ∈ ops, id ∈ op.outputId ∨ id ∈ op.inputIds) → id < pb.nextId := by
    rintro ops ok below id ⟨op, mem, ho | hi⟩
    · exact below id (mem_outputs.2 ⟨op, mem, ho⟩)
    · obtain ⟨before, after, rfl⟩ := List.append_of_mem mem
      refine below id ?_
      rw [outputs_append]
      exact List.mem_append_left _ (ok.earlier before op after rfl id hi)
  unfold ProgramBuilder.finish
  split
  next last hp =>
    have mem := h.pipeline last hp
    have same : outputs (pb.prog.ops ++ [.ret last]) = outputs pb.prog.ops := by
      simp [outputs, KirOp.outputId]
    have ok : OpsOk (pb.prog.ops ++ [.ret last]) :=
      opsOk_concat.2 ⟨h.ops, by simpa [KirOp.inputIds] using mem, fun _ ho => absurd ho (Option.not_mem_none _)⟩
    refine ⟨ok, fun id hm => ?_, fun id hid => ?_⟩
    · obtain rfl := Option.some_inj.1 hm
      exact same ▸ mem
    · rcases hid with hu | hm
      · exact used _ ok (same ▸ h.below) id hu
      · obtain rfl := Option.some_inj.1 hm
        exact h.below _ mem
  next =>
    refine ⟨h.ops, fun id hm => ?_, fun id hid => ?_⟩
    · rw [h.noOutput] at hm
      cases hm
    · rcases hid with hu | hm
      · exact used _ h.ops h.below id hu
      · rw [h.noOutput] at hm
        cases hm

end ProgramBuilder

/-- Whatever the recognised lines are, only the first decides. -/
theorem buildProgram_ssaOk_iff {push : ProgramBuilder → KirOp → ProgramBuilder} (hp : Appends push)
    (lines : List KnowledgeLine) : SsaOk (buildProgram push lines) ↔
      ∀ first, lines.head? = some first → first.call.constFirst = true := by
  cases lines with
  | nil => exact ⟨fun _ _ h => (nomatch h), fun _ => ProgramBuilder.valid_new.finish⟩
  | cons l rest =>
    constructor
    · rintro ok first ⟨⟩
      by_contra bad
      have grows : (ProgramBuilder.new.emit push l.call).prog.ops <+:
          (buildProgram push (l :: rest)).ops := by
        rw [← ProgramBuilder.bindVar_ops l.binds]
        exact (ProgramBuilder.lines_extends hp rest).trans ProgramBuilder.finish_extends
      obtain ⟨added, eq⟩ := grows
      have whole := ok.ops
      rw [← eq] at whole
      exact ProgramBuilder.emit_first hp (Bool.eq_false_iff.2 bad) whole.left
    · intro first
      have started := ProgramBuilder.valid_new.line hp (.inl (first l rfl))
      exact (started.lines hp rest).toValid.finish

end TORdex
