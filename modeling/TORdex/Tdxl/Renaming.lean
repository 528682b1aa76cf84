import Mathlib.Data.Set.Function
import TORdex.Tdxl.Regroup

/-!
# A rebuild only renames

A rebuild of a program is the regrouped program under new ids, as long as no id is left unmapped; and the
passes do the same on renamed programs.
-/

namespace TORdex

/-- The operation with all its ids renamed. -/
def KirOp.rename (r : KirValueId → KirValueId) (op : KirOp) : KirOp :=
  match op.outputId with
  | some output => (op.mapInputs r).withOutput (r output)
  | none => op.mapInputs r

namespace KirOp

variable (op : KirOp) (r s : KirValueId → KirValueId)

@[simp] theorem outputId_rename : (op.rename r).outputId = op.outputId.map r := by cases op <;> rfl

@[simp] theorem inputIds_rename : (op.rename r).inputIds = op.inputIds.map r := by cases op <;> rfl

@[simp] theorem isSource_rename : (op.rename r).isSource = op.isSource := by cases op <;> rfl

theorem rename_rename : (op.rename r).rename s = op.rename (s ∘ r) := by cases op <;> rfl

variable {op r s} in
theorem rename_congr (inputs : ∀ x ∈ op.inputIds, r x = s x)
    (output : ∀ x, op.outputId = some x → r x = s x) : op.rename r = op.rename s := by
  unfold rename
  rw [mapInputs_congr op inputs]
  split
  · rename_i x hx
    rw [output x hx]
  · rfl

theorem rename_id : op.rename (fun x => x) = op := by cases op <;> rfl

end KirOp

/-- The ids of a program renamed. -/
structure Image (a q : KirProgram) (r : KirValueId → KirValueId) : Prop where
  inj : Set.InjOn r {x | x ∈ outputs a.ops}
  ops : q.ops = a.ops.map (KirOp.rename r)
  output : q.output = a.output.map r

theorem outputs_rename (ops : List KirOp) (r : KirValueId → KirValueId) :
    outputs (ops.map (KirOp.rename r)) = (outputs ops).map r := by
  simp [outputs, List.filterMap_map, List.map_filterMap]

theorem OpsOk.inputs {ops : List KirOp} (ok : OpsOk ops) {op : KirOp} (hop : op ∈ ops) :
    ∀ x ∈ op.inputIds, x ∈ outputs ops := by
  obtain ⟨before, after, rfl⟩ := List.append_of_mem hop
  intro x hx
  rw [outputs_append]
  exact List.mem_append_left _ (ok.earlier before op after rfl x hx)

/-- Only the renaming of the outputs matters. -/
theorem OpsOk.rename_congr {ops : List KirOp} (ok : OpsOk ops) {r s : KirValueId → KirValueId}
    (h : ∀ x ∈ outputs ops, r x = s x) : ops.map (KirOp.rename r) = ops.map (KirOp.rename s) := by
  apply List.map_congr_left
  intro op hop
  apply KirOp.rename_congr
  · exact fun x hx => h x (ok.inputs hop x hx)
  · exact fun x hx => h x (mem_outputs.2 ⟨op, hop, hx⟩)

/-- A renaming that keeps the outputs apart keeps a list of operations well-formed. -/
theorem OpsOk.rename {ops : List KirOp} {r : KirValueId → KirValueId} (ok : OpsOk ops)
    (inj : Set.InjOn r {x | x ∈ outputs ops}) : OpsOk (ops.map (KirOp.rename r)) where
  nodup := by
    rw [outputs_rename]
    exact ok.nodup.map_on fun x hx y hy h => inj hx hy h
  earlier before op after split x hx := by
    obtain ⟨before', rest, rfl, rfl, hrest⟩ := List.map_eq_append_iff.1 split
    obtain ⟨op', after', rfl, rfl, rfl⟩ := List.map_eq_cons_iff.1 hrest
    rw [KirOp.inputIds_rename] at hx
    obtain ⟨y, hy, rfl⟩ := List.mem_map.1 hx
    rw [outputs_rename]
    exact List.mem_map_of_mem (ok.earlier before' op' after' rfl y hy)

namespace QueryOptimizer

theorem WellFormed.image {a q : KirProgram} {r : KirValueId → KirValueId} (h : WellFormed a)
    (image : Image a q r) : WellFormed q where
  ops := by
    rw [image.ops]
    exact h.ops.rename image.inj
  output := by
    intro x hx
    rw [image.output] at hx
    obtain ⟨y, hy, rfl⟩ := Option.mem_map.1 hx
    rw [image.ops, outputs_rename]
    exact List.mem_map_of_mem (h.output y hy)

/-! ## Rebuilding -/

/-- The operations emitted so far, under their new ids. -/
structure Emitted (done : List KirOp) (st : Rebuilt) : Prop where
  ops : st.1.ops = done.map (KirOp.rename (mapped st.2))
  known : ∀ x ∈ outputs done, ∃ y, st.2.lookup x = some y ∧ y < st.1.nextId
  inj : Set.InjOn (mapped st.2) {x | x ∈ outputs done}

theorem emitted_nil : Emitted [] (.new, ∅) :=
  ⟨rfl, List.forall_mem_nil _, fun _ hx => absurd hx (by simp [outputs])⟩

section Emit

variable {done : List KirOp} {st : Rebuilt} {op : KirOp}

/-- An operation with a value takes the next id. -/
theorem Emitted.value (h : Emitted done st) (ok : OpsOk (done ++ [op])) {x : KirValueId}
    (hx : op.outputId = some x) :
    Emitted (done ++ [op]) (st.1.allocId.2.push (remapOpInputs (remapOpOutput op st.1.nextId)
      (st.2.insert x st.1.nextId)), st.2.insert x st.1.nextId) := by
  obtain ⟨left, inputs, fresh⟩ := opsOk_concat.1 ok
  have new := fresh x hx
  have self : mapped (st.2.insert x st.1.nextId) x = st.1.nextId := by
    simp [mapped, Finmap.lookup_insert]
  have old : ∀ y ∈ outputs done, mapped (st.2.insert x st.1.nextId) y = mapped st.2 y := by
    intro y hy
    have ne : y ≠ x := by
      rintro rfl
      exact new hy
    simp [mapped, Finmap.lookup_insert_of_ne _ ne]
  have outs : outputs (done ++ [op]) = outputs done ++ [x] := by simp [outputs, hx]
  have range : ∀ y ∈ outputs done, mapped st.2 y < st.1.nextId := by
    intro y hy
    obtain ⟨z, hz, lt⟩ := h.known y hy
    simpa [mapped, hz] using lt
  constructor
  · have here : remapOpInputs (remapOpOutput op st.1.nextId) (st.2.insert x st.1.nextId) =
        op.rename (mapped (st.2.insert x st.1.nextId)) := by
      unfold remapOpInputs remapOpOutput KirOp.rename
      rw [KirOp.mapInputs_withOutput, hx]
      dsimp only
      rw [self]
    show st.1.ops ++ [_] = _
    rw [List.map_append, h.ops, left.rename_congr fun y hy => (old y hy).symm, here]
    rfl
  · intro y hy
    rw [outs, List.mem_append, List.mem_singleton] at hy
    show ∃ z, (st.2.insert x st.1.nextId).lookup y = some z ∧ z < st.1.nextId + 1
    rcases hy with hy | rfl
    · obtain ⟨z, hz, lt⟩ := h.known y hy
      have ne : y ≠ x := by
        rintro rfl
        exact new hy
      exact ⟨z, by rw [Finmap.lookup_insert_of_ne _ ne, hz], Nat.lt_succ_of_lt lt⟩
    · exact ⟨_, Finmap.lookup_insert _, Nat.lt_succ_self _⟩
  · intro y hy z hz same
    simp only [Set.mem_ofPred_eq, outs, List.mem_append, List.mem_singleton] at hy hz
    rcases hy with hy | rfl <;> rcases hz with hz | rfl
    · rw [old y hy, old z hz] at same
      exact h.inj hy hz same
    · rw [old y hy, self] at same
      exact absurd same (range y hy).ne
    · rw [old z hz, self] at same
      exact absurd same (range z hz).ne'
    · rfl

/-- An operation without a value. -/
theorem Emitted.noValue (h : Emitted done st) (hx : op.outputId = none) {prog : KirProgram}
    (ops : prog.ops = st.1.ops ++ [remapOpInputs op st.2]) (next : st.1.nextId ≤ prog.nextId) :
    Emitted (done ++ [op]) (prog, st.2) := by
  have outs : outputs (done ++ [op]) = outputs done := by simp [outputs, hx]
  constructor
  · have here : remapOpInputs op st.2 = op.rename (mapped st.2) := by
      unfold remapOpInputs KirOp.rename
      rw [hx]
    rw [ops, h.ops, here, List.map_append]
    rfl
  · rw [outs]
    intro y hy
    obtain ⟨z, hz, lt⟩ := h.known y hy
    exact ⟨z, hz, lt.trans_le next⟩
  · rw [outs]
    exact h.inj

theorem Emitted.kept (h : Emitted done st) (ok : OpsOk (done ++ [op])) :
    Emitted (done ++ [op]) (emitKept st op) := by
  cases hx : op.outputId with
  | some x =>
    have := h.value ok hx
    unfold emitKept
    rw [hx]
    exact this
  | none =>
    have same : remapOpOutput op st.1.nextId = op := KirOp.withOutput_self op (.inl hx)
    unfold emitKept
    rw [hx]
    refine h.noValue hx ?_ (Nat.le_succ _)
    show st.1.ops ++ [remapOpInputs (remapOpOutput op st.1.nextId) st.2] = _
    rw [same]

theorem Emitted.pipe (h : Emitted done st) (ok : OpsOk (done ++ [op])) :
    Emitted (done ++ [op]) (emitPipe st op) := by
  unfold emitPipe
  cases hx : op.outputId with
  | some x => exact h.value ok hx
  | none => exact h.noValue hx rfl le_rfl

/-- Each way of emitting goes on over a well-formed list. -/
theorem emitted_foldl {f : Rebuilt → KirOp → Rebuilt}
    (step : ∀ {done st op}, Emitted done st → OpsOk (done ++ [op]) → Emitted (done ++ [op]) (f st op))
    {ops : List KirOp} (h : Emitted done st) (ok : OpsOk (done ++ ops)) :
    Emitted (done ++ ops) (ops.foldl f st) := by
  induction ops generalizing done st with
  | nil => rwa [List.append_nil]
  | cons op ops ih =>
    have split : done ++ op :: ops = (done ++ [op]) ++ ops := by simp
    rw [split] at ok ⊢
    exact ih (step h ok.left) ok

end Emit

/-- A rebuild is the regrouped program under other ids. -/
theorem image_rebuild {program : KirProgram} {newPipe : List KirOp}
    (ok : OpsOk (keptOps program ++ newPipe)) :
    ∃ r, Image (regroup program newPipe) (rebuildFromPipeline program newPipe) r := by
  have kept : Emitted (keptOps program) ((keptOps program).foldl emitKept (.new, ∅)) := by
    have := emitted_foldl (f := emitKept) Emitted.kept emitted_nil
      (show OpsOk ([] ++ keptOps program) from ok.left)
    rwa [List.nil_append] at this
  have all := emitted_foldl (f := emitPipe) Emitted.pipe kept ok
  exact ⟨_, all.inj, all.ops, rfl⟩

/-! ## The pipeline of a renamed program -/

section Pipeline

variable {ops : List KirOp} {r : KirValueId → KirValueId}

theorem consumers_rename (ok : OpsOk ops) (inj : Set.InjOn r {x | x ∈ outputs ops}) {v : KirValueId}
    (hv : v ∈ outputs ops) :
    consumers (ops.map (KirOp.rename r)) (r v) = consumers ops v := by
  unfold consumers
  rw [List.zipIdx_map, List.flatMap_map]
  apply List.flatMap_congr
  rintro ⟨op, i⟩ hop
  have member : op ∈ ops := (List.mem_zipIdx' hop).2 ▸ List.getElem_mem _
  simp only [Prod.map, KirOp.inputIds_rename, List.filter_map, List.map_map]
  congr 1
  apply List.filter_congr
  intro x hx
  have hx' := ok.inputs member x hx
  simp only [Function.comp, decide_eq_decide]
  exact ⟨fun same => inj hx' hv same, fun same => congrArg r same⟩

theorem walk_rename (ok : OpsOk ops) (inj : Set.InjOn r {x | x ∈ outputs ops})
    (rounds current : ℕ) (pipeline : List ℕ) :
    walk (ops.map (KirOp.rename r)) rounds current pipeline = walk ops rounds current pipeline := by
  induction rounds generalizing current pipeline with
  | zero => rfl
  | succ rounds ih =>
    have out : (ops.map (KirOp.rename r))[current]?.bind KirOp.outputId =
        (ops[current]?.bind KirOp.outputId).map r := by
      rw [List.getElem?_map]
      cases ops[current]? <;> simp
    simp only [walk, out]
    cases ho : ops[current]?.bind KirOp.outputId with
    | none => rfl
    | some v =>
      have hv : v ∈ outputs ops := by
        obtain ⟨op, hop, hv⟩ := Option.bind_eq_some_iff.1 ho
        exact mem_outputs.2 ⟨op, List.mem_of_getElem? hop, hv⟩
      simp only [Option.map_some, consumers_rename ok inj hv, ih]

variable {a q : KirProgram}

theorem pipelineOps_image (ok : OpsOk a.ops) (image : Image a q r) :
    pipelineOps q = pipelineOps a := by
  have source : KirOp.isSource ∘ KirOp.rename r = KirOp.isSource :=
    funext fun op => KirOp.isSource_rename op r
  unfold pipelineOps
  rw [image.ops, List.findIdx?_map, source, List.length_map]
  cases a.ops.findIdx? KirOp.isSource with
  | none => rfl
  | some start => exact walk_rename ok image.inj _ _ _

theorem pipeOps_image (ok : OpsOk a.ops) (image : Image a q r) :
    pipeOps q = (pipeOps a).map (KirOp.rename r) := by
  unfold pipeOps opsAt
  rw [pipelineOps_image ok image, image.ops, List.map_filterMap]
  simp only [List.getElem?_map]

theorem keptOps_image (ok : OpsOk a.ops) (image : Image a q r) :
    keptOps q = (keptOps a).map (KirOp.rename r) := by
  unfold keptOps
  dsimp only
  rw [pipelineOps_image ok image, image.ops, List.zipIdx_map, List.filter_map, List.map_map,
    List.map_map]
  rfl

/-- A pass rebuilds a renamed program with the renamed pipeline. -/
theorem Image.rebuild (image : Image a q r) (h : WellFormed a) {newPipe : List KirOp}
    (rewrites : Rewrites (pipeOps a) newPipe) (detached : Detached a newPipe) :
    ∃ s, Image (regroup a newPipe) (rebuildFromPipeline q (newPipe.map (KirOp.rename r))) s := by
  have ok : OpsOk (keptOps a ++ newPipe) := (h.regroup rewrites detached).ops
  have sub : ∀ x ∈ outputs (keptOps a ++ newPipe), x ∈ outputs a.ops := by
    intro x hx
    rw [outputs_append, List.mem_append, keptOps_eq] at hx
    rcases hx with hx | hx
    · exact outputs_opsOn_subset hx
    · exact outputs_opsOn_subset (rewrites.outputs.subset hx)
  have renamed : keptOps q ++ newPipe.map (KirOp.rename r) =
      (keptOps a ++ newPipe).map (KirOp.rename r) := by
    rw [keptOps_image h.ops image, List.map_append]
  have inj : Set.InjOn r {x | x ∈ outputs (keptOps a ++ newPipe)} := image.inj.mono sub
  have okRenamed : OpsOk (keptOps q ++ newPipe.map (KirOp.rename r)) := by
    rw [renamed]
    exact ok.rename inj
  obtain ⟨s, again⟩ := image_rebuild okRenamed
  refine ⟨s ∘ r, ?_, ?_, ?_⟩
  · apply again.inj.comp inj
    intro x hx
    show r x ∈ outputs (keptOps q ++ newPipe.map (KirOp.rename r))
    rw [renamed, outputs_rename]
    exact List.mem_map_of_mem hx
  · rw [again.ops]
    show (keptOps q ++ newPipe.map (KirOp.rename r)).map (KirOp.rename s) = _
    rw [renamed, List.map_map]
    exact List.map_congr_left fun op _ => KirOp.rename_rename op r s
  · rw [again.output]
    show q.output.map s = a.output.map (s ∘ r)
    rw [image.output, Option.map_map]

end Pipeline

end QueryOptimizer

end TORdex
