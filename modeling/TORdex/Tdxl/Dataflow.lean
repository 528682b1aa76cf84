import TORdex.Tdxl.Kir

/-!
# The dataflow graph of a program

A program is well-formed when every id is produced once and before its uses.  Its meaning is what its
operations without output consume: expression trees, unfolded from producer to producer down to the
constants.
-/

namespace TORdex

/-- The values that some operation produces, in order. -/
def outputs (ops : List KirOp) : List KirValueId := ops.filterMap KirOp.outputId

/-- Every id is produced once, and before its uses. -/
structure OpsOk (ops : List KirOp) : Prop where
  nodup : (outputs ops).Nodup
  earlier : ∀ before op after, ops = before ++ op :: after → ∀ x ∈ op.inputIds, x ∈ outputs before

/-- An operation applied to the trees of its inputs. -/
inductive Tree where
  | node (op : KirOp) (inputs : List Tree)

/-- The operation without its ids. -/
def KirOp.label (op : KirOp) : KirOp := (op.withOutput 0).mapInputs fun _ => 0

/-- The tree of a value over operations in reverse order. -/
def unfoldTree : List KirOp → KirValueId → Option Tree
  | [], _ => none
  | op :: before, id =>
    if op.outputId = some id then (op.inputIds.mapM (unfoldTree before)).map (Tree.node op.label)
    else unfoldTree before id

/-- The tree of a value. -/
def treeOf (ops : List KirOp) (id : KirValueId) : Option Tree := unfoldTree ops.reverse id

/-- What the operations without output do, in order, and with what. -/
def effects (ops : List KirOp) : List (KirOp × List (Option Tree)) :=
  (ops.filter fun op => op.outputId.isNone).map fun op => (op.label, op.inputIds.map (treeOf ops))

section Outputs

variable {ops before after : List KirOp} {op : KirOp} {id : KirValueId}

theorem mem_outputs : id ∈ outputs ops ↔ ∃ op ∈ ops, op.outputId = some id := List.mem_filterMap

@[simp] theorem outputs_append : outputs (before ++ after) = outputs before ++ outputs after :=
  List.filterMap_append

theorem outputs_sublist (h : before.Sublist after) : (outputs before).Sublist (outputs after) :=
  h.filterMap _

/-- The outputs do not depend on the inputs. -/
theorem outputs_map {f : KirOp → KirOp} (h : ∀ op, (f op).outputId = op.outputId) :
    outputs (ops.map f) = outputs ops := by
  unfold outputs
  rw [List.filterMap_map]
  exact List.filterMap_congr fun op _ => h op

/-- Only one operation produces a value. -/
theorem producer_unique (nodup : (outputs ops).Nodup) {op' : KirOp} (h : op ∈ ops) (h' : op' ∈ ops)
    (ho : op.outputId = some id) (ho' : op'.outputId = some id) : op = op' := by
  by_contra hne
  obtain ⟨before, after, rfl⟩ := List.append_of_mem h
  rw [outputs_append, List.nodup_append] at nodup
  have here : outputs (op :: after) = id :: outputs after := by simp [outputs, ho]
  rw [here] at nodup
  rcases List.mem_append.1 h' with hb | ha
  · exact nodup.2.2 id (mem_outputs.2 ⟨op', hb, ho'⟩) id List.mem_cons_self rfl
  · rcases List.mem_cons.1 ha with rfl | ha
    · exact hne rfl
    · exact (List.nodup_cons.1 nodup.2.1).1 (mem_outputs.2 ⟨op', ha, ho'⟩)

end Outputs

/-! ## Trees -/

section Trees

variable {ops : List KirOp} {op : KirOp} {id : KirValueId}

theorem treeOf_concat : treeOf (ops ++ [op]) id =
    if op.outputId = some id then (op.inputIds.mapM (treeOf ops)).map (Tree.node op.label)
    else treeOf ops id := by
  simp only [treeOf, List.reverse_append, List.reverse_singleton, List.singleton_append, unfoldTree]
  rfl

theorem treeOf_concat_of_ne (h : op.outputId ≠ some id) :
    treeOf (ops ++ [op]) id = treeOf ops id := by
  rw [treeOf_concat, if_neg h]

/-- A value that no operation produces has no tree. -/
theorem treeOf_none (h : id ∉ outputs ops) : treeOf ops id = none := by
  induction ops using List.reverseRecOn with
  | nil => rfl
  | append_singleton ops op ih =>
    rw [outputs_append, List.mem_append, not_or] at h
    rw [treeOf_concat_of_ne fun ho => h.2 (mem_outputs.2 ⟨op, List.mem_singleton_self op, ho⟩)]
    exact ih h.1

theorem label_mapInputs (r : KirValueId → KirValueId) : (op.mapInputs r).label = op.label := by
  cases op <;> rfl

end Trees

/-- The parts of a well-formed list of operations. -/
theorem OpsOk.left {before after : List KirOp} (h : OpsOk (before ++ after)) : OpsOk before where
  nodup := h.nodup.sublist (outputs_sublist (List.sublist_append_left _ _))
  earlier b op a split := h.earlier b op (a ++ after) (by simp [split])

/-- A list of operations is well-formed when its last operation uses what is before it. -/
theorem opsOk_concat {ops : List KirOp} {op : KirOp} : OpsOk (ops ++ [op]) ↔
    OpsOk ops ∧ (∀ x ∈ op.inputIds, x ∈ outputs ops) ∧ ∀ id, op.outputId = some id → id ∉ outputs ops := by
  constructor
  · intro h
    refine ⟨h.left, h.earlier ops op [] rfl, fun id ho hm => ?_⟩
    have nodup := h.nodup
    rw [outputs_append, List.nodup_append] at nodup
    exact nodup.2.2 id hm id (mem_outputs.2 ⟨op, List.mem_singleton_self op, ho⟩) rfl
  · rintro ⟨ok, inputs, fresh⟩
    constructor
    · rw [outputs_append, List.nodup_append]
      refine ⟨ok.nodup, ?_, fun x hx y hy => ?_⟩
      · cases ho : op.outputId <;> simp [outputs, ho]
      · rintro rfl
        obtain ⟨op', hm, ho⟩ := mem_outputs.1 hy
        rw [List.mem_singleton.1 hm] at ho
        exact fresh x ho hx
    · intro before op' after split
      rcases List.eq_nil_or_concat after with rfl | ⟨after, last, rfl⟩
      · obtain ⟨rfl, hop⟩ := List.append_inj' split rfl
        cases hop
        exact inputs
      · have init : ops = before ++ op' :: after := by
          have whole : ops ++ [op] = (before ++ op' :: after) ++ [last] := by simpa using split
          exact (List.append_inj' whole rfl).1
        exact ok.earlier before op' after init

/-- Well-formedness, position by position. -/
theorem opsOk_iff {ops : List KirOp} : OpsOk ops ↔ (outputs ops).Nodup ∧
    ∀ i, (hi : i < ops.length) → ∀ x ∈ (ops.get ⟨i, hi⟩).inputIds, x ∈ outputs (ops.take i) := by
  constructor
  · refine fun ok => ⟨ok.nodup, fun i hi => ok.earlier _ _ (ops.drop (i + 1)) ?_⟩
    rw [List.get_eq_getElem, List.getElem_cons_drop, List.take_append_drop]
  · rintro ⟨nodup, earlier⟩
    refine ⟨nodup, ?_⟩
    rintro before op after rfl
    have here := earlier before.length (by simp)
    simpa using here

instance (ops : List KirOp) : Decidable (OpsOk ops) := decidable_of_iff _ opsOk_iff.symm

end TORdex
