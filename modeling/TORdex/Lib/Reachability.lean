import Mathlib.Data.List.Sort
import Mathlib.Data.Set.Insert
import Mathlib.Logic.Relation

/-!
# Classes of mutual reachability

The strongly connected components of a relation, as lists in order; and the property of a finishing order
that a search in the other direction needs.
-/

open Relation (ReflTransGen)

namespace Reachability

variable {V : Type*} {r : V → V → Prop} {a b c : V}

/-- Each of the two reaches the other. -/
def Mutual (r : V → V → Prop) (a b : V) : Prop := ReflTransGen r a b ∧ ReflTransGen r b a

theorem Mutual.refl (a : V) : Mutual r a a := ⟨.refl, .refl⟩

theorem Mutual.symm (h : Mutual r a b) : Mutual r b a := ⟨h.2, h.1⟩

theorem Mutual.trans (h : Mutual r a b) (h' : Mutual r b c) : Mutual r a c :=
  ⟨h.1.trans h'.1, h'.2.trans h.2⟩

/-- What is on the way between two that reach each other is in the class. -/
theorem Mutual.between (h : Mutual r a b) (hac : ReflTransGen r a c) (hcb : ReflTransGen r c b) :
    Mutual r a c :=
  ⟨hac, hcb.trans h.2⟩

/-- A set that no step leaves. -/
theorem mem_of_reach {s : Set V} (closed : ∀ x ∈ s, ∀ y, r x y → y ∈ s) (ha : a ∈ s)
    (h : ReflTransGen r a b) : b ∈ s := by
  induction h with
  | refl => exact ha
  | tail _ step ih => exact closed _ ih _ step

/-- The lists are the classes of mutual reachability of the nodes, each in order and each once. -/
structure SortedClasses [LinearOrder V] (r : V → V → Prop) (nodes : Set V) (classes : List (List V)) :
    Prop where
  sorted : ∀ c ∈ classes, c.Pairwise (· < ·)
  isClass : ∀ c ∈ classes, ∃ a, ∀ b, b ∈ c ↔ Mutual r a b
  within : ∀ c ∈ classes, ∀ b ∈ c, b ∈ nodes
  cover : ∀ a ∈ nodes, ∃ c ∈ classes, a ∈ c
  nodup : classes.Nodup

section Classes

variable [LinearOrder V] {nodes nodes' : Set V} {classes classes' : List (List V)}

theorem sortedClasses_nil : SortedClasses r ∅ [] where
  sorted _ h := absurd h List.not_mem_nil
  isClass _ h := absurd h List.not_mem_nil
  within _ h := absurd h List.not_mem_nil
  cover _ h := absurd h (Set.notMem_empty _)
  nodup := List.nodup_nil

/-- A class is the class of each of its members. -/
theorem SortedClasses.mem_iff (h : SortedClasses r nodes classes) {l : List V} (hl : l ∈ classes)
    (ha : a ∈ l) : b ∈ l ↔ Mutual r a b := by
  obtain ⟨x, hx⟩ := h.isClass l hl
  rw [hx]
  exact ⟨((hx a).1 ha).symm.trans, ((hx a).1 ha).trans⟩

/-- With a node they have its whole class. -/
theorem SortedClasses.mem_of_mutual (h : SortedClasses r nodes classes) (ha : a ∈ nodes) (hab : Mutual r a b) :
    b ∈ nodes := by
  obtain ⟨c, hc, hm⟩ := h.cover a ha
  exact h.within c hc b ((h.mem_iff hc hm).2 hab)

/-- Another class. -/
theorem SortedClasses.concat (h : SortedClasses r nodes classes) {l : List V} (sorted : l.Pairwise (· < ·))
    (ha : ∀ b, b ∈ l ↔ Mutual r a b) (new : a ∉ nodes) :
    SortedClasses r (nodes ∪ {b | b ∈ l}) (classes ++ [l]) := by
  have self : a ∈ l := (ha a).2 (.refl a)
  constructor
  · intro c hc
    rcases List.mem_append.1 hc with hc | hc
    · exact h.sorted c hc
    · exact List.mem_singleton.1 hc ▸ sorted
  · intro c hc
    rcases List.mem_append.1 hc with hc | hc
    · exact h.isClass c hc
    · exact ⟨a, List.mem_singleton.1 hc ▸ ha⟩
  · intro c hc b hb
    rcases List.mem_append.1 hc with hc | hc
    · exact .inl (h.within c hc b hb)
    · exact .inr (List.mem_singleton.1 hc ▸ hb)
  · rintro b (hb | hb)
    · obtain ⟨c, hc, hm⟩ := h.cover b hb
      exact ⟨c, List.mem_append_left _ hc, hm⟩
    · exact ⟨l, List.mem_append_right _ (List.mem_singleton_self l), hb⟩
  · rw [List.nodup_append]
    refine ⟨h.nodup, List.nodup_singleton l, fun c hc d hd same => ?_⟩
    rw [List.mem_singleton.1 hd] at same
    exact new (h.within c hc a (same ▸ self))

/-- Lists in order with the same members are equal. -/
theorem eq_of_sorted {l l' : List V} (h : l.Pairwise (· < ·)) (h' : l'.Pairwise (· < ·))
    (same : ∀ x, x ∈ l ↔ x ∈ l') : l = l' := by
  have perm : l.Perm l' := (List.perm_ext_iff_of_nodup h.nodup h'.nodup).2 same
  exact perm.eq_of_pairwise' h h'

/-- There is only one list of the classes, up to the order. -/
theorem SortedClasses.perm (h : SortedClasses r nodes classes) (h' : SortedClasses r nodes classes') :
    classes.Perm classes' := by
  have subset : ∀ {ls ls'}, SortedClasses r nodes ls → SortedClasses r nodes ls' →
      ∀ l ∈ ls, l ∈ ls' := by
    intro ls ls' h h' l hl
    obtain ⟨a, ha⟩ := h.isClass l hl
    have self : a ∈ l := (ha a).2 (.refl a)
    obtain ⟨l', hl', ha'⟩ := h'.cover a (h.within l hl a self)
    have same : l = l' := eq_of_sorted (h.sorted l hl) (h'.sorted l' hl') fun x => by
      rw [h.mem_iff hl self, h'.mem_iff hl' ha']
    exact same ▸ hl'
  exact (List.perm_ext_iff_of_nodup h.nodup h'.nodup).2 fun l => ⟨subset h h' l, subset h' h l⟩

end Classes

/-! ## Finishing orders -/

/-- Everything that the members of a class in the set reach is in the set, when the whole class is. -/
def Settled (r : V → V → Prop) (s : Set V) : Prop :=
  ∀ x, (∀ y, Mutual r x y → y ∈ s) → ∀ y, ReflTransGen r x y → y ∈ s

/-- Every class finishes after what it reaches. -/
def FinishOrder (r : V → V → Prop) (order : List V) : Prop :=
  ∀ before, before <+: order → Settled r {x | x ∈ before}

theorem finishOrder_nil : FinishOrder r [] := by
  intro before hb x whole
  rw [List.prefix_nil.1 hb] at whole
  exact absurd (whole x (.refl x)) List.not_mem_nil

/-- A node may finish when everything that its successors and those of finished nodes are has been started,
and all that is started but not finished reaches the node. -/
theorem FinishOrder.concat {order : List V} {v : V} (h : FinishOrder r order) {started : Set V}
    (succ : ∀ x ∈ order ++ [v], ∀ y, r x y → y ∈ started)
    (path : ∀ g ∈ started, g ∉ order ++ [v] → ReflTransGen r g v) : FinishOrder r (order ++ [v]) := by
  intro before hb x whole y hxy
  rcases List.prefix_concat_iff.1 hb with rfl | hb
  · by_cases settled : ∀ z, Mutual r x z → z ∈ order
    · exact List.mem_append_left _ (h order List.prefix_rfl x settled y hxy)
    · -- the node is the last of the class of `x`; from the class no step leaves the finished nodes
      have last : Mutual r x v := by
        by_contra hv
        refine settled fun z hz => ?_
        rcases List.mem_append.1 (whole z hz) with hz' | hz'
        · exact hz'
        · exact absurd (List.mem_singleton.1 hz' ▸ hz) hv
      have reached : ∀ z ∈ {z | z ∈ order ++ [v] ∧ ReflTransGen r x z}, ∀ w, r z w →
          w ∈ {z | z ∈ order ++ [v] ∧ ReflTransGen r x z} := by
        rintro z ⟨hz, hxz⟩ w hzw
        refine ⟨?_, hxz.tail hzw⟩
        by_contra hw
        have back := path w (succ z hz w hzw) hw
        exact hw (whole w ⟨hxz.tail hzw, back.trans last.2⟩)
      exact (mem_of_reach reached ⟨whole x (.refl x), .refl⟩ hxy).1
  · exact h before hb x whole y hxy

/-- The node that finishes last outside of some whole classes is reached, outside of them, by its own class
only. -/
theorem FinishOrder.mutual_of_reach {before after : List V} {v : V} {done : Set V}
    (h : FinishOrder r (before ++ v :: after)) (nodup : (before ++ v :: after).Nodup)
    (back : ∀ x, ReflTransGen r x v → x ∈ before ++ v :: after) (later : ∀ x ∈ after, x ∈ done)
    (classes : ∀ x ∈ done, ∀ y, Mutual r x y → y ∈ done) {x : V} (hx : x ∉ done)
    (reach : ReflTransGen r x v) : Mutual r x v := by
  by_contra other
  have early : ∀ y, Mutual r x y → y ∈ before := by
    intro y hy
    rcases List.mem_append.1 (back y (hy.2.trans reach)) with hb | hb
    · exact hb
    · rcases List.mem_cons.1 hb with rfl | ha
      · exact absurd hy other
      · exact absurd (classes y (later y ha) x hy.symm) hx
  have hv : v ∈ before := h before (List.prefix_append _ _) x early v reach
  exact (List.nodup_append.1 nodup).2.2 v hv v List.mem_cons_self rfl

end Reachability
