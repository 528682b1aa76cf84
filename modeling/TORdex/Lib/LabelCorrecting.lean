import Mathlib.Algebra.BigOperators.Group.Finset.Basic
import Mathlib.Algebra.Group.Submonoid.Basic
import Mathlib.Algebra.Group.Submonoid.BigOperators
import Mathlib.Algebra.Order.BigOperators.Group.Finset
import Mathlib.Algebra.Order.Group.Nat
import Mathlib.Algebra.Order.Monoid.Defs
import Mathlib.Algebra.Order.Monoid.Submonoid
import Mathlib.Data.Multiset.AddSub
import Mathlib.Data.Set.Finite.Basic
import Mathlib.Order.WellFoundedSet

/-!
# Walks and their costs

A graph is given by the edges out of every node, each with its target and its weight; there may be
several to one target.
-/

namespace WeightedWalks

variable {V W : Type*} [AddCommMonoid W]

/-- A walk with the sum of its weights. -/
inductive Walk (out : V → List (V × W)) (a : V) : V → W → Prop
  | here : Walk out a a 0
  | snoc {b c x w} (walk : Walk out a b x) (edge : (c, w) ∈ out b) : Walk out a c (x + w)

variable {out : V → List (V × W)} {a b c : V} {x y w : W}

theorem Walk.cons (edge : (b, w) ∈ out a) (walk : Walk out b c x) : Walk out a c (w + x) := by
  induction walk with
  | here =>
    rw [add_zero, ← zero_add w]
    exact .snoc .here edge
  | snoc _ last ih =>
    rw [← add_assoc]
    exact .snoc ih last

/-- Nodes one after the other along edges, with the sum of the weights of these. -/
def IsPath (out : V → List (V × W)) : List V → W → Prop
  | [], _ => False
  | [_], x => x = 0
  | a :: b :: rest, x => ∃ w y, (b, w) ∈ out a ∧ IsPath out (b :: rest) y ∧ x = w + y

/-- The nodes start and end with these two, and the weights along them sum to the cost. -/
structure PathBetween (out : V → List (V × W)) (a b : V) (path : List V) (x : W) : Prop where
  head : path.head? = some a
  last : path.getLast? = some b
  path : IsPath out path x

theorem pathBetween_singleton (a : V) : PathBetween out a a [a] 0 := ⟨rfl, rfl, rfl⟩

theorem PathBetween.cons {path : List V} (h : PathBetween out b c path x) (edge : (b, w) ∈ out a) :
    PathBetween out a c (a :: path) (w + x) := by
  obtain ⟨head, last, isPath⟩ := h
  cases path with
  | nil => cases head
  | cons d rest =>
    obtain rfl : d = b := Option.some.inj head
    exact ⟨rfl, (List.getLast?_cons_cons ..).trans last, w, x, edge, isPath, rfl⟩

theorem PathBetween.walk {path : List V} (h : PathBetween out a b path x) : Walk out a b x := by
  obtain ⟨head, last, isPath⟩ := h
  induction path generalizing a x with
  | nil => cases head
  | cons d rest ih =>
    obtain rfl : d = a := Option.some.inj head
    cases rest with
    | nil =>
      obtain rfl : d = b := Option.some.inj last
      obtain rfl : x = 0 := isPath
      exact .here
    | cons e rest =>
      obtain ⟨w, y, edge, tail, rfl⟩ := isPath
      exact .cons edge (ih rfl ((List.getLast?_cons_cons ..).symm.trans last) tail)

/-- A walk stays in a set that no edge leaves. -/
theorem Walk.mem {nodes : Set V} (closed : ∀ v ∈ nodes, ∀ e ∈ out v, e.1 ∈ nodes) (start : a ∈ nodes)
    (h : Walk out a b x) : b ∈ nodes := by
  induction h with
  | here => exact start
  | snoc _ edge ih => exact closed _ ih _ edge

/-- The cost of a walk is in a submonoid that has all weights. -/
theorem Walk.cost_mem {S : AddSubmonoid W} (weights : ∀ v, ∀ e ∈ out v, e.2 ∈ S) (h : Walk out a b x) :
    x ∈ S := by
  induction h with
  | here => exact S.zero_mem
  | snoc _ edge ih => exact S.add_mem ih (weights _ _ edge)

section Order

variable [LinearOrder W] [IsOrderedAddMonoid W]

theorem Walk.nonneg (weights : ∀ v, ∀ e ∈ out v, 0 ≤ e.2) (h : Walk out a b x) : 0 ≤ x := by
  induction h with
  | here => exact le_rfl
  | snoc _ edge ih => exact add_nonneg ih (weights _ _ edge)

/-- The least cost of a walk between two nodes. -/
def IsDistance (out : V → List (V × W)) (a b : V) (x : W) : Prop :=
  Walk out a b x ∧ ∀ y, Walk out a b y → x ≤ y

end Order

end WeightedWalks

/-!
# Label-correcting search

Nodes have a label, the cost of some walk to them, and a link to the node before them; a heap holds
entries for nodes whose edges are still to be relaxed.  An entry is dropped when it is out of date, or
its node is expanded.  Nothing is assumed of the order in which entries are taken.

* `Sound`: labels are costs of walks, and links lead back to the start along edges.
* `Pending`: a label has its entry in the heap, or the edges out of its node are relaxed.
* `Inv.frontier`: a walk cheaper than the labels has an entry on it.
* `down_take`, `down_expand`: every step leads down a well-founded relation.
-/

namespace LabelCorrecting

open WeightedWalks

/-- Labels, links, and a heap of priorities and nodes. -/
structure Search (V W : Type*) where
  label : V → Option W
  parent : V → Option V
  heap : Multiset (W × V)

/-- The links lead from a node to the root. -/
inductive Rooted {V : Type*} (parent : V → Option V) (a : V) : V → Prop
  | root : Rooted parent a a
  | link {v u} (link : parent v = some u) (rest : Rooted parent a u) : Rooted parent a v

variable {V W : Type*} [DecidableEq V] [AddCommMonoid W] [LinearOrder W]

namespace Search

-- The priority of a node is its label plus this.
variable (h : V → W)

/-- The search before its first round. -/
def start (a : V) : Search V W := ⟨Function.update (fun _ => none) a (some 0), fun _ => none, {(h a, a)}⟩

/-- A better label for a node, with a link and an entry. -/
def improve (s : Search V W) (u b : V) (new : W) : Search V W :=
  ⟨Function.update s.label b (some new), Function.update s.parent b (some u), (new + h b, b) ::ₘ s.heap⟩

/-- Relax an edge out of `u`, whose label is `d`. -/
def relax (u : V) (d : W) (s : Search V W) (e : V × W) : Search V W :=
  if ∀ old ∈ s.label e.1, d + e.2 < old then s.improve h u e.1 (d + e.2) else s

/-- Relax edges out of `u`, whose label is `d`. -/
def expand (u : V) (d : W) (edges : List (V × W)) (s : Search V W) : Search V W := edges.foldl (relax h u d) s

/-- Take an entry off the heap. -/
def take (s : Search V W) (e : W × V) : Search V W := { s with heap := s.heap.erase e }

end Search

open Search

variable {out : V → List (V × W)} {h : V → W} {a u v b : V} {d w : W} {s s' s'' : Search V W}

/-! ## Labels and links -/

/-- The labels are lengths of walks. -/
structure Sound (out : V → List (V × W)) (h : V → W) (a : V) (s : Search V W) : Prop where
  start : s.label a = some 0
  walk : ∀ v g, s.label v = some g → Walk out a v g
  keys : ∀ e ∈ s.heap, ∃ g, s.label e.2 = some g ∧ g + h e.2 ≤ e.1
  root : s.parent a = none
  parent : ∀ v u, s.parent v = some u →
    ∃ gu gv w, s.label u = some gu ∧ s.label v = some gv ∧ (v, w) ∈ out u ∧ gu + w ≤ gv
  rooted : ∀ v g, s.label v = some g → Rooted s.parent a v

theorem sound_start (out : V → List (V × W)) (h : V → W) (a : V) : Sound out h a (.start h a) := by
  have only : ∀ v g, (Search.start h a).label v = some g → v = a ∧ g = 0 := by
    intro v g labelled
    by_cases same : v = a
    · subst same
      simpa [Search.start, eq_comm] using labelled
    · simp [Search.start, same] at labelled
  refine ⟨by simp [Search.start], fun v g labelled => ?_, fun e he => ?_, rfl, nofun, fun v g labelled => ?_⟩
  · obtain ⟨rfl, rfl⟩ := only v g labelled
    exact .here
  · rw [Search.start, Multiset.mem_singleton] at he
    subst he
    exact ⟨0, by simp [Search.start], (zero_add _).le⟩
  · obtain ⟨rfl, -⟩ := only v g labelled
    exact .root

/-- Taking an entry changes neither labels nor links. -/
theorem Sound.take (hs : Sound out h a s) (e : W × V) : Sound out h a (s.take e) :=
  ⟨hs.start, hs.walk, fun e' he' => hs.keys e' (Multiset.mem_of_mem_erase he'), hs.root, hs.parent, hs.rooted⟩

section Improve

variable [IsOrderedAddMonoid W] (weights : ∀ v, ∀ e ∈ out v, 0 ≤ e.2) (hs : Sound out h a s)

include weights hs in
omit [DecidableEq V] in
theorem Sound.improved_ne_start (label : s.label u = some d) (edge : (b, w) ∈ out u)
    (better : ∀ old ∈ s.label b, d + w < old) : b ≠ a := by
  rintro rfl
  have cost : 0 ≤ d + w := add_nonneg ((hs.walk u d label).nonneg weights) (weights u _ edge)
  exact absurd (better 0 hs.start) cost.not_gt

include weights in
omit [DecidableEq V] in
theorem improved_ne (label : s.label u = some d) (edge : (b, w) ∈ out u)
    (better : ∀ old ∈ s.label b, d + w < old) : b ≠ u := by
  rintro rfl
  exact absurd (better d label) (le_add_of_nonneg_right (weights b _ edge)).not_gt

include weights hs

/-- The links from the expanded node to the root do not pass the improved one: on the way back labels do not
grow, and that of the improved node is greater. -/
theorem Sound.rooted_improve (edge : (b, w) ∈ out u) (better : ∀ old ∈ s.label b, d + w < old) {v : V}
    (rooted : Rooted s.parent a v) :
    ∀ g, s.label v = some g → g ≤ d → Rooted (s.improve h u b (d + w)).parent a v := by
  induction rooted with
  | root => exact fun _ _ _ => .root
  | @link v p link _ ih =>
    intro g labelled le
    obtain ⟨gp, gv, x, labelP, labelV, edge', sum⟩ := hs.parent v p link
    obtain rfl : gv = g := Option.some.inj (labelV.symm.trans labelled)
    have ne : v ≠ b := by
      rintro rfl
      have less : d + w < gv := better gv labelV
      exact absurd (le.trans (le_add_of_nonneg_right (weights u _ edge))) less.not_ge
    have le' : gp ≤ d := (le_add_of_nonneg_right (weights p _ edge')).trans (sum.trans le)
    exact .link ((Function.update_of_ne ne ..).trans link) (ih gp labelP le')

theorem Sound.improve (label : s.label u = some d) (edge : (b, w) ∈ out u)
    (better : ∀ old ∈ s.label b, d + w < old) : Sound out h a (s.improve h u b (d + w)) := by
  have neStart := hs.improved_ne_start weights label edge better
  have ne := improved_ne weights label edge better
  have rootedU : Rooted (s.improve h u b (d + w)).parent a u :=
    hs.rooted_improve weights edge better (hs.rooted u d label) d label le_rfl
  have rootedB : Rooted (s.improve h u b (d + w)).parent a b := .link (Function.update_self ..) rootedU
  have keepLabel : ∀ v, v ≠ b → (s.improve h u b (d + w)).label v = s.label v :=
    fun v hv => Function.update_of_ne hv ..
  have newLabel : (s.improve h u b (d + w)).label b = some (d + w) := Function.update_self ..
  refine ⟨(keepLabel a neStart.symm).trans hs.start, fun v g labelled => ?_, fun e he => ?_,
    (Function.update_of_ne neStart.symm ..).trans hs.root, fun v p link => ?_, fun v g labelled => ?_⟩
  · by_cases same : v = b
    · subst same
      obtain rfl : d + w = g := Option.some.inj (newLabel.symm.trans labelled)
      exact .snoc (hs.walk u d label) edge
    · exact hs.walk v g ((keepLabel v same).symm.trans labelled)
  · rcases Multiset.mem_cons.1 he with rfl | old
    · exact ⟨d + w, newLabel, le_rfl⟩
    · obtain ⟨g, labelled, le⟩ := hs.keys e old
      by_cases same : e.2 = b
      · have less : d + w < g := better g (same ▸ labelled)
        exact ⟨d + w, same ▸ newLabel, (add_le_add_left less.le _).trans le⟩
      · exact ⟨g, (keepLabel _ same).trans labelled, le⟩
  · by_cases same : v = b
    · subst same
      have newLink : (s.improve h u v (d + w)).parent v = some u := Function.update_self ..
      obtain rfl : u = p := Option.some.inj (newLink.symm.trans link)
      exact ⟨d, d + w, w, (keepLabel u ne.symm).trans label, newLabel, edge, le_rfl⟩
    · have keepLink : (s.improve h u b (d + w)).parent v = s.parent v := Function.update_of_ne same ..
      obtain ⟨gp, gv, x, labelP, labelV, edge', sum⟩ := hs.parent v p (keepLink.symm.trans link)
      by_cases improved : p = b
      · subst improved
        have less : d + w < gp := better gp labelP
        exact ⟨d + w, gv, x, newLabel, (keepLabel v same).trans labelV, edge', (add_le_add_left less.le x).trans sum⟩
      · exact ⟨gp, gv, x, (keepLabel p improved).trans labelP, (keepLabel v same).trans labelV, edge', sum⟩
  · by_cases same : v = b
    · exact same ▸ rootedB
    · have before := hs.rooted v g ((keepLabel v same).symm.trans labelled)
      clear labelled same
      induction before with
      | root => exact .root
      | @link v p link _ ih =>
        by_cases improved : v = b
        · exact improved ▸ rootedB
        · exact .link ((Function.update_of_ne improved ..).trans link) ih

end Improve

/-! ## Expansion -/

/-- Labels only get better, a changed one has its entry, and entries stay. -/
structure Grows (h : V → W) (s s' : Search V W) : Prop where
  label : ∀ v g, s.label v = some g → ∃ g' ≤ g, s'.label v = some g'
  changed : ∀ v, s'.label v = s.label v ∨ ∃ g, s'.label v = some g ∧ (g + h v, v) ∈ s'.heap
  heap : ∀ e ∈ s.heap, e ∈ s'.heap

omit [DecidableEq V] in
theorem Grows.refl (s : Search V W) : Grows h s s := ⟨fun _ g hg => ⟨g, le_rfl, hg⟩, fun _ => .inl rfl, fun _ => id⟩

omit [DecidableEq V] in
theorem Grows.trans (first : Grows h s s') (second : Grows h s' s'') : Grows h s s'' := by
  refine ⟨fun v g hg => ?_, fun v => ?_, fun e he => second.heap e (first.heap e he)⟩
  · obtain ⟨g', le, hg'⟩ := first.label v g hg
    obtain ⟨g'', le', hg''⟩ := second.label v g' hg'
    exact ⟨g'', le'.trans le, hg''⟩
  · rcases second.changed v with same | changed
    · rw [same]
      exact (first.changed v).imp_right fun ⟨g, hg, he⟩ => ⟨g, hg, second.heap _ he⟩
    · exact .inr changed

theorem grows_improve (better : ∀ old ∈ s.label b, d + w < old) : Grows h s (s.improve h u b (d + w)) := by
  have newLabel : (s.improve h u b (d + w)).label b = some (d + w) := Function.update_self ..
  have keepLabel : ∀ v, v ≠ b → (s.improve h u b (d + w)).label v = s.label v :=
    fun v hv => Function.update_of_ne hv ..
  refine ⟨fun v g hg => ?_, fun v => ?_, fun e he => Multiset.mem_cons_of_mem he⟩
  · by_cases same : v = b
    · subst same
      exact ⟨d + w, (better g hg).le, newLabel⟩
    · exact ⟨g, le_rfl, (keepLabel v same).trans hg⟩
  · by_cases same : v = b
    · subst same
      exact .inr ⟨d + w, newLabel, Multiset.mem_cons_self ..⟩
    · exact .inl (keepLabel v same)

/-- What relaxing edges out of a node does: its own label stays, and the targets have labels no greater than
the way over it. -/
structure Expanded (out : V → List (V × W)) (h : V → W) (a u : V) (d : W) (edges : List (V × W))
    (s s' : Search V W) : Prop where
  sound : Sound out h a s'
  grows : Grows h s s'
  label : s'.label u = some d
  relaxed : ∀ e ∈ edges, ∃ g ≤ d + e.2, s'.label e.1 = some g

section Expand

variable [IsOrderedAddMonoid W] (weights : ∀ v, ∀ e ∈ out v, 0 ≤ e.2) (hs : Sound out h a s)
  (label : s.label u = some d)
include weights hs label

theorem expanded_relax {e : V × W} (edge : e ∈ out u) : Expanded out h a u d [e] s (s.relax h u d e) := by
  unfold relax
  split_ifs with better
  · refine ⟨hs.improve weights label edge better, grows_improve better, ?_, fun e' he' => ?_⟩
    · exact (Function.update_of_ne (improved_ne weights label edge better).symm ..).trans label
    · rw [List.mem_singleton.1 he']
      exact ⟨d + e.2, le_rfl, Function.update_self ..⟩
  · refine ⟨hs, .refl s, label, fun e' he' => ?_⟩
    rw [List.mem_singleton.1 he']
    simp only [not_forall, not_lt] at better
    obtain ⟨old, labelled, le⟩ := better
    exact ⟨old, le, labelled⟩

theorem expanded_expand (edges : List (V × W)) (known : ∀ e ∈ edges, e ∈ out u) :
    Expanded out h a u d edges s (s.expand h u d edges) := by
  induction edges generalizing s with
  | nil => exact ⟨hs, .refl s, label, nofun⟩
  | cons e edges ih =>
    have first := expanded_relax weights hs label (known e List.mem_cons_self)
    have rest := ih first.sound first.label fun e' he' => known e' (List.mem_cons_of_mem _ he')
    refine ⟨rest.sound, first.grows.trans rest.grows, rest.label, fun e' he' => ?_⟩
    rcases List.mem_cons.1 he' with rfl | later
    · obtain ⟨g, le, labelled⟩ := first.relaxed e' (List.mem_singleton_self _)
      obtain ⟨g', le', labelled'⟩ := rest.grows.label _ g labelled
      exact ⟨g', le'.trans le, labelled'⟩
    · exact rest.relaxed e' later

end Expand

/-! ## Pending entries -/

/-- The edges out of a node with this label are relaxed. -/
def Relaxed (out : V → List (V × W)) (s : Search V W) (v : V) (g : W) : Prop :=
  ∀ e ∈ out v, ∃ g' ≤ g + e.2, s.label e.1 = some g'

/-- A label has its entry in the heap, or the edges out of its node are relaxed; nodes in `final` are never
expanded. -/
def Pending (out : V → List (V × W)) (h : V → W) (final : V → Prop) (s : Search V W) : Prop :=
  ∀ v g, s.label v = some g → (g + h v, v) ∈ s.heap ∨ ¬final v ∧ Relaxed out s v g

/-- What every round keeps. -/
structure Inv (out : V → List (V × W)) (h : V → W) (a : V) (final : V → Prop) (s : Search V W) : Prop where
  sound : Sound out h a s
  pending : Pending out h final s

variable {final : V → Prop}

theorem inv_start (out : V → List (V × W)) (h : V → W) (a : V) (final : V → Prop) :
    Inv out h a final (.start h a) := by
  refine ⟨sound_start out h a, fun v g labelled => .inl ?_⟩
  by_cases same : v = a
  · subst same
    obtain rfl : 0 = g := by simpa [Search.start] using labelled
    simp [Search.start]
  · simp [Search.start, same] at labelled

omit [DecidableEq V] in
theorem Relaxed.grows {g : W} (relaxed : Relaxed out s v g) (grows : Grows h s s') : Relaxed out s' v g := by
  intro e he
  obtain ⟨g', le, labelled⟩ := relaxed e he
  obtain ⟨g'', le', labelled'⟩ := grows.label _ g' labelled
  exact ⟨g'', le'.trans le, labelled'⟩

/-- An entry that is out of date is not the one a label is waiting for. -/
theorem Inv.drop (inv : Inv out h a final s) {e : W × V} {g : W} (labelled : s.label e.2 = some g)
    (old : g + h e.2 < e.1) : Inv out h a final (s.take e) := by
  refine ⟨inv.sound.take e, fun v g' labelled' => (inv.pending v g' labelled').imp_left fun entry => ?_⟩
  refine (Multiset.mem_erase_of_ne ?_).2 entry
  rintro rfl
  obtain rfl : g' = g := Option.some.inj (labelled'.symm.trans labelled)
  exact absurd old (lt_irrefl _)

/-- A node is expanded when an entry for it is taken. -/
theorem Inv.expand [IsOrderedAddMonoid W] (weights : ∀ v, ∀ e ∈ out v, 0 ≤ e.2) (inv : Inv out h a final s)
    {e : W × V} (open_ : ¬final e.2) (labelled : s.label e.2 = some d) :
    Inv out h a final ((s.take e).expand h e.2 d (out e.2)) := by
  have done := expanded_expand weights (inv.sound.take e) labelled (out e.2) fun _ => id
  refine ⟨done.sound, fun v g labelled' => ?_⟩
  by_cases same : v = e.2
  · subst same
    obtain rfl : d = g := Option.some.inj (done.label.symm.trans labelled')
    exact .inr ⟨open_, done.relaxed⟩
  · rcases done.grows.changed v with kept | ⟨g', new, entry⟩
    · refine (inv.pending v g (kept.symm.trans labelled')).imp (fun entry => ?_) fun relaxed => ?_
      · exact done.grows.heap _ ((Multiset.mem_erase_of_ne fun eq => same (congrArg Prod.snd eq)).2 entry)
      · have taken : Relaxed out (s.take e) v g := relaxed.2
        exact ⟨relaxed.1, taken.grows done.grows⟩
    · obtain rfl : g' = g := Option.some.inj (new.symm.trans labelled')
      exact .inl entry

omit [DecidableEq V] in
/-- A walk from the start is no cheaper than the label at its end, or there is an entry for a node on it from
which the rest of the walk is cheap enough. -/
theorem Inv.frontier [IsOrderedAddMonoid W] (inv : Inv out h a final s) {x : W} (walk : Walk out a v x) :
    (∃ g ≤ x, s.label v = some g) ∨
      ∃ u g rest, s.label u = some g ∧ (g + h u, u) ∈ s.heap ∧ Walk out u v rest ∧ g + rest ≤ x := by
  induction walk with
  | here => exact .inl ⟨0, le_rfl, inv.sound.start⟩
  | @snoc b c x w _ edge ih =>
    rcases ih with ⟨g, le, labelled⟩ | ⟨u, g, rest, labelled, entry, walk, le⟩
    · rcases inv.pending b g labelled with entry | ⟨-, relaxed⟩
      · refine .inr ⟨b, g, w, labelled, entry, ?_, add_le_add_left le w⟩
        rw [← zero_add w]
        exact .snoc .here edge
      · obtain ⟨g', le', labelled'⟩ := relaxed _ edge
        exact .inl ⟨g', le'.trans (add_le_add_left le w), labelled'⟩
    · refine .inr ⟨u, g, rest + w, labelled, entry, .snoc walk edge, ?_⟩
      rw [← add_assoc]
      exact add_le_add_left le w

/-! ## Results -/

omit [DecidableEq V] in
/-- When the heap is empty every reached node has a label. -/
theorem Inv.labelled [IsOrderedAddMonoid W] (inv : Inv out h a final s) (empty : s.heap = 0) {x : W}
    (walk : Walk out a v x) : ∃ g ≤ x, s.label v = some g := by
  rcases inv.frontier walk with found | ⟨u, g, rest, -, entry, -⟩
  · exact found
  · rw [empty] at entry
    exact absurd entry (Multiset.notMem_zero _)

omit [DecidableEq V] in
/-- When the heap is empty the labels are the distances. -/
theorem Inv.isDistance [IsOrderedAddMonoid W] (inv : Inv out h a final s) (empty : s.heap = 0) {g : W}
    (labelled : s.label v = some g) : IsDistance out a v g := by
  refine ⟨inv.sound.walk v g labelled, fun x walk => ?_⟩
  obtain ⟨g', le, labelled'⟩ := inv.labelled empty walk
  obtain rfl : g = g' := Option.some.inj (labelled.symm.trans labelled')
  exact le

omit [DecidableEq V] in
/-- A node that is never expanded, and has no entry when the heap is empty, is not reached. -/
theorem Inv.not_walk [IsOrderedAddMonoid W] (inv : Inv out h a final s) (empty : s.heap = 0) (last : final v)
    (x : W) : ¬Walk out a v x := by
  intro walk
  obtain ⟨g, -, labelled⟩ := inv.labelled empty walk
  rcases inv.pending v g labelled with entry | ⟨open_, -⟩
  · rw [empty] at entry
    exact Multiset.notMem_zero _ entry
  · exact open_ last

omit [DecidableEq V] in
/-- When the entry of the least priority is one for the goal, the label of the goal is its distance, if the
priorities never overestimate. -/
theorem Inv.isDistance_of_least [IsOrderedAddMonoid W] (inv : Inv out h a final s) {goal : V} {g : W}
    {e : W × V} (entry : e ∈ s.heap) (here : e.2 = goal) (least : ∀ e' ∈ s.heap, e.1 ≤ e'.1)
    (nonneg : 0 ≤ h goal) (admissible : ∀ v x, Walk out v goal x → h v ≤ x)
    (labelled : s.label goal = some g) : IsDistance out a goal g := by
  refine ⟨inv.sound.walk goal g labelled, fun x walk => ?_⟩
  rcases inv.frontier walk with ⟨g', le, labelled'⟩ | ⟨u, gu, rest, -, pending, walk', le⟩
  · obtain rfl : g = g' := Option.some.inj (labelled.symm.trans labelled')
    exact le
  · obtain ⟨g', labelled', key⟩ := inv.sound.keys e entry
    rw [here] at labelled' key
    obtain rfl : g = g' := Option.some.inj (labelled.symm.trans labelled')
    calc g ≤ g + h goal := le_add_of_nonneg_right nonneg
      _ ≤ e.1 := key
      _ ≤ gu + h u := least _ pending
      _ ≤ gu + rest := add_le_add_right (admissible u rest walk') gu
      _ ≤ x := le

/-! ## The way back -/

/-- The nodes from this one to the goal are a path, and its cost and the label of the node are at most `g`. -/
def Traced (out : V → List (V × W)) (s : Search V W) (goal : V) (g : W) (v : V) (path : List V) : Prop :=
  ∃ x gv, PathBetween out v goal path x ∧ s.label v = some gv ∧ gv + x ≤ g

omit [DecidableEq V] in
theorem traced_goal {goal : V} {g : W} (labelled : s.label goal = some g) :
    Traced out s goal g goal [goal] :=
  ⟨0, g, pathBetween_singleton goal, labelled, (add_zero g).le⟩

omit [DecidableEq V] in
/-- One link back. -/
theorem Traced.link [IsOrderedAddMonoid W] (hs : Sound out h a s) {goal : V} {g : W} {path : List V}
    (traced : Traced out s goal g v path) (link : s.parent v = some u) :
    Traced out s goal g u (u :: path) := by
  obtain ⟨x, gv, isPath, labelled, le⟩ := traced
  obtain ⟨gu, gv', w, labelU, labelV, edge, sum⟩ := hs.parent v u link
  obtain rfl : gv = gv' := Option.some.inj (labelled.symm.trans labelV)
  refine ⟨w + x, gu, isPath.cons edge, labelU, ?_⟩
  rw [← add_assoc]
  exact (add_le_add_left sum x).trans le

omit [DecidableEq V] in
/-- Back at the start, the path has the cost that the goal is labelled with if that is the distance. -/
theorem Traced.path [IsOrderedAddMonoid W] (hs : Sound out h a s) {goal : V} {g : W} {path : List V}
    (traced : Traced out s goal g a path) (best : IsDistance out a goal g) : PathBetween out a goal path g := by
  obtain ⟨x, ga, isPath, labelled, le⟩ := traced
  obtain rfl : 0 = ga := Option.some.inj (hs.start.symm.trans labelled)
  rw [zero_add] at le
  rwa [le.antisymm (best.2 x isPath.walk)] at isPath

/-! ## Termination -/

section Termination

variable (nodes : Finset V) (S : AddSubmonoid W)

/-- The unlabelled nodes, the sum of the labels, and the entries. -/
def size (s : Search V W) : ℕ × W × ℕ :=
  ((nodes.filter fun v => s.label v = none).card, ∑ v ∈ nodes, (s.label v).getD 0, s.heap.card)

/-- Fewer unlabelled nodes; or as many and a smaller sum; or the same sum and fewer entries. -/
def down : ℕ × W × ℕ → ℕ × W × ℕ → Prop :=
  Prod.Lex (· < ·) (Prod.Lex (fun x y => x < y ∧ x ∈ S ∧ y ∈ S) (· < ·))

variable {S} in
theorem wellFounded_down (wf : (S : Set W).IsWF) : WellFounded (down S) :=
  WellFounded.prod_lex wellFounded_lt (WellFounded.prod_lex (Set.wellFoundedOn_iff.1 wf) wellFounded_lt)

/-- Fewer unlabelled nodes, or as many and a smaller sum. -/
def Lower (s' s : Search V W) : Prop :=
  (size nodes s').1 < (size nodes s).1 ∨
    (size nodes s').1 = (size nodes s).1 ∧ (size nodes s').2.1 < (size nodes s).2.1

variable {nodes S}

omit [DecidableEq V] in
theorem Lower.trans (second : Lower nodes s'' s') (first : Lower nodes s' s) : Lower nodes s'' s := by
  rcases second with fewer | ⟨same, less⟩
  · rcases first with fewer' | ⟨same', -⟩
    · exact .inl (fewer.trans fewer')
    · exact .inl (same' ▸ fewer)
  · rcases first with fewer' | ⟨same', less'⟩
    · exact .inl (same ▸ fewer')
    · exact .inr ⟨same.trans same', less.trans less'⟩

theorem lower_improve [IsOrderedCancelAddMonoid W] (mem : b ∈ nodes) {new : W}
    (better : ∀ old ∈ s.label b, new < old) : Lower nodes (s.improve h u b new) s := by
  have keepLabel : ∀ v, v ≠ b → (s.improve h u b new).label v = s.label v :=
    fun v hv => Function.update_of_ne hv ..
  have newLabel : (s.improve h u b new).label b = some new := Function.update_self ..
  cases before : s.label b with
  | none =>
    refine .inl (Finset.card_lt_card (Finset.ssubset_iff_subset_ne.2 ⟨fun v hv => ?_, fun same => ?_⟩))
    · obtain ⟨hv, none⟩ := Finset.mem_filter.1 hv
      by_cases same : v = b
      · exact Finset.mem_filter.2 ⟨hv, same ▸ before⟩
      · exact Finset.mem_filter.2 ⟨hv, (keepLabel v same).symm.trans none⟩
    · have there : b ∈ nodes.filter fun v => s.label v = none := Finset.mem_filter.2 ⟨mem, before⟩
      rw [← same] at there
      have none := (Finset.mem_filter.1 there).2
      rw [newLabel] at none
      cases none
  | some old =>
    refine .inr ⟨congrArg Finset.card (Finset.filter_congr fun v _ => ?_), ?_⟩
    · by_cases same : v = b
      · subst same
        simp [newLabel, before]
      · rw [keepLabel v same]
    · refine Finset.sum_lt_sum (fun v _ => ?_) ⟨b, mem, ?_⟩
      · by_cases same : v = b
        · subst same
          rw [newLabel, before]
          exact (better old before).le
        · rw [keepLabel v same]
      · rw [newLabel, before]
        exact better old before

theorem lower_expand [IsOrderedCancelAddMonoid W] (edges : List (V × W)) (mem : ∀ e ∈ edges, e.1 ∈ nodes) :
    s.expand h u d edges = s ∨ Lower nodes (s.expand h u d edges) s := by
  induction edges generalizing s with
  | nil => exact .inl rfl
  | cons e edges ih =>
    have first : s.relax h u d e = s ∨ Lower nodes (s.relax h u d e) s := by
      unfold relax
      split_ifs with better
      · exact .inr (lower_improve (mem e List.mem_cons_self) better)
      · exact .inl rfl
    have rest := @ih (s.relax h u d e) fun e' he' => mem e' (List.mem_cons_of_mem _ he')
    have whole : s.expand h u d (e :: edges) = (s.relax h u d e).expand h u d edges := rfl
    rw [whole]
    rcases first with same | lower
    · rw [same] at rest ⊢
      exact rest
    · rcases rest with same' | lower'
      · exact .inr (by rwa [same'])
      · exact .inr (lower'.trans lower)

omit [DecidableEq V] in
/-- The sum of the labels is in a submonoid that has all weights. -/
theorem Sound.sum_mem (hs : Sound out h a s) (weights : ∀ v, ∀ e ∈ out v, e.2 ∈ S) :
    (size nodes s).2.1 ∈ S := by
  refine S.sum_mem fun v _ => ?_
  cases labelled : s.label v with
  | none => exact S.zero_mem
  | some g => exact (hs.walk v g labelled).cost_mem weights

/-- Dropping an entry leads down. -/
theorem down_take {e : W × V} (entry : e ∈ s.heap) : down S (size nodes (s.take e)) (size nodes s) :=
  Prod.Lex.right _ (Prod.Lex.right _ (Multiset.card_erase_lt_of_mem entry))

/-- Expanding a node leads down. -/
theorem down_expand [IsOrderedCancelAddMonoid W] {e : W × V} (entry : e ∈ s.heap) (before : Sound out h a s)
    (after : Sound out h a ((s.take e).expand h u d (out u))) (weights : ∀ v, ∀ e ∈ out v, e.2 ∈ S)
    (mem : ∀ e ∈ out u, e.1 ∈ nodes) :
    down S (size nodes ((s.take e).expand h u d (out u))) (size nodes s) := by
  have sums : (size nodes ((s.take e).expand h u d (out u))).2.1 ∈ S := after.sum_mem weights
  have sums' : (size nodes s).2.1 ∈ S := before.sum_mem weights
  rcases lower_expand (out u) mem with same | fewer | ⟨same, less⟩
  · rw [same]
    exact down_take entry
  · exact Prod.Lex.left _ _ fewer
  · exact Prod.lex_iff.2 (.inr ⟨same, Prod.Lex.left _ _ ⟨less, sums, sums'⟩⟩)

end Termination

end LabelCorrecting
