import Mathlib.Data.List.Lex
import Mathlib.Data.Prod.Lex
import TORdex.Lib.LabelCorrecting

/-!
# Best-first search

A label-correcting search that always takes a least entry, by the priority and then by the node, and stops when
that is one for the goal.  The priority is the label of the node plus an estimate, of which nothing is assumed.

The keys of a walk are the entries that there would be for its nodes.  The search finds the walk whose greatest
key is least; among walks with the same greatest key, the one whose greatest key after that is least; and so on.
So the cost that it finds is the distance exactly if a walk of least cost comes first in this order.
-/

namespace BestFirst

open WeightedWalks LabelCorrecting

/-! ## Records -/

section Records

variable {K : Type*} [LinearOrder K] {k r : K} {ks rs : List K}

theorem nil_le (rs : List K) : [] ≤ rs := not_lt.1 (List.not_lt_nil rs)

theorem cons_le {r' : K} {rs' : List K} (le : r ≤ r') (rest : r = r' → rs ≤ rs') : r :: rs ≤ r' :: rs' := by
  rcases le.lt_or_eq with lt | rfl
  · exact (List.cons_lt_cons_iff.2 (.inl lt)).le
  · exact List.cons_le_cons r (rest rfl)

/-- The keys that are greater than all later ones. -/
def records : List K → List K
  | [] => []
  | k :: ks => match records ks with
    | [] => [k]
    | r :: rs => if r < k then k :: r :: rs else r :: rs

theorem records_cons (ks : List K) (k : K) : ∃ r rs, records (k :: ks) = r :: rs ∧ ∀ x ∈ k :: ks, x ≤ r := by
  induction ks generalizing k with
  | nil => exact ⟨k, [], rfl, fun x hx => (List.mem_singleton.1 hx).le⟩
  | cons k' ks ih =>
    obtain ⟨r, rs, eq, greatest⟩ := ih k'
    rw [records, eq]
    by_cases greater : r < k
    · refine ⟨k, r :: rs, if_pos greater, fun x hx => ?_⟩
      rcases List.mem_cons.1 hx with rfl | hx
      · exact le_rfl
      · exact (greatest x hx).trans greater.le
    · refine ⟨r, rs, if_neg greater, fun x hx => ?_⟩
      rcases List.mem_cons.1 hx with rfl | hx
      · exact not_lt.1 greater
      · exact greatest x hx

/-- The first record is the greatest key. -/
theorem le_record (mem : k ∈ ks) : ∃ r rs, records ks = r :: rs ∧ k ≤ r := by
  cases ks with
  | nil => exact absurd mem List.not_mem_nil
  | cons k' ks =>
    obtain ⟨r, rs, eq, greatest⟩ := records_cons ks k'
    exact ⟨r, rs, eq, greatest k mem⟩

/-- The later records are those of the keys after the greatest one. -/
theorem exists_after (h : records ks = r :: rs) : ∃ before after, ks = before ++ r :: after ∧ records after = rs := by
  induction ks with
  | nil => cases h
  | cons k ks ih =>
    rw [records] at h
    split at h
    · rename_i none
      obtain ⟨rfl, rfl⟩ := List.cons.inj h
      exact ⟨[], ks, rfl, none⟩
    · rename_i r' rs' eq
      split_ifs at h
      · obtain ⟨rfl, rfl⟩ := List.cons.inj h
        exact ⟨[], ks, rfl, eq⟩
      · rw [h] at eq
        obtain ⟨before, after, rfl, later⟩ := ih eq
        exact ⟨k :: before, after, rfl, later⟩

/-- The last key is the last record. -/
theorem getLast?_records (ks : List K) : (records ks).getLast? = ks.getLast? := by
  induction ks with
  | nil => rfl
  | cons k ks ih =>
    rw [records]
    split
    · rename_i none
      cases ks with
      | nil => rfl
      | cons k' ks =>
        obtain ⟨r, rs, eq, -⟩ := records_cons ks k'
        rw [none] at eq
        cases eq
    · rename_i r rs eq
      have later : (r :: rs).getLast? = (k :: ks).getLast? := by
        rw [← eq, ih]
        cases ks with
        | nil => cases eq
        | cons k' ks => exact (List.getLast?_cons_cons ..).symm
      split_ifs
      · exact (List.getLast?_cons_cons ..).trans later
      · exact later

end Records

/-! ## Trails -/

variable {V W : Type*} [AddCommMonoid W]

/-- The entry for a node with a label, in the order in which entries are taken. -/
def key (h : V → W) (v : V) (g : W) : W ×ₗ V := toLex (g + h v, v)

theorem key_inj {W : Type*} [AddCommMonoid W] [IsCancelAdd W] {h : V → W} {u v : V} {g g' : W}
    (same : key h u g = key h v g') : u = v ∧ g = g' := by
  obtain ⟨sum, node⟩ := Prod.mk.inj (toLex.injective same)
  subst node
  exact ⟨rfl, add_right_cancel sum⟩

/-- A walk from a node with a label to the goal with another, and the keys of the nodes after the first. -/
inductive Trail (out : V → List (V × W)) (h : V → W) (goal : V) (c : W) : V → W → List (W ×ₗ V) → Prop
  | here : Trail out h goal c goal c []
  | step {u x b w ks} (edge : (b, w) ∈ out u) (rest : Trail out h goal c b (x + w) ks) :
    Trail out h goal c u x (key h b (x + w) :: ks)

variable {out : V → List (V × W)} {h : V → W} {a b u goal : V} {c w x : W} {ks : List (W ×ₗ V)}

theorem Trail.walk (trail : Trail out h goal c u x ks) : ∃ y, Walk out u goal y ∧ x + y = c := by
  induction trail with
  | here => exact ⟨0, .here, add_zero c⟩
  | step edge _ ih =>
    obtain ⟨y, walk, sum⟩ := ih
    exact ⟨_, walk.cons edge, by rw [← add_assoc, sum]⟩

theorem Trail.snoc (trail : Trail out h b c u x ks) (edge : (goal, w) ∈ out b) :
    Trail out h goal (c + w) u x (ks ++ [key h goal (c + w)]) := by
  induction trail with
  | here => exact .step edge .here
  | step first _ ih => exact .step first ih

theorem exists_trail (x : W) (walk : Walk out u goal w) : ∃ ks, Trail out h goal (x + w) u x ks := by
  induction walk with
  | here => exact ⟨[], by rw [add_zero]; exact .here⟩
  | snoc _ edge ih =>
    obtain ⟨ks, trail⟩ := ih
    exact ⟨_, by rw [← add_assoc]; exact trail.snoc edge⟩

/-- The rest of a trail after one of its keys. -/
theorem Trail.after {before after : List (W ×ₗ V)} {k : W ×ₗ V}
    (trail : Trail out h goal c u x (before ++ k :: after)) :
    ∃ v g, k = key h v g ∧ Trail out h goal c v g after := by
  induction before generalizing u x with
  | nil =>
    cases trail with
    | step edge rest => exact ⟨_, _, rfl, rest⟩
  | cons k' before ih =>
    cases trail with
    | step edge rest => exact ih rest

/-- The last key of a trail is that of the goal. -/
theorem Trail.getLast? (trail : Trail out h goal c u x ks) (ne : ks ≠ []) :
    ks.getLast? = some (key h goal c) := by
  induction trail with
  | here => exact absurd rfl ne
  | @step _ _ b w ks _ rest ih =>
    cases ks with
    | nil =>
      cases rest
      rfl
    | cons k ks => exact (List.getLast?_cons_cons ..).trans (ih (List.cons_ne_nil _ _))

/-! ## The search -/

variable [LinearOrder V] [LinearOrder W]

/-- Some walk of least cost comes before all walks that cost more. -/
def Favoured (out : V → List (V × W)) (h : V → W) (a goal : V) : Prop :=
  ∃ c ks, Trail out h goal c a 0 ks ∧
    ∀ c' ks', Trail out h goal c' a 0 ks' → c ≤ c' ∧ (c < c' → records ks < records ks')

/-- The search takes a least entry, again and again, until it is one for the goal, and then has found the cost that
the goal is labelled with. -/
inductive Finds (out : V → List (V × W)) (h : V → W) (goal : V) : Search V W → W → Prop
  | goal {s e c} (entry : e ∈ s.heap) (least : ∀ e' ∈ s.heap, toLex e ≤ toLex e') (here : e.2 = goal)
    (labelled : s.label goal = some c) : Finds out h goal s c
  | expand {s e d c} (entry : e ∈ s.heap) (least : ∀ e' ∈ s.heap, toLex e ≤ toLex e') (other : e.2 ≠ goal)
    (labelled : s.label e.2 = some d) (rest : Finds out h goal ((s.take e).expand h e.2 d (out e.2)) c) :
    Finds out h goal s c

/-- `done` are the nodes that have been expanded, each with the labels that it had then. -/
structure Explored (out : V → List (V × W)) (h : V → W) (a goal : V) (done : Set (V × W)) (s : Search V W) :
    Prop where
  sound : Sound out h a s
  relaxed : ∀ p ∈ done, Relaxed out s p.1 p.2
  pending : ∀ v g, s.label v = some g → (g + h v, v) ∈ s.heap ∨ (v, g) ∈ done
  entered : ∀ v g, s.label v = some g → v = a ∧ g = 0 ∨ ∃ p ∈ done, ∃ w, (v, w) ∈ out p.1 ∧ p.2 + w = g
  unexpanded : ∀ g, (goal, g) ∉ done

variable {v : V} {d : W} {done : Set (V × W)} {s : Search V W}

/-- An expansion changes labels along the edges out of the node. -/
theorem label_expand (edges : List (V × W)) :
    (s.expand h u d edges).label v = s.label v ∨
      ∃ w, (v, w) ∈ edges ∧ (s.expand h u d edges).label v = some (d + w) := by
  induction edges generalizing s with
  | nil => exact .inl rfl
  | cons e edges ih =>
    have first : (s.relax h u d e).label v = s.label v ∨
        v = e.1 ∧ (s.relax h u d e).label v = some (d + e.2) := by
      unfold Search.relax
      split_ifs
      · by_cases same : v = e.1
        · exact .inr ⟨same, by rw [same]; exact Function.update_self ..⟩
        · exact .inl (Function.update_of_ne same ..)
      · exact .inl rfl
    have whole : s.expand h u d (e :: edges) = (s.relax h u d e).expand h u d edges := rfl
    rw [whole]
    rcases ih (s := s.relax h u d e) with kept | ⟨w, edge, labelled⟩
    · rw [kept]
      refine first.imp_right fun ⟨same, labelled⟩ => ⟨e.2, ?_, labelled⟩
      rw [same]
      exact List.mem_cons_self
    · exact .inr ⟨w, List.mem_cons_of_mem _ edge, labelled⟩

theorem explored_start (out : V → List (V × W)) (h : V → W) (a goal : V) :
    Explored out h a goal ∅ (.start h a) where
  sound := sound_start out h a
  relaxed _ mem := absurd mem (Set.notMem_empty _)
  pending v g labelled := ((inv_start out h a fun _ => True).pending v g labelled).imp_right
    fun never => absurd trivial never.1
  entered v g labelled := by
    by_cases same : v = a
    · subst same
      exact .inl ⟨rfl, by simpa [Search.start, eq_comm] using labelled⟩
    · simp [Search.start, same] at labelled
  unexpanded _ := Set.notMem_empty _

section Ordered

variable [IsOrderedAddMonoid W]

/-- On every trail that goes on from an expanded node there is a key no less than an entry in the heap. -/
theorem Explored.frontier (inv : Explored out h a goal done s) (trail : Trail out h goal c u x ks) {g : W}
    (mem : (u, g) ∈ done) (le : g ≤ x) : ∃ e ∈ s.heap, ∃ k ∈ ks, toLex e ≤ k := by
  induction trail generalizing g with
  | here => exact absurd mem (inv.unexpanded g)
  | @step u x b w ks edge _ ih =>
    obtain ⟨g', le', labelled⟩ := inv.relaxed _ mem _ edge
    have lower : g' ≤ x + w := le'.trans (add_le_add_left le w)
    rcases inv.pending b g' labelled with entry | there
    · refine ⟨_, entry, _, List.mem_cons_self, ?_⟩
      exact Prod.Lex.toLex_le_toLex'.2 ⟨add_le_add_left lower _, fun _ => le_rfl⟩
    · obtain ⟨e, he, k, hk, below⟩ := ih there lower
      exact ⟨e, he, k, List.mem_cons_of_mem _ hk, below⟩

theorem Explored.expand (weights : ∀ v, ∀ e ∈ out v, 0 ≤ e.2) (inv : Explored out h a goal done s)
    {e : W × V} (other : e.2 ≠ goal)
    (labelled : s.label e.2 = some d) :
    Explored out h a goal (insert (e.2, d) done) ((s.take e).expand h e.2 d (out e.2)) := by
  have expanded := expanded_expand weights (inv.sound.take e) labelled (out e.2) fun _ => id
  refine ⟨expanded.sound, ?_, fun v g labelled' => ?_, fun v g labelled' => ?_, fun g mem => ?_⟩
  · rintro p (rfl | mem)
    · exact expanded.relaxed
    · have before : Relaxed out (s.take e) p.1 p.2 := inv.relaxed p mem
      exact before.grows expanded.grows
  · by_cases same : v = e.2
    · subst same
      obtain rfl : d = g := Option.some.inj (expanded.label.symm.trans labelled')
      exact .inr (Set.mem_insert _ _)
    · rcases expanded.grows.changed v with kept | ⟨g', new, entry⟩
      · refine (inv.pending v g (kept.symm.trans labelled')).imp (fun entry => ?_) (Set.mem_insert_of_mem _)
        exact expanded.grows.heap _ ((Multiset.mem_erase_of_ne fun eq => same (congrArg Prod.snd eq)).2 entry)
      · obtain rfl : g' = g := Option.some.inj (new.symm.trans labelled')
        exact .inl entry
  · rcases label_expand (s := s.take e) (h := h) (u := e.2) (d := d) (v := v) (out e.2) with kept | ⟨w, edge, new⟩
    · refine (inv.entered v g (kept.symm.trans labelled')).imp_right fun ⟨p, mem, rest⟩ => ?_
      exact ⟨p, Set.mem_insert_of_mem _ mem, rest⟩
    · exact .inr ⟨_, Set.mem_insert _ _, w, edge, Option.some.inj (new.symm.trans labelled')⟩
  · rcases mem with eq | mem
    · exact other (congrArg Prod.fst eq).symm
    · exact inv.unexpanded g mem

end Ordered

/-! ## What is found -/

/-- An entry that is least has the key of its node, unless the node has been expanded with its label. -/
theorem Explored.key_of_least (inv : Explored out h a goal done s) {e : W × V} (entry : e ∈ s.heap)
    (least : ∀ e' ∈ s.heap, toLex e ≤ toLex e') (labelled : s.label e.2 = some d) (unexpanded : (e.2, d) ∉ done) :
    toLex e = key h e.2 d := by
  obtain ⟨d', labelled', le⟩ := inv.sound.keys e entry
  obtain rfl : d = d' := Option.some.inj (labelled.symm.trans labelled')
  have entry' := (inv.pending e.2 d labelled).resolve_right unexpanded
  refine le_antisymm (least _ entry') (Prod.Lex.toLex_le_toLex'.2 ⟨le, fun _ => le_rfl⟩)

section Least

variable {W : Type*} [AddCommMonoid W] [LinearOrder W] [IsOrderedCancelAddMonoid W] {out : V → List (V × W)}
  {h : V → W} {c : W} {done : Set (V × W)} {s : Search V W}

/-- The walk that is found: no trail from an expanded node has smaller records. -/
theorem Finds.least (weights : ∀ v, ∀ e ∈ out v, 0 ≤ e.2) (found : Finds out h goal s c)
    (inv : Explored out h a goal done s) (started : (a, 0) ∈ done) :
    ∃ p ∈ done, ∃ ks, Trail out h goal c p.1 p.2 ks ∧
      ∀ q ∈ done, ∀ c' ks', Trail out h goal c' q.1 q.2 ks' → records ks ≤ records ks' := by
  induction found generalizing done with
  | @goal s e c entry least here labelled =>
    subst here
    have smallest := inv.key_of_least entry least labelled (inv.unexpanded c)
    rcases inv.entered e.2 c labelled with ⟨rfl, rfl⟩ | ⟨p, mem, w, edge, rfl⟩
    · exact absurd started (inv.unexpanded 0)
    · refine ⟨p, mem, [key h e.2 (p.2 + w)], .step edge .here, fun q hq c' ks' trail => ?_⟩
      obtain ⟨e', he', k, hk, below⟩ := inv.frontier trail hq le_rfl
      obtain ⟨r, rs, eq, above⟩ := le_record hk
      have le : key h e.2 (p.2 + w) ≤ r := by
        rw [← smallest]
        exact (least e' he').trans (below.trans above)
      rw [eq]
      exact cons_le le fun _ => nil_le rs
  | @expand s e d c entry least other labelled rest ih =>
    obtain ⟨p, mem, ks, trail, first⟩ := ih (inv.expand weights other labelled) (Set.mem_insert_of_mem _ started)
    have before : ∀ q ∈ done, ∀ c' ks', Trail out h goal c' q.1 q.2 ks' → records ks ≤ records ks' :=
      fun q hq => first q (Set.mem_insert_of_mem _ hq)
    by_cases again : (e.2, d) ∈ done
    · rw [Set.insert_eq_of_mem again] at mem
      exact ⟨p, mem, ks, trail, before⟩
    rcases mem with rfl | mem
    · -- the walk goes on from the node that has just been expanded
      have smallest := inv.key_of_least entry least labelled again
      rcases inv.entered e.2 d labelled with ⟨start, rfl⟩ | ⟨p, mem, w, edge, rfl⟩
      · rw [start] at again
        exact absurd started again
      refine ⟨p, mem, key h e.2 (p.2 + w) :: ks, .step edge trail, fun q hq c' ks' trail' => ?_⟩
      cases ks with
      | nil =>
        cases trail
        exact absurd rfl other
      | cons k ks =>
        obtain ⟨r, rs, eq, -⟩ := records_cons ks k
        have unfolded : records (key h e.2 (p.2 + w) :: k :: ks) =
            if r < key h e.2 (p.2 + w) then key h e.2 (p.2 + w) :: r :: rs else r :: rs := by
          rw [records, eq]
        rw [unfolded]
        split_ifs with record
        · obtain ⟨e', he', k', hk', below⟩ := inv.frontier trail' hq le_rfl
          obtain ⟨r', rs', eq', above⟩ := le_record hk'
          have le : key h e.2 (p.2 + w) ≤ r' := by
            rw [← smallest]
            exact (least e' he').trans (below.trans above)
          rw [eq']
          refine cons_le le fun same => ?_
          -- the other trail passes the same node with the same label
          obtain ⟨passed, after, rfl, later⟩ := exists_after eq'
          obtain ⟨v, g, here, rest'⟩ := trail'.after
          obtain ⟨rfl, rfl⟩ := key_inj (same.trans here)
          rw [← eq, ← later]
          exact first _ (Set.mem_insert _ _) c' after rest'
        · rw [← eq]
          exact before q hq c' ks' trail'
    · exact ⟨p, mem, ks, trail, before⟩

/-- The walk that is found from the start. -/
theorem Finds.least_start (weights : ∀ v, ∀ e ∈ out v, 0 ≤ e.2) (found : Finds out h goal (.start h a) c) :
    ∃ ks, Trail out h goal c a 0 ks ∧ ∀ c' ks', Trail out h goal c' a 0 ks' → records ks ≤ records ks' := by
  have start : (Search.start h a).label a = some 0 := by simp [Search.start]
  have first : ∀ e ∈ (Search.start h a).heap, e.2 = a := fun e he => by
    rw [Search.start, Multiset.mem_singleton] at he
    rw [he]
  cases found with
  | goal entry least here labelled =>
    obtain rfl := (first _ entry).symm.trans here
    obtain rfl := Option.some.inj (start.symm.trans labelled)
    exact ⟨[], .here, fun c' ks' _ => nil_le _⟩
  | @expand _ e d _ entry least other labelled rest =>
    have node := first e entry
    have inv := (explored_start out h a goal).expand weights other labelled
    rw [node] at labelled inv rest
    obtain rfl := Option.some.inj (start.symm.trans labelled)
    obtain ⟨p, rfl | mem, ks, trail, before⟩ := rest.least weights inv (Set.mem_insert _ _)
    · exact ⟨ks, trail, fun c' ks' trail' => before _ (Set.mem_insert _ _) c' ks' trail'⟩
    · exact absurd mem (Set.notMem_empty _)

/-- **What is found is the distance** exactly if some walk of least cost comes before all walks that cost more. -/
theorem Finds.isDistance_iff (weights : ∀ v, ∀ e ∈ out v, 0 ≤ e.2) (found : Finds out h goal (.start h a) c) :
    IsDistance out a goal c ↔ Favoured out h a goal := by
  obtain ⟨ks, trail, first⟩ := found.least_start weights
  constructor
  · intro best
    refine ⟨c, ks, trail, fun c' ks' trail' => ⟨?_, fun more => ?_⟩⟩
    · obtain ⟨y, walk, sum⟩ := trail'.walk
      rw [zero_add] at sum
      exact best.2 c' (sum ▸ walk)
    · refine lt_of_le_of_ne (first c' ks' trail') fun same => ?_
      have last := congrArg List.getLast? same
      rw [getLast?_records, getLast?_records] at last
      by_cases none : ks = []
      · rw [none] at last trail
        have none' : ks' = [] := List.getLast?_eq_none_iff.1 last.symm
        rw [none'] at trail'
        cases trail
        cases trail'
        exact lt_irrefl _ more
      · have some := trail.getLast? none
        have none' : ks' ≠ [] := by
          rintro rfl
          rw [some] at last
          cases last
        rw [some, trail'.getLast? none'] at last
        exact more.ne (key_inj (Option.some.inj last)).2
  · rintro ⟨c', ks', trail', least⟩
    obtain rfl : c' = c := by
      by_contra ne
      have records := (least c ks trail).2 (lt_of_le_of_ne (least c ks trail).1 ne)
      exact absurd (first c' ks' trail') (not_le.2 records)
    obtain ⟨y, walk, sum⟩ := trail.walk
    rw [zero_add] at sum
    refine ⟨sum ▸ walk, fun y' walk' => ?_⟩
    obtain ⟨ks'', trail''⟩ := exists_trail (h := h) 0 walk'
    have le := (least _ ks'' trail'').1
    rwa [zero_add] at le

end Least

end BestFirst
