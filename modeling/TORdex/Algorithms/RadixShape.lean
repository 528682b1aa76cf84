import TORdex.Algorithms.RadixSet

/-!
# The shape of a radix tree

An empty edge leads to a leaf, and it stands only below the node of a key.  No text leads to two children.
-/

namespace TORdex

open ByteOffsets Utf8

namespace RadixNode

/-- The first bytes of the edges. -/
def firstBytes (children : List RadixNode) : List (Option UInt8) := children.map fun c => firstByte c.pfx

/-- No text leads to two children. -/
def Apart (children : List RadixNode) : Prop := (firstBytes children).Pairwise fun a b => a = b → a = none

/-- A tree whose empty edges are below texts of a set. -/
inductive Shaped : (List Char → Prop) → RadixNode → Prop
  | node {K : List Char → Prop} {pfx : List Char} {children : List RadixNode} {isEnd : Bool}
    {value : Option String}
    (empties : ∀ c ∈ children, c.pfx = [] → c.isEnd = true ∧ c.children = [] ∧ pfx ≠ [] ∧ K pfx)
    (apart : Apart children)
    (below : ∀ c ∈ children, Shaped (fun s => K (pfx ++ s)) c) : Shaped K ⟨pfx, children, isEnd, value⟩

section Shape

variable {K K' : List Char → Prop} {pfx u p k key s : List Char} {children children' : List RadixNode}
  {isEnd : Bool} {value old : Option String} {t t' child : RadixNode}

theorem Shaped.mono (h : Shaped K t) (sub : ∀ s, K s → K' s) : Shaped K' t := by
  induction t using induct generalizing K K' with
  | node pfx children isEnd value ih =>
    cases h with
    | node empties apart below =>
      refine .node (fun c hc empty => ?_) apart fun c hc => ih c hc (below c hc) fun s => sub _
      obtain ⟨last, leaf, some, key⟩ := empties c hc empty
      exact ⟨last, leaf, some, sub _ key⟩

theorem shaped_leaf (pfx : List Char) (value : Option String) : Shaped K (leaf pfx value) :=
  .node (by simp) .nil (by simp)

/-- The part of a node behind a cut. -/
theorem Shaped.drop (h : Shaped K ⟨u ++ p, children, isEnd, value⟩) (hp : p ≠ []) :
    Shaped (fun s => K (u ++ s)) ⟨p, children, isEnd, value⟩ := by
  cases h with
  | node empties apart below =>
    refine .node (fun c hc empty => ?_) apart fun c hc => ?_
    · obtain ⟨last, leaf, -, key⟩ := empties c hc empty
      exact ⟨last, leaf, hp, key⟩
    · exact (below c hc).mono fun s hs => by rwa [← List.append_assoc]

/-- An insertion into the children changes the first child to which the key leads, or adds a leaf. -/
theorem insertChild_cases (h : insertChild children k value = some children') :
    (children' = children ++ [leaf k value] ∧ ∀ c ∈ children, ¬ Leads k c) ∨
      ∃ xs c c' ys, children = xs ++ c :: ys ∧ children' = xs ++ c' :: ys ∧ Leads k c ∧
        c.insert k value = some c' ∧
        firstByte c'.pfx = firstByte c.pfx := by
  induction children generalizing children' with
  | nil =>
    cases h
    exact Or.inl ⟨rfl, by simp⟩
  | cons child children ih =>
    rw [insertChild] at h
    split_ifs at h with leads
    · obtain ⟨child', inserted, same⟩ := Option.bind_eq_some_iff.1 h
      cases same
      have spec : Inserted child k (child.insert k value) := inserted_insert _ _ (Or.inr leads)
      rw [inserted] at spec
      exact Or.inr ⟨[], child, child', children, rfl, rfl, leads, inserted, spec.2.2⟩
    · obtain ⟨rest, inserted, same⟩ := Option.bind_eq_some_iff.1 h
      cases same
      rcases ih inserted with ⟨rfl, others⟩ | ⟨xs, c, c', ys, rfl, rfl, leads, changed, first⟩
      · exact Or.inl ⟨rfl, List.forall_mem_cons.2 ⟨leads, others⟩⟩
      · exact Or.inr ⟨child :: xs, c, c', ys, rfl, rfl, leads, changed, first⟩

theorem Apart.insertChild (apart : Apart children) (h : insertChild children k value = some children') :
    Apart children' := by
  rcases insertChild_cases h with ⟨rfl, others⟩ | ⟨xs, c, c', ys, rfl, rfl, -, -, first⟩
  · rw [Apart, firstBytes, List.map_append]
    refine List.pairwise_append.2 ⟨apart, List.pairwise_singleton _ _, fun a ha b hb same => ?_⟩
    obtain ⟨c, hc, rfl⟩ := List.mem_map.1 ha
    rw [List.mem_singleton.1 hb] at same
    by_contra some
    exact others c hc ⟨fun empty => some (by rw [empty, firstByte_nil]), same⟩
  · have same : firstBytes (xs ++ c' :: ys) = firstBytes (xs ++ c :: ys) := by simp [firstBytes, first]
    rwa [Apart, same]

/-- No edge of the children becomes empty. -/
theorem mem_of_mem_insertChild (hk : k ≠ []) (h : insertChild children k value = some children')
    (hc : child ∈ children') (empty : child.pfx = []) : child ∈ children := by
  rcases insertChild_cases h with ⟨rfl, -⟩ | ⟨xs, c, c', ys, rfl, rfl, leads, -, first⟩
  · rcases List.mem_append.1 hc with hc | hc
    · exact hc
    · rw [List.mem_singleton.1 hc] at empty
      exact absurd empty hk
  · rcases List.mem_append.1 hc with hc | hc
    · exact List.mem_append_left _ hc
    · rcases List.mem_cons.1 hc with rfl | hc
      · rw [empty, firstByte_nil] at first
        exact absurd (firstByte_eq_none_iff.1 first.symm) leads.1
      · exact List.mem_append_right _ (List.mem_cons_of_mem _ hc)

theorem shaped_insertChild
    (ih : ∀ child ∈ children, ∀ child', Leads k child → child.insert k value = some child' → Shaped K child')
    (below : ∀ c ∈ children, Shaped K c) (h : insertChild children k value = some children') :
    ∀ c ∈ children', Shaped K c := by
  intro d hd
  rcases insertChild_cases h with ⟨rfl, -⟩ | ⟨xs, c, c', ys, rfl, rfl, leads, changed, -⟩
  · rcases List.mem_append.1 hd with hd | hd
    · exact below d hd
    · exact List.mem_singleton.1 hd ▸ shaped_leaf k value
  · rcases List.mem_append.1 hd with hd | hd
    · exact below d (List.mem_append_left _ hd)
    · rcases List.mem_cons.1 hd with rfl | hd
      · exact ih c (by simp) d leads changed
      · exact below d (List.mem_append_right _ (List.mem_cons_of_mem _ hd))

/-- An insertion keeps the shape, with its key in the set. -/
theorem Shaped.insert (shaped : Shaped K t) (leads : t.pfx = [] ∨ Leads key t)
    (h : t.insert key value = some t') :
    Shaped (fun s => K s ∨ s = key) t' := by
  induction t using induct generalizing K key t' with
  | node pfx children isEnd old ih =>
    obtain ⟨u, p, k, rfl, rfl, parted⟩ := exists_common pfx key
    have wider : ∀ s, K s → K s ∨ s = u ++ k := fun s => Or.inl
    cases p with
    | nil =>
      rw [List.append_nil] at h shaped
      cases shaped with
      | node empties apart below =>
        by_cases hk : k = []
        · rw [hk, List.append_nil, insert_whole] at h
          cases h
          exact (Shaped.node empties apart below).mono wider
        · rw [insert_through (by simp [hk]), if_neg hk] at h
          obtain ⟨children', inserted, rfl⟩ := Option.map_eq_some_iff.1 h
          refine .node (fun c hc empty => ?_) (apart.insertChild inserted) ?_
          · obtain ⟨last, leaf, some, known⟩ := empties c (mem_of_mem_insertChild hk inserted hc empty) empty
            exact ⟨last, leaf, some, Or.inl known⟩
          · refine shaped_insertChild (fun c hc c' leads changed => ?_) (fun c hc => ?_) inserted
            · refine (ih c hc (below c hc) (Or.inr leads) changed).mono ?_
              rintro s (known | rfl)
              · exact Or.inl known
              · exact Or.inr rfl
            · exact (below c hc).mono fun s => Or.inl
    | cons c p =>
      have hp := List.cons_ne_nil c p
      have leads := leads.resolve_left (by simp)
      by_cases same : firstByte (c :: p) = firstByte k
      · cases k with
        | nil => exact absurd (firstByte_eq_none_iff.1 same) hp
        | cons d k =>
          rw [firstByte_cons, firstByte_cons d k] at same
          rw [insert_inside (parted c p d k rfl rfl) same] at h
          cases h
      · have hu : u ≠ [] := by
          rintro rfl
          exact same leads.2
        rw [insert_cut hu hp same] at h
        cases h
        have both : ∀ {P : RadixNode → Prop} {a b : RadixNode}, P a → P b → ∀ c ∈ [a, b], P c :=
          fun ha hb => List.forall_mem_cons.2 ⟨ha, List.forall_mem_singleton.2 hb⟩
        refine .node (both (fun empty => absurd empty hp) fun empty => ?_) ?_
          (both ((shaped.drop hp).mono fun s => Or.inl) (shaped_leaf k value))
        · have whole : k = [] := empty
          exact ⟨rfl, rfl, hu, Or.inr (by rw [whole, List.append_nil])⟩
        · exact List.pairwise_pair.2 fun eq => absurd eq same

end Shape

end RadixNode

namespace RadixTree

open RadixNode

/-- The empty edges of a tree are below nodes of its keys. -/
theorem shaped_build {entries : List (String × Option String)} {t : RadixTree} (h : build entries = some t) :
    Shaped (· ∈ texts entries) t.root := by
  induction entries using List.reverseRecOn generalizing t with
  | nil =>
    cases h
    exact .node (by simp) .nil (by simp)
  | append_singleton entries e ih =>
    rw [build_concat] at h
    obtain ⟨before, found, inserted⟩ := Option.bind_eq_some_iff.1 h
    obtain ⟨root, changed, rfl⟩ := Option.map_eq_some_iff.1 inserted
    have known := built entries
    rw [found] at known
    refine ((ih found).insert (Or.inl known.2.1) changed).mono fun s hs => ?_
    rwa [texts_concat, List.mem_append, List.mem_singleton]

end RadixTree

end TORdex
