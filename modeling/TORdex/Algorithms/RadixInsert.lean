import TORdex.Algorithms.RadixTree

/-!
# Insertion into a radix tree

What an insertion does to a node: the walks are extended by the key, or the key clashes and the insertion
panics.
-/

namespace TORdex

open ByteOffsets Utf8

namespace RadixNode

section Congruence

variable {key s : List Char} {w w' : List Char → Option Place}

theorem firstByte_eq_of_isPrefix (text : s ≠ []) (h : s <+: key) : firstByte s = firstByte key := by
  obtain ⟨r, rfl⟩ := h
  exact (firstByte_append text).symm

/-- Only texts with the first byte of the key matter for an insertion. -/
theorem extend_congr (same : ∀ x, firstByte x = firstByte key → w x = w' x) (here : w s = w' s)
    (text : s ≠ []) :
    extend w key s = extend w' key s := by
  by_cases front : s <+: key
  · have longer : firstByte (key.take (s.length + 1)) = firstByte key := by
      refine firstByte_eq_of_isPrefix ?_ (List.take_prefix _ _)
      obtain ⟨r, rfl⟩ := front
      simp [text]
    simp only [extend, here, same key rfl, same _ longer]
  · rw [extend, extend, if_neg front, if_neg front, here]

theorem clash_congr (same : ∀ x, firstByte x = firstByte key → w x = w' x) : Clash w key ↔ Clash w' key := by
  have first : ∀ u c d r, key = u ++ d :: r → firstByte [c] = firstByte [d] →
    firstByte (u ++ [c]) = firstByte key := by
    rintro u c d r rfl h
    cases u with
    | nil => rw [List.nil_append, List.nil_append, h, firstByte_cons d r]
    | cons e u =>
      rw [List.cons_append, List.cons_append, firstByte_cons e (u ++ [c]), firstByte_cons e (u ++ d :: r)]
  constructor
  · rintro ⟨u, c, d, r, read, split, different, h⟩
    exact ⟨u, c, d, r, same _ (first u c d r split h) ▸ read, split, different, h⟩
  · rintro ⟨u, c, d, r, read, split, different, h⟩
    exact ⟨u, c, d, r, (same _ (first u c d r split h)).symm ▸ read, split, different, h⟩

end Congruence

section Steps

variable {u p k key s : List Char} {children : List RadixNode} {isEnd : Bool} {value old : Option String}
  {child t : RadixNode}

/-- What an insertion makes of a node. -/
def Inserted (t : RadixNode) (key : List Char) : Option RadixNode → Prop
  | none => Clash t.walk key
  | some t' => ¬ Clash t.walk key ∧ t'.walk = extend t.walk key ∧ firstByte t'.pfx = firstByte t.pfx

/-- What an insertion makes of the children. -/
def InsertedBelow (children : List RadixNode) (key : List Char) : Option (List RadixNode) → Prop
  | none => Clash (walkChild children) key
  | some children' => ¬ Clash (walkChild children) key ∧
    ∀ s ≠ [], walkChild children' s = extend (walkChild children) key s

theorem walkChild_leaf (h : s ≠ []) : walkChild [leaf key value] s =
    if s <+: key then if s = key then some (.node true) else some .inside else none := by
  have lead : Leads s (leaf key value) ↔ key ≠ [] ∧ firstByte key = firstByte s := Iff.rfl
  by_cases front : s <+: key
  · have leads : Leads s (leaf key value) :=
      lead.2 ⟨fun empty => h (List.prefix_nil.1 (empty ▸ front)), (firstByte_eq_of_isPrefix h front).symm⟩
    rw [walkChild, if_pos leads, if_pos front, leaf, walk]
    by_cases whole : s = key
    · simp [whole]
    · have shorter : ¬ key <+: s := fun back => whole (front.eq_of_length_le back.length_le)
      rw [if_neg shorter, if_pos front, if_neg whole]
  · rw [if_neg front, walkChild]
    split_ifs with leads
    · rw [leaf, walk, if_neg front]
      split_ifs with back rest
      · have whole : key = s := back.eq_of_length_le (List.drop_eq_nil_iff.1 rest)
        exact absurd (whole ▸ List.prefix_rfl) front
      · rfl
      · rfl
    · rfl

/-- An edge that parts from the key is cut. -/
theorem walk_cut (hp : p ≠ []) (parted : firstByte p ≠ firstByte k) :
    walk ⟨[], [⟨p, children, isEnd, old⟩, leaf k value], false, none⟩ =
      extend (walk ⟨p, children, isEnd, old⟩) k := by
  obtain ⟨c, p, rfl⟩ := List.exists_cons_of_ne_nil hp
  funext s
  cases s with
  | nil =>
    rw [walk_root_nil, extend, if_pos List.nil_prefix, walk_nil hp]
    cases k with
    | nil => simp [walk_nil hp]
    | cons d k =>
      have different : c ≠ d := by
        rintro rfl
        rw [firstByte_cons, firstByte_cons c k] at parted
        exact parted rfl
      simp [walk_eq_none different]
  | cons d s =>
    have some := List.cons_ne_nil d s
    rw [walk_root some, walkChild]
    split_ifs with leads
    · have aside : ¬ d :: s <+: k := fun front =>
        parted (leads.2.trans (firstByte_eq_of_isPrefix some front))
      rw [extend, if_neg aside]
    · have different : c ≠ d := by
        rintro rfl
        refine leads ⟨hp, ?_⟩
        show firstByte (c :: p) = firstByte (c :: s)
        rw [firstByte_cons, firstByte_cons c s]
      have off : walk ⟨c :: p, children, isEnd, old⟩ (d :: s) = none := walk_eq_none different
      rw [walkChild_leaf some, extend]
      by_cases front : d :: s <+: k
      · rw [if_pos front, if_pos front, off]
        by_cases whole : d :: s = k
        · rw [if_pos whole, if_pos whole, ← whole, off]
          rfl
        · rw [if_neg whole, if_neg whole]
      · rw [if_neg front, if_neg front, off]

theorem insertedBelow_insertChild
    (ih : ∀ child ∈ children, ∀ key, Leads key child → Inserted child key (child.insert key value)) :
    InsertedBelow children key (insertChild children key value) := by
  induction children with
  | nil =>
    rw [insertChild]
    refine ⟨?_, fun s hs => ?_⟩
    · rintro ⟨u, c, d, r, read, -⟩
      exact read rfl
    · rw [walkChild_leaf hs, extend]
      simp [walkChild]
  | cons child children rest =>
    obtain ⟨own, others⟩ := List.forall_mem_cons.1 ih
    by_cases leads : Leads key child
    · have here : ∀ x, firstByte x = firstByte key → walkChild (child :: children) x = child.walk x :=
        fun x h => if_pos ⟨leads.1, leads.2.trans h.symm⟩
      have inserted := own key leads
      rw [insertChild, if_pos leads]
      cases h : child.insert key value with
      | none =>
        rw [h] at inserted
        exact (clash_congr here).2 inserted
      | some child' =>
        rw [h] at inserted
        obtain ⟨clear, walks, first⟩ := inserted
        have leads_iff : ∀ s, Leads s child' ↔ Leads s child := fun s => by
          have empty : child'.pfx = [] ↔ child.pfx = [] := by
            rw [← firstByte_eq_none_iff, first, firstByte_eq_none_iff]
          rw [Leads, Leads, first, ne_eq, ne_eq, empty]
        refine ⟨fun clash => clear ((clash_congr here).1 clash), fun s hs => ?_⟩
        by_cases other : Leads s child
        · have same : walkChild (child :: children) s = child.walk s := if_pos other
          rw [walkChild, if_pos ((leads_iff s).2 other), walks]
          exact (extend_congr here same hs).symm
        · have aside : ¬ s <+: key := fun front =>
            other ⟨leads.1, leads.2.trans (firstByte_eq_of_isPrefix hs front).symm⟩
          rw [walkChild, if_neg ((leads_iff s).not.2 other), extend, if_neg aside, walkChild, if_neg other]
    · have here : ∀ x, firstByte x = firstByte key → walkChild (child :: children) x = walkChild children x :=
        fun x h => if_neg fun other => leads ⟨other.1, other.2.trans h⟩
      have inserted := rest others
      rw [insertChild, if_neg leads]
      cases h : insertChild children key value with
      | none =>
        rw [h] at inserted
        exact (clash_congr here).2 inserted
      | some children' =>
        rw [h] at inserted
        obtain ⟨clear, walks⟩ := inserted
        refine ⟨fun clash => clear ((clash_congr here).1 clash), fun s hs => ?_⟩
        by_cases other : Leads s child
        · have aside : ¬ s <+: key := fun front =>
            leads ⟨other.1, other.2.trans (firstByte_eq_of_isPrefix hs front)⟩
          rw [walkChild, if_pos other, extend, if_neg aside, walkChild, if_pos other]
        · have same : walkChild (child :: children) s = walkChild children s := if_neg other
          rw [walkChild, if_neg other, walks s hs]
          exact (extend_congr here same hs).symm

/-! ## The cases of an insertion -/

theorem insert_nil : insert ⟨[], children, isEnd, old⟩ [] value =
    some ⟨[], children, true, value.or old⟩ := by
  simp [insert]

/-- A key that reads the whole edge. -/
theorem insert_through (text : u ++ k ≠ []) : insert ⟨u, children, isEnd, old⟩ (u ++ k) value =
    if k = [] then some ⟨u, children, true, value.or old⟩
    else (insertChild children k value).map fun children' => ⟨u, children', isEnd, old⟩ := by
  have common : commonPrefixLen u (u ++ k) = size u := by
    have := commonPrefixLen_append u [] k
    rwa [List.append_nil, commonPrefixLen_nil, Nat.add_zero] at this
  rw [insert, if_neg text]
  simp only [common, lt_irrefl, and_false, if_false, and_true]
  by_cases start : u = []
  · subst start
    have key : k ≠ [] := text
    rw [size_nil, if_neg (lt_irrefl 0), if_pos rfl, if_neg key, List.nil_append]
    cases insertChild children k value <;> rfl
  · have pos : 0 < size u := Nat.pos_of_ne_zero (size_eq_zero_iff.not.2 start)
    rw [if_pos pos, sliceFrom_size]
    by_cases empty : k = []
    · simp [empty]
    · simp only [Option.bind_eq_bind, Option.bind_some, if_neg empty]
      cases insertChild children k value <;> rfl

/-- A key that ends at the node. -/
theorem insert_whole : insert ⟨u, children, isEnd, old⟩ u value = some ⟨u, children, true, value.or old⟩ := by
  by_cases hu : u = []
  · rw [hu, insert_nil]
  · have := @insert_through u [] children isEnd value old (by simpa using hu)
    rwa [List.append_nil, if_pos rfl] at this

/-- A key that leaves the edge between two characters. -/
theorem insert_cut (hu : u ≠ []) (hp : p ≠ []) (parted : firstByte p ≠ firstByte k) :
    insert ⟨u ++ p, children, isEnd, old⟩ (u ++ k) value =
      some ⟨u, [⟨p, children, isEnd, old⟩, leaf k value], false, none⟩ := by
  have common : commonPrefixLen (u ++ p) (u ++ k) = size u := by
    rw [commonPrefixLen_append, commonPrefixLen_eq_zero parted, Nat.add_zero]
  have inside : 0 < size u ∧ size u < size (u ++ p) := by
    have pos : 0 < size u := Nat.pos_of_ne_zero (size_eq_zero_iff.not.2 hu)
    have more : 0 < size p := Nat.pos_of_ne_zero (size_eq_zero_iff.not.2 hp)
    rw [size_append]
    omega
  rw [insert, if_neg (by simp [hu])]
  simp only [common, if_pos inside, sliceFrom_size, sliceTo_size]
  rfl

/-- A key that leaves the edge inside a character. -/
theorem insert_inside {c d : Char} (different : c ≠ d) (same : firstByte [c] = firstByte [d]) :
    insert ⟨u ++ c :: p, children, isEnd, old⟩ (u ++ d :: k) value = none := by
  have pos : 0 < commonPrefixLen (c :: p) (d :: k) := by
    refine commonPrefixLen_pos (List.cons_ne_nil c p) ?_
    rw [firstByte_cons, firstByte_cons d k, same]
  have lt := @commonPrefixLen_lt c d p k different
  have inside : 0 < size u + commonPrefixLen (c :: p) (d :: k) ∧
      size u + commonPrefixLen (c :: p) (d :: k) < size (u ++ c :: p) := by
    rw [size_append, size_cons]
    omega
  have cut : sliceFrom (u ++ c :: p) (size u + commonPrefixLen (c :: p) (d :: k)) = none := by
    rw [sliceFrom, splitAt_size_add, splitAt_inside pos lt]
    rfl
  rw [insert, if_neg (by simp)]
  simp only [commonPrefixLen_append, if_pos inside, cut]
  rfl

/-- At the root of a tree an insertion is one into its children. -/
theorem inserted_root (hk : k ≠ []) (below : InsertedBelow children k (insertChild children k value)) :
    Inserted ⟨[], children, isEnd, old⟩ k
      ((insertChild children k value).map fun children' => ⟨[], children', isEnd, old⟩) := by
  have here : ∀ x, firstByte x = firstByte k → walk ⟨[], children, isEnd, old⟩ x = walkChild children x := by
    intro x h
    refine walk_root fun empty => hk ?_
    rw [← firstByte_eq_none_iff, ← h, empty, firstByte_nil]
  cases h : insertChild children k value with
  | none =>
    rw [h] at below
    exact (clash_congr here).2 below
  | some children' =>
    rw [h] at below
    obtain ⟨clear, walks⟩ := below
    refine ⟨fun clash => clear ((clash_congr here).1 clash), funext fun s => ?_, rfl⟩
    by_cases empty : s = []
    · rw [empty, walk_root_nil, extend, if_pos List.nil_prefix, if_neg hk.symm, walk_root_nil]
    · rw [walk_root empty, walks s empty]
      exact (extend_congr here (walk_root empty) empty).symm

/-- What happens behind the common beginning happens to the node. -/
theorem inserted_append {t' : RadixNode} (clear : ¬ Clash (walk ⟨p, children, isEnd, old⟩) k)
    (walks : t'.walk = under u (extend (walk ⟨p, children, isEnd, old⟩) k))
    (first : firstByte t'.pfx = firstByte (u ++ p)) :
    Inserted ⟨u ++ p, children, isEnd, old⟩ (u ++ k) (some t') := by
  refine ⟨?_, ?_, first⟩
  · rwa [walk_append, clash_under]
  · rw [walks, walk_append, extend_under walk_nil_ne_none]

/-- A key that ends at the node makes it the end of a key. -/
theorem inserted_whole : Inserted ⟨u, children, isEnd, old⟩ u (insert ⟨u, children, isEnd, old⟩ u value) := by
  have behind : Inserted ⟨u ++ [], children, isEnd, old⟩ (u ++ [])
      (some ⟨u, children, true, value.or old⟩) := by
    refine inserted_append ?_ ?_ (by rw [List.append_nil])
    · rintro ⟨x, c, d, r, -, split, -⟩
      simp at split
    · rw [walk_pfx]
      congr 1
      funext s
      by_cases empty : s = []
      · rw [empty, walk_root_nil, extend, if_pos List.nil_prefix, if_pos rfl, walk_root_nil]
        rfl
      · rw [extend, if_neg (by simpa using empty), walk_root empty, walk_root empty]
  rw [List.append_nil] at behind
  rw [insert_whole]
  exact behind

/-- A key that goes on below the node. -/
theorem inserted_through (hk : k ≠ []) (below : InsertedBelow children k (insertChild children k value)) :
    Inserted ⟨u, children, isEnd, old⟩ (u ++ k) (insert ⟨u, children, isEnd, old⟩ (u ++ k) value) := by
  have inserted := @inserted_root k children isEnd value old hk below
  have behind : Inserted ⟨u ++ [], children, isEnd, old⟩ (u ++ k)
      ((insertChild children k value).map fun children' => ⟨u, children', isEnd, old⟩) := by
    cases h : insertChild children k value with
    | none =>
      rw [h] at inserted
      show Clash _ _
      rw [walk_append, clash_under]
      exact inserted
    | some children' =>
      rw [h] at inserted
      obtain ⟨clear, walks, -⟩ := inserted
      refine inserted_append clear ?_ (by rw [List.append_nil])
      rw [walk_pfx, walks]
  rw [List.append_nil] at behind
  rw [insert_through (by simp [hk]), if_neg hk]
  exact behind

/-- A key that leaves the edge inside a character clashes. -/
theorem inserted_inside {c d : Char} (different : c ≠ d) (same : firstByte [c] = firstByte [d]) :
    Inserted ⟨u ++ c :: p, children, isEnd, old⟩ (u ++ d :: k)
      (insert ⟨u ++ c :: p, children, isEnd, old⟩ (u ++ d :: k) value) := by
  rw [insert_inside different same]
  refine ⟨u, c, d, k, ?_, rfl, different, same⟩
  rw [walk_append, under_append]
  cases p <;> simp [walk]

/-- A key that leaves the edge between two characters cuts it. -/
theorem inserted_cut (hu : u ≠ []) (hp : p ≠ []) (parted : firstByte p ≠ firstByte k) :
    Inserted ⟨u ++ p, children, isEnd, old⟩ (u ++ k)
      (insert ⟨u ++ p, children, isEnd, old⟩ (u ++ k) value) := by
  rw [insert_cut hu hp parted]
  obtain ⟨c, p, rfl⟩ := List.exists_cons_of_ne_nil hp
  refine inserted_append ?_ ?_ ?_
  · rintro ⟨x, e, d, r, read, rfl, -, first⟩
    cases x with
    | nil =>
      have own : c = e := by
        by_contra other
        exact read (walk_eq_none other)
      rw [List.nil_append, firstByte_cons, firstByte_cons d r, own] at parted
      exact parted first
    | cons f x =>
      have own : c = f := by
        by_contra other
        exact read (walk_eq_none other)
      rw [List.cons_append, firstByte_cons, firstByte_cons f, own] at parted
      exact parted rfl
  · rw [walk_pfx, walk_cut hp parted]
  · exact (firstByte_append hu).symm

/-- The insertion of a key that leads to a node. -/
theorem inserted_insert (t : RadixNode) (key : List Char) (leads : t.pfx = [] ∨ Leads key t) :
    Inserted t key (t.insert key value) := by
  induction t using induct generalizing key with
  | node pfx children isEnd old ih =>
    obtain ⟨u, p, k, rfl, rfl, parted⟩ := exists_common pfx key
    cases p with
    | nil =>
      rw [List.append_nil]
      by_cases hk : k = []
      · rw [hk, List.append_nil]
        exact inserted_whole
      · exact inserted_through hk (insertedBelow_insertChild fun child hc key leads =>
          ih child hc key (Or.inr leads))
    | cons c p =>
      have leads := leads.resolve_left (by simp)
      by_cases same : firstByte (c :: p) = firstByte k
      · cases k with
        | nil => exact absurd (firstByte_eq_none_iff.1 same) (List.cons_ne_nil c p)
        | cons d k =>
          have different := parted c p d k rfl rfl
          rw [firstByte_cons, firstByte_cons d k] at same
          exact inserted_inside different same
      · refine inserted_cut ?_ (List.cons_ne_nil c p) same
        rintro rfl
        exact same leads.2

end Steps

end RadixNode

end TORdex
