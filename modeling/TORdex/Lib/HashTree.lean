import TORdex.Lib.Pairing

/-!
# Hash trees

Strings `S` are hashed to digests `D`, and `join` makes a string of two digests.  A proof is a list of
siblings, each with the side it stands on.  Hashing its way up from a string, a proof arrives at the
string of the root in one of two ways: the proof is the way down to a leaf that holds the string
(`AtLeaf`), or the string or a leaf is taken for the joined digests of a node (`Imitates`).
-/

namespace HashTree

variable {S D : Type}

/-- A binary tree with strings at its leaves. -/
inductive Tree (S : Type) where
  | leaf (s : S)
  | node (l r : Tree S)

namespace Tree

/-- The strings at the leaves. -/
def leaves : Tree S → List S
  | leaf s => [s]
  | node l r => l.leaves ++ r.leaves

section Digests

variable (hash : S → D) (join : D → D → S)

/-- The string that is hashed at the root. -/
def content : Tree S → S
  | leaf s => s
  | node l r => join (hash l.content) (hash r.content)

/-- The hash of a tree. -/
def digest (t : Tree S) : D := hash (t.content hash join)

/-- All strings that are hashed in the tree. -/
def contents : Tree S → List S
  | leaf s => [s]
  | node l r => (node l r).content hash join :: (l.contents ++ r.contents)

end Digests

end Tree

open HashTree.Tree

variable (hash : S → D) (join : D → D → S)

/-- The string above a string: it is joined with its sibling, which stands on its right or not. -/
def up (s : S) (step : D × Bool) : S :=
  if step.2 then join (hash s) step.1 else join step.1 (hash s)

/-- The strings that are hashed on the way up. -/
def climb (s : S) (proof : List (D × Bool)) : List S := proof.scanl (up hash join) s

/-- The way down from the root to a leaf that holds the string. -/
def AtLeaf : Tree S → List (D × Bool) → S → Prop
  | leaf c, [], s => s = c
  | node l r, (sibling, true) :: steps, s => sibling = r.digest hash join ∧ AtLeaf l steps s
  | node l r, (sibling, false) :: steps, s => sibling = l.digest hash join ∧ AtLeaf r steps s
  | _, _, _ => False

/-- The way down from the root ends at a node and the string is its joined digests, or it goes on from a
leaf and the leaf is the joined digests that the rest of the proof makes of the string. -/
def Imitates : Tree S → List (D × Bool) → S → Prop
  | leaf c, step :: steps, s => (step :: steps).reverse.foldl (up hash join) s = c
  | node l r, [], s => s = (node l r).content hash join
  | node l r, (sibling, true) :: steps, s => sibling = r.digest hash join ∧ Imitates l steps s
  | node l r, (sibling, false) :: steps, s => sibling = l.digest hash join ∧ Imitates r steps s
  | leaf _, [], _ => False

variable {hash join}

theorem AtLeaf.mem_leaves {t : Tree S} {down : List (D × Bool)} {s : S} (h : AtLeaf hash join t down s) :
    s ∈ t.leaves := by
  induction t generalizing down with
  | leaf c =>
    cases down with
    | nil => exact List.mem_singleton.2 h
    | cons step steps => cases h
  | node l r left right =>
    match down, h with
    | (_, true) :: _, h => exact List.mem_append_left _ (left h.2)
    | (_, false) :: _, h => exact List.mem_append_right _ (right h.2)

/-- An imitation needs joined digests for a string: the given one, or that of a leaf. -/
theorem Imitates.joined {t : Tree S} {down : List (D × Bool)} {s : S} (h : Imitates hash join t down s) :
    ∃ a b, s = join a b ∨ join a b ∈ t.leaves := by
  induction t generalizing down with
  | leaf c =>
    cases down with
    | nil => cases h
    | cons step steps =>
      rw [Imitates, List.reverse_cons, List.foldl_append] at h
      obtain ⟨sibling, right⟩ := step
      cases right with
      | true => exact ⟨_, sibling, .inr (List.mem_singleton.2 h)⟩
      | false => exact ⟨sibling, _, .inr (List.mem_singleton.2 h)⟩
  | node l r left right =>
    match down, h with
    | [], h => exact ⟨_, _, .inl h⟩
    | (_, true) :: _, h =>
      obtain ⟨a, b, found⟩ := left h.2
      exact ⟨a, b, found.imp_right (List.mem_append_left _)⟩
    | (_, false) :: _, h =>
      obtain ⟨a, b, found⟩ := right h.2
      exact ⟨a, b, found.imp_right (List.mem_append_right _)⟩

theorem foldl_mem_climb (s : S) (proof : List (D × Bool)) :
    proof.foldl (up hash join) s ∈ climb hash join s proof := by
  induction proof generalizing s with
  | nil => exact List.mem_singleton_self s
  | cons step proof ih =>
    rw [climb, List.scanl_cons]
    exact List.mem_cons_of_mem _ (ih _)

theorem climb_subset (s : S) (proof more : List (D × Bool)) :
    climb hash join s proof ⊆ climb hash join s (proof ++ more) := by
  intro x hx
  rw [climb, List.scanl_append]
  exact List.mem_append_left _ hx

theorem content_mem_contents (t : Tree S) : t.content hash join ∈ t.contents hash join := by
  cases t with
  | leaf s => exact List.mem_singleton_self s
  | node l r => exact List.mem_cons_self

/-- Hashing up from a string, the string of the root is found in these two ways only, when no string of
the tree collides with one on the way. -/
theorem foldl_eq_content_iff (joined : ∀ {a b c d : D}, join a b = join c d → a = c ∧ b = d) (s : S)
    (t : Tree S) (down : List (D × Bool))
    (noCollision : ∀ x ∈ climb hash join s down.reverse, ∀ y ∈ t.contents hash join,
      hash x = hash y → x = y) :
    down.reverse.foldl (up hash join) s = t.content hash join ↔
      AtLeaf hash join t down s ∨ Imitates hash join t down s := by
  induction down generalizing t with
  | nil =>
    cases t with
    | leaf c => simp [AtLeaf, Imitates, content]
    | node l r => simp [AtLeaf, Imitates]
  | cons step steps ih =>
    cases t with
    | leaf c => exact (or_iff_right (fun h => h)).symm
    | node l r =>
      have inTree (side : Tree S) (hside : side = l ∨ side = r) :
          side.contents hash join ⊆ (node l r).contents hash join := by
        intro y hy
        rcases hside with rfl | rfl
        · exact List.mem_cons_of_mem _ (List.mem_append_left _ hy)
        · exact List.mem_cons_of_mem _ (List.mem_append_right _ hy)
      have onWay : climb hash join s steps.reverse ⊆ climb hash join s (step :: steps).reverse := by
        rw [List.reverse_cons]
        exact climb_subset _ _ _
      -- below the node the way is that of one of its sides
      have below (side : Tree S) (hside : side = l ∨ side = r) :
          hash (steps.reverse.foldl (up hash join) s) = side.digest hash join ↔
            AtLeaf hash join side steps s ∨ Imitates hash join side steps s := by
        rw [← ih side fun x hx y hy => noCollision x (onWay hx) y (inTree side hside hy)]
        constructor
        · exact noCollision _ (onWay (foldl_mem_climb _ _)) _ (inTree side hside (content_mem_contents side))
        · exact congrArg hash
      have last : (step :: steps).reverse.foldl (up hash join) s =
          up hash join (steps.reverse.foldl (up hash join) s) step := by
        rw [List.reverse_cons, List.foldl_append]
        rfl
      have joins {a b c d : D} : join a b = join c d ↔ a = c ∧ b = d :=
        ⟨joined, fun h => by rw [h.1, h.2]⟩
      obtain ⟨sibling, right⟩ := step
      rw [last, content]
      cases right with
      | true =>
        show join _ sibling = _ ↔ _ ∧ _ ∨ _ ∧ _
        rw [joins, ← and_or_left, ← below l (.inl rfl), and_comm]
        rfl
      | false =>
        show join sibling _ = _ ↔ _ ∧ _ ∨ _ ∧ _
        rw [joins, ← and_or_left, ← below r (.inr rfl)]
        rfl

/-! ## The tree of a list -/

/-- The tree that pairing rounds make of the strings; there is none for no strings. -/
def tree? (strings : List S) : Option (Tree S) := Pairing.last node (strings.map leaf)

variable (hash join) in
/-- The strings that a round of digests hashes. -/
def joins (digests : List D) : List S := (Pairing.pairs digests).map fun p => join p.1 p.2

theorem digest_node (l r : Tree S) :
    (node l r).digest hash join = hash (join (l.digest hash join) (r.digest hash join)) := rfl

theorem flatMap_leaves_pairUp (trees : List (Tree S)) :
    (Pairing.pairUp node trees).flatMap leaves = trees.flatMap leaves := by
  induction trees using Pairing.pairUp.induct with
  | case1 a b rest ih =>
    simp only [Pairing.pairUp, List.flatMap_cons, ih, leaves, List.append_assoc]
  | case2 a => rfl
  | case3 => rfl

/-- What a round adds to the strings that are hashed. -/
theorem mem_contents_pairUp {trees : List (Tree S)} {c : S}
    (h : c ∈ (Pairing.pairUp node trees).flatMap (contents hash join)) :
    c ∈ trees.flatMap (contents hash join) ∨ c ∈ joins join (trees.map (digest hash join)) := by
  obtain ⟨t, ht, hc⟩ := List.mem_flatMap.1 h
  rcases Pairing.mem_pairUp ht with old | ⟨p, hp, rfl⟩
  · exact .inl (List.mem_flatMap.2 ⟨t, old, hc⟩)
  · have sides := Pairing.mem_of_mem_pairs hp
    rcases List.mem_cons.1 hc with rfl | below
    · refine .inr ?_
      rw [joins, Pairing.map_pairs, List.map_map]
      exact List.mem_map.2 ⟨p, hp, rfl⟩
    · rcases List.mem_append.1 below with left | right
      · exact .inl (List.mem_flatMap.2 ⟨p.1, sides.1, left⟩)
      · exact .inl (List.mem_flatMap.2 ⟨p.2, sides.2, right⟩)

variable (hash join) in
/-- The digests from round to round. -/
def digests (leaves : List D) : List (List D) := Pairing.ladder (fun a b => hash (join a b)) leaves

/-- The tree that is left has the leaves of the list. -/
theorem leaves_last {trees : List (Tree S)} {t : Tree S} (h : Pairing.last node trees = some t) :
    t.leaves = trees.flatMap leaves := by
  induction trees using Pairing.ladder.induct node with
  | case1 trees long ih =>
    rw [Pairing.last_of_lt long] at h
    exact (ih h).trans (flatMap_leaves_pairUp trees)
  | case2 trees short =>
    rcases trees with _ | ⟨only, _ | ⟨b, rest⟩⟩
    · rw [Pairing.last_nil] at h
      cases h
    · rw [Pairing.last_singleton] at h
      cases h
      exact (List.append_nil _).symm
    · exact absurd (by simp) short

variable (hash join) in
/-- It hashes the strings of the list and of the rounds. -/
theorem contents_last {trees : List (Tree S)} {t : Tree S} (h : Pairing.last node trees = some t) :
    ∀ c ∈ t.contents hash join, c ∈ trees.flatMap (contents hash join) ∨
      c ∈ (digests hash join (trees.map (digest hash join))).flatMap (joins join) := by
  induction trees using Pairing.ladder.induct node with
  | case1 trees long ih =>
    intro c hc
    rw [Pairing.last_of_lt long] at h
    have long' : 1 < (trees.map (digest hash join)).length := by rwa [List.length_map]
    rw [digests, Pairing.ladder_of_lt long', List.flatMap_cons, ← Pairing.map_pairUp digest_node]
    rcases ih h c hc with before | later
    · exact (mem_contents_pairUp before).imp_right (List.mem_append_left _)
    · exact .inr (List.mem_append_right _ later)
  | case2 trees short =>
    intro c hc
    rcases trees with _ | ⟨only, _ | ⟨b, rest⟩⟩
    · rw [Pairing.last_nil] at h
      cases h
    · rw [Pairing.last_singleton] at h
      cases h
      exact .inl (List.mem_append_left _ hc)
    · exact absurd (by simp) short

/-- The digest that the rounds leave is that of the tree. -/
theorem last_digest (strings : List S) :
    Pairing.last (fun a b => hash (join a b)) (strings.map hash) = (tree? strings).map (digest hash join) := by
  have rounds := @Pairing.map_last _ _ node (digest hash join) (fun a b => hash (join a b)) digest_node
  rw [tree?, rounds, List.map_map]
  rfl

theorem leaves_tree? {strings : List S} {t : Tree S} (h : tree? strings = some t) : t.leaves = strings := by
  rw [leaves_last h, List.flatMap_map]
  exact List.flatMap_singleton' strings

variable (hash join) in
theorem contents_tree? {strings : List S} {t : Tree S} (h : tree? strings = some t) :
    ∀ c ∈ t.contents hash join, c ∈ strings ∨
      c ∈ (digests hash join (strings.map hash)).flatMap (joins join) := by
  have hashed := contents_last hash join h
  have contents : (strings.map Tree.leaf).flatMap (contents hash join) = strings := by
    rw [List.flatMap_map]
    exact List.flatMap_singleton' strings
  rw [contents, List.map_map] at hashed
  exact hashed

end HashTree
