import TORdex.Lib.Utf8

/-!
# The radix tree

A node keeps the text of the edge that leads to it.  Edges are compared byte by byte and cut at byte offsets;
`none` is the panic of a cut inside a character.
-/

namespace TORdex

open ByteOffsets Utf8

/-- A node with the text that leads to it. -/
structure RadixNode where
  pfx : List Char
  children : List RadixNode
  isEnd : Bool
  value : Option String

namespace RadixNode

/-- A node of a key without nodes below it. -/
def leaf (pfx : List Char) (value : Option String) : RadixNode := ⟨pfx, [], true, value⟩

/-- `common_prefix_len`, in bytes. -/
def commonPrefixLen (pfx s : List Char) : ℕ :=
  (((bytes pfx).zip (bytes s)).takeWhile fun e => e.1 = e.2).length

/-- `as_bytes()[0]`. -/
def firstByte (s : List Char) : Option UInt8 := (bytes s).head?

/-- The child to which a text leads. -/
def Leads (s : List Char) (child : RadixNode) : Prop := child.pfx ≠ [] ∧ firstByte child.pfx = firstByte s

instance (s : List Char) (child : RadixNode) : Decidable (Leads s child) :=
  inferInstanceAs (Decidable (_ ∧ _))

mutual

/-- Insert what is left of a key below a node. -/
def insert : RadixNode → List Char → Option String → Option RadixNode
  | ⟨pfx, children, isEnd, old⟩, key, value =>
    if key = [] then some ⟨pfx, children, true, value.or old⟩
    else
      let common := commonPrefixLen pfx key
      if 0 < common ∧ common < size pfx then do
        let existingSuffix ← sliceFrom pfx common
        let front ← sliceTo pfx common
        let rest ← sliceFrom key common
        return ⟨front, [⟨existingSuffix, children, isEnd, old⟩, leaf rest value], false, none⟩
      else if 0 < common ∧ common = size pfx then do
        let rest ← sliceFrom key common
        if rest = [] then return ⟨pfx, children, true, value.or old⟩
        else return ⟨pfx, ← insertChild children rest value, isEnd, old⟩
      else if common = 0 then do
        return ⟨pfx, ← insertChild children key value, isEnd, old⟩
      else some ⟨pfx, children, isEnd, old⟩

/-- Into the first child to which the key leads; a new one if there is none. -/
def insertChild : List RadixNode → List Char → Option String → Option (List RadixNode)
  | [], key, value => some [leaf key value]
  | child :: children, key, value =>
    if Leads key child then do return (← child.insert key value) :: children
    else do return child :: (← insertChild children key value)

end

mutual

/-- What is left of a key ends at a node below. -/
def search : RadixNode → List Char → Option Bool
  | ⟨pfx, children, isEnd, _⟩, key =>
    if key = [] then some isEnd
    else if pfx <+: key then do
      let rest ← sliceFrom key (size pfx)
      if rest = [] then return isEnd else searchChild children rest
    else some false

/-- The search in the first child that the text leads into. -/
def searchChild : List RadixNode → List Char → Option Bool
  | [], _ => some false
  | child :: children, rest => if Leads rest child then child.search rest else searchChild children rest

end

mutual

/-- Some key below the node starts with the text. -/
def startsWith : RadixNode → List Char → Option Bool
  | ⟨pfx, children, _, _⟩, front =>
    if front = [] then some true
    else if pfx <+: front then do
      let rest ← sliceFrom front (size pfx)
      if rest = [] then return true else startsWithChild children rest
    else some (decide (front <+: pfx))

/-- The same in the first child that the text leads into. -/
def startsWithChild : List RadixNode → List Char → Option Bool
  | [], _ => some false
  | child :: children, rest =>
    if Leads rest child then child.startsWith rest else startsWithChild children rest

end

mutual

/-- The longest key below the node that the text starts with. -/
def longestPrefix : RadixNode → List Char → Option (Option (List Char))
  | ⟨pfx, children, isEnd, _⟩, s =>
    if s = [] then some (if isEnd then some pfx else none)
    else if pfx <+: s then do
      let rest ← sliceFrom s (size pfx)
      match ← longestPrefixChild children rest with
      | some result => return some (pfx ++ result)
      | none => return if isEnd then some pfx else none
    else some none

/-- The first result of a child. -/
def longestPrefixChild : List RadixNode → List Char → Option (Option (List Char))
  | [], _ => some none
  | child :: children, rest => do
    match ← child.longestPrefix rest with
    | some result => return some result
    | none => longestPrefixChild children rest

end

attribute [grind =] insert insertChild search searchChild startsWith startsWithChild longestPrefix longestPrefixChild

end RadixNode

/-- A tree of keys. -/
structure RadixTree where
  root : RadixNode

namespace RadixTree

/-- Without keys. -/
def new : RadixTree := ⟨⟨[], [], false, none⟩⟩

/-- Insert a key. -/
def insert (t : RadixTree) (key : String) (value : Option String) : Option RadixTree :=
  (t.root.insert key.toList value).map RadixTree.mk

/-- The key is in the tree. -/
def search (t : RadixTree) (key : String) : Option Bool := t.root.search key.toList

/-- Some key starts with the text. -/
def startsWith (t : RadixTree) (front : String) : Option Bool := t.root.startsWith front.toList

/-- The longest key that the text starts with. -/
def longestPrefix (t : RadixTree) (s : String) : Option (Option String) :=
  (t.root.longestPrefix s.toList).map (Option.map String.ofList)

/-- A tree after some insertions. -/
def build (entries : List (String × Option String)) : Option RadixTree :=
  entries.foldlM (fun t e => t.insert e.1 e.2) new

end RadixTree

end TORdex

/-!
## Walks in a radix tree

A text that a tree reads ends at a node or inside an edge.  An insertion changes the places of the beginnings
of its key and no others, and it panics where the key parts from the tree inside a character.
-/

namespace TORdex

open ByteOffsets Utf8

namespace RadixNode

/-! ### Common beginnings -/

section Common

variable {c d : Char} {u p k s : List Char}

@[simp] theorem firstByte_nil : firstByte [] = none := rfl

theorem firstByte_cons (c : Char) (s : List Char) : firstByte (c :: s) = firstByte [c] := by
  obtain ⟨b, rest, h⟩ := List.exists_cons_of_ne_nil (String.utf8EncodeChar_ne_nil (c := c))
  simp [firstByte, h]

theorem firstByte_append (h : u ≠ []) : firstByte (u ++ s) = firstByte u := by
  cases u with
  | nil => exact absurd rfl h
  | cons c u => rw [List.cons_append, firstByte_cons, firstByte_cons c u]

theorem firstByte_eq_none_iff : firstByte s = none ↔ s = [] := by
  cases s with
  | nil => simp
  | cons c s =>
    obtain ⟨b, rest, h⟩ := List.exists_cons_of_ne_nil (String.utf8EncodeChar_ne_nil (c := c))
    simp [firstByte, h]

theorem commonPrefixLen_append (u p k : List Char) :
    commonPrefixLen (u ++ p) (u ++ k) = size u + commonPrefixLen p k := by
  have same : ∀ e ∈ (bytes u).zip (bytes u), (decide (e.1 = e.2)) = true := by
    intro e h
    rw [List.zip, List.zipWith_self] at h
    obtain ⟨a, -, rfl⟩ := List.mem_map.1 h
    exact decide_eq_true rfl
  rw [commonPrefixLen, bytes_append, bytes_append, List.zip_append rfl, List.takeWhile_append_of_pos same,
    List.length_append, List.length_zip, min_self, length_bytes, commonPrefixLen]

theorem take_takeWhile_zip (l m : List UInt8) :
    l.take ((l.zip m).takeWhile fun e => e.1 = e.2).length =
      m.take ((l.zip m).takeWhile fun e => e.1 = e.2).length := by
  induction l generalizing m with
  | nil => simp
  | cons a l ih =>
    cases m with
    | nil => simp
    | cons b m =>
      rw [List.zip_cons_cons]
      by_cases same : a = b
      · rw [List.takeWhile_cons_of_pos (by simpa using same), List.length_cons, List.take_succ_cons,
          List.take_succ_cons,
          same, ih]
      · rw [List.takeWhile_cons_of_neg (by simpa using same)]
        rfl

@[simp] theorem commonPrefixLen_nil (k : List Char) : commonPrefixLen [] k = 0 := by simp [commonPrefixLen]

theorem commonPrefixLen_eq_zero (h : firstByte p ≠ firstByte k) : commonPrefixLen p k = 0 := by
  unfold firstByte at h
  unfold commonPrefixLen
  cases hp : bytes p with
  | nil => simp
  | cons a l =>
    cases hk : bytes k with
    | nil => simp
    | cons b m =>
      rw [hp, hk, List.head?_cons, List.head?_cons, ne_eq, Option.some.injEq] at h
      rw [List.zip_cons_cons, List.takeWhile_cons_of_neg (by simpa using h), List.length_nil]

theorem commonPrefixLen_pos (hp : p ≠ []) (h : firstByte p = firstByte k) : 0 < commonPrefixLen p k := by
  have some := firstByte_eq_none_iff.not.2 hp
  unfold firstByte at h some
  unfold commonPrefixLen
  cases hp : bytes p with
  | nil => simp [hp] at some
  | cons a l =>
    cases hk : bytes k with
    | nil => simp [hp, hk] at h
    | cons b m =>
      rw [hp, hk, List.head?_cons, List.head?_cons, Option.some.injEq] at h
      rw [List.zip_cons_cons, List.takeWhile_cons_of_pos (by simpa using h), List.length_cons]
      omega

/-- Different characters part before the first of them ends. -/
theorem commonPrefixLen_lt (different : c ≠ d) : commonPrefixLen (c :: p) (d :: k) < c.utf8Size := by
  by_contra long
  have common : (bytes (c :: p)).take (commonPrefixLen (c :: p) (d :: k)) =
      (bytes (d :: k)).take (commonPrefixLen (c :: p) (d :: k)) := take_takeWhile_zip _ _
  have same := congrArg (List.take c.utf8Size) common
  rw [List.take_take, List.take_take, min_eq_left (not_lt.1 long), bytes_cons c,
    List.take_left' (String.length_utf8EncodeChar c)] at same
  have whole : bytes [c] = (bytes (d :: k)).take c.utf8Size := by
    rw [← same]
    simp
  have front : [c] <+: d :: k := bytes_isPrefix_iff.1 (whole ▸ List.take_prefix _ _)
  exact different (List.cons_prefix_cons.1 front).1

/-- A text and a key after what they have in common. -/
theorem exists_common (pfx key : List Char) : ∃ u p k, pfx = u ++ p ∧ key = u ++ k ∧
    ∀ c p' d k', p = c :: p' → k = d :: k' → c ≠ d := by
  induction pfx generalizing key with
  | nil => exact ⟨[], [], key, rfl, rfl, by simp⟩
  | cons c pfx ih =>
    cases key with
    | nil => exact ⟨[], c :: pfx, [], rfl, rfl, by simp⟩
    | cons d key =>
      by_cases same : c = d
      · obtain ⟨u, p, k, hp, hk, parted⟩ := ih key
        exact ⟨c :: u, p, k, by rw [hp, List.cons_append], by rw [← same, hk, List.cons_append], parted⟩
      · refine ⟨[], c :: pfx, d :: key, rfl, rfl, ?_⟩
        rintro c' p' d' k' hp hk rfl
        exact same ((List.cons.inj hp).1.trans (List.cons.inj hk).1.symm)

end Common

/-! ### Walks -/

/-- Where a text ends in a tree. -/
inductive Place where
  | node (isEnd : Bool)
  | inside
  deriving DecidableEq, Repr

mutual

/-- The place to which a text leads. -/
def walk : RadixNode → List Char → Option Place
  | ⟨pfx, children, isEnd, _⟩, s =>
    if pfx <+: s then
      if s.drop pfx.length = [] then some (.node isEnd) else walkChild children (s.drop pfx.length)
    else if s <+: pfx then some .inside
    else none

/-- The walk into the first child that the text leads into. -/
def walkChild : List RadixNode → List Char → Option Place
  | [], _ => none
  | child :: children, s => if Leads s child then child.walk s else walkChild children s

end

attribute [grind =] walk walkChild

/-- Induction along the children. -/
theorem induct {motive : RadixNode → Prop}
    (node : ∀ pfx children isEnd value, (∀ child ∈ children, motive child) →
      motive ⟨pfx, children, isEnd, value⟩)
    (t : RadixNode) : motive t := by
  refine @RadixNode.rec motive (fun children => ∀ child ∈ children, motive child) ?_ ?_ ?_ t
  · exact node
  · simp
  · intro child children first others
    exact List.forall_mem_cons.2 ⟨first, others⟩

/-- What is read below an edge. -/
def under (u : List Char) (w : List Char → Option Place) : List Char → Option Place := fun s =>
  if u <+: s then w (s.drop u.length) else if s <+: u then some .inside else none

section Walk

variable {u p s : List Char} {children : List RadixNode} {isEnd : Bool} {value : Option String}
    {t : RadixNode}
  {w : List Char → Option Place}

@[simp] theorem under_append (u : List Char) (w : List Char → Option Place) (s : List Char) :
    under u w (u ++ s) = w s := by simp [under]

theorem walk_append : walk ⟨u ++ p, children, isEnd, value⟩ = under u (walk ⟨p, children, isEnd, value⟩) := by
  funext s
  by_cases front : u <+: s
  · obtain ⟨r, rfl⟩ := front
    have rest : (u ++ r).drop (u ++ p).length = r.drop p.length := by
      rw [List.length_append, List.drop_length_add_append]
    simp only [under_append, walk, rest, List.prefix_append_right_inj]
  · rw [under, if_neg front, walk, if_neg fun h => front ((List.prefix_append u p).trans h)]
    by_cases back : s <+: u
    · rw [if_pos back, if_pos (back.trans (List.prefix_append u p))]
    · rw [if_neg back, if_neg fun h => ?_]
      exact (List.prefix_or_prefix_of_prefix h (List.prefix_append u p)).elim back front

theorem walk_pfx : walk ⟨u, children, isEnd, value⟩ = under u (walk ⟨[], children, isEnd, value⟩) := by
  have := @walk_append u [] children isEnd value
  rwa [List.append_nil] at this

@[simp] theorem walk_root_nil : walk ⟨[], children, isEnd, value⟩ [] = some (.node isEnd) := by simp [walk]

theorem walk_root (h : s ≠ []) :
    walk ⟨[], children, isEnd, value⟩ s = walkChild children s := by simp [walk, h]

theorem walk_nil (h : p ≠ []) : walk ⟨p, children, isEnd, value⟩ [] = some .inside := by simp [walk, h]

/-- A walk beside the edge. -/
theorem walk_eq_none {c d : Char} (h : c ≠ d) : walk ⟨c :: p, children, isEnd, value⟩ (d :: s) = none := by
  simp [walk, h, h.symm]

theorem walk_nil_ne_none : t.walk [] ≠ none := by
  obtain ⟨pfx, children, isEnd, value⟩ := t
  cases pfx with
  | nil => simp
  | cons c pfx => simp [walk_nil]

end Walk

/-! ### Insertions -/

/-- The places after an insertion.  The new node of a key that ends inside an edge is not the end of a key. -/
def extend (w : List Char → Option Place) (key : List Char) : List Char → Option Place := fun s =>
  if s <+: key then
    if s = key then some (.node (decide (w key ≠ some .inside)))
    else
      match w s with
      | none => some .inside
      | some .inside => if w (key.take (s.length + 1)) = none then some (.node false) else some .inside
      | some (.node isEnd) => some (.node isEnd)
  else w s

/-- Two texts part inside a character. -/
def PartInside (x y : List Char) : Prop := ∃ u c d r r', x = u ++ c :: r ∧ y = u ++ d :: r' ∧ c ≠ d ∧
  firstByte [c] = firstByte [d]

/-- A key parts inside a character from what is read. -/
def Clash (w : List Char → Option Place) (key : List Char) : Prop := ∃ u c d r, w (u ++ [c]) ≠ none ∧
  key = u ++ d :: r ∧ c ≠ d ∧ firstByte [c] = firstByte [d]

section Effect

variable {u k s : List Char} {w : List Char → Option Place}

theorem under_ne_none (start : w [] ≠ none) (h : s <+: u) : under u w s ≠ none := by
  rw [under]
  split_ifs with front
  · rw [h.eq_of_length_le front.length_le, List.drop_length]
    exact start
  · exact Option.some_ne_none _

/-- An insertion below an edge. -/
theorem extend_under (start : w [] ≠ none) : extend (under u w) (u ++ k) = under u (extend w k) := by
  funext s
  by_cases front : u <+: s
  · obtain ⟨r, rfl⟩ := front
    have next : (u ++ k).take ((u ++ r).length + 1) = u ++ k.take (r.length + 1) := by
      rw [List.length_append, Nat.add_assoc, List.take_length_add_append]
    simp only [extend, under_append, List.prefix_append_right_inj, List.append_cancel_left_eq, next]
  · have right : under u (extend w k) s = if s <+: u then some .inside else none := if_neg front
    have left : under u w s = if s <+: u then some .inside else none := if_neg front
    rw [right, extend]
    by_cases back : s <+: u
    · have other : s ≠ u ++ k := fun same => front (same ▸ List.prefix_append u k)
      have shorter : s.length + 1 ≤ u.length := by
        by_contra long
        exact front (back.eq_of_length_le (by omega) ▸ List.prefix_rfl)
      have next : (u ++ k).take (s.length + 1) <+: u := by
        rw [List.take_append_of_le_length shorter]
        exact List.take_prefix _ _
      rw [if_pos (back.trans (List.prefix_append u k)), if_neg other, left, if_pos back]
      exact if_neg (under_ne_none start next)
    · have aside : ¬ s <+: u ++ k := fun h =>
        (List.prefix_or_prefix_of_prefix h (List.prefix_append u k)).elim back front
      rw [if_neg aside, left]

theorem clash_under : Clash (under u w) (u ++ k) ↔ Clash w k := by
  constructor
  · rintro ⟨x, c, d, r, read, split, different, same⟩
    rcases List.append_eq_append_iff.1 split with ⟨x', rfl, rest⟩ | ⟨u', rfl, rest⟩
    · rw [List.append_assoc, under_append] at read
      exact ⟨x', c, d, r, read, rest, different, same⟩
    · cases u' with
      | nil =>
        rw [List.append_nil] at read
        exact ⟨[], c, d, r, by simpa using read, rest.symm, different, same⟩
      | cons e u' =>
        -- the edge goes on with the character of the key
        obtain ⟨rfl, -⟩ := List.cons.inj rest
        refine absurd ?_ read
        rw [under, if_neg, if_neg]
        · rw [List.prefix_append_right_inj, List.cons_prefix_cons]
          exact fun h => different h.1
        · rw [List.prefix_append_right_inj, List.cons_prefix_cons]
          exact fun h => different h.1.symm
  · rintro ⟨x, c, d, r, read, rfl, different, same⟩
    refine ⟨u ++ x, c, d, r, ?_, (List.append_assoc _ _ _).symm, different, same⟩
    rwa [List.append_assoc, under_append]

end Effect

end RadixNode

end TORdex
