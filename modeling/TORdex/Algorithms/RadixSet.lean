import Mathlib.Data.List.Induction
import TORdex.Algorithms.RadixInsert

/-!
# Radix trees as sets of texts

What a tree reads after a sequence of insertions, at which texts it has nodes, and which keys it still knows:
a key is lost when it comes for the first time after longer keys that all go on with the same character.
-/

namespace TORdex

open ByteOffsets Utf8

namespace RadixNode

/-! ## Searching along a walk -/

section Searching

theorem walk_whole {pfx : List Char} {children : List RadixNode} {isEnd : Bool} {value : Option String}
    (s : List Char) :
    walk ⟨pfx, children, isEnd, value⟩ (pfx ++ s) =
      if s = [] then some (.node isEnd) else walkChild children s := by
  simp [walk]

theorem search_eq (t : RadixNode) (key : List Char) (enters : key ≠ [] ∨ t.pfx = []) :
    t.search key = some (decide (t.walk key = some (.node true))) := by
  induction t using induct generalizing key with
  | node pfx children isEnd value ih =>
    have below : ∀ s ≠ [], searchChild children s =
      some (decide (walkChild children s = some (.node true))) := by
      intro s hs
      induction children with
      | nil => simp [searchChild, walkChild]
      | cons child children rest =>
        obtain ⟨own, others⟩ := List.forall_mem_cons.1 ih
        rw [searchChild, walkChild]
        split_ifs
        · exact own s (Or.inl hs)
        · exact rest others enters
    rw [search]
    split_ifs with empty front
    · have root : pfx = [] := enters.resolve_left (not_not.2 empty)
      rw [root, empty, walk_root_nil]
      cases isEnd <;> rfl
    · obtain ⟨r, rfl⟩ := front
      rw [sliceFrom_size, walk_whole]
      by_cases last : r = []
      · simp only [Option.bind_eq_bind, Option.bind_some, if_pos last]
        cases isEnd <;> rfl
      · simpa only [Option.bind_eq_bind, Option.bind_some, if_neg last] using below r last
    · rw [walk, if_neg front]
      split_ifs <;> rfl

theorem startsWith_eq (t : RadixNode) (front : List Char) :
    t.startsWith front = some (decide (t.walk front ≠ none)) := by
  induction t using induct generalizing front with
  | node pfx children isEnd value ih =>
    have below : ∀ s ≠ [], startsWithChild children s = some (decide (walkChild children s ≠ none)) := by
      intro s hs
      induction children with
      | nil => simp [startsWithChild, walkChild]
      | cons child children rest =>
        obtain ⟨own, others⟩ := List.forall_mem_cons.1 ih
        rw [startsWithChild, walkChild]
        split_ifs
        · exact own s
        · exact rest others
    rw [startsWith]
    split_ifs with empty whole
    · rw [empty, decide_eq_true walk_nil_ne_none]
    · obtain ⟨r, rfl⟩ := whole
      rw [sliceFrom_size, walk_whole]
      by_cases last : r = []
      · simp only [Option.bind_eq_bind, Option.bind_some, if_pos last]
        rfl
      · simpa only [Option.bind_eq_bind, Option.bind_some, if_neg last] using below r last
    · rw [walk, if_neg whole]
      split_ifs with inside <;> simp [inside]

end Searching

/-! ## What a tree reads -/

/-- Two keys go on differently behind a text. -/
def Branches (keys : List (List Char)) (s : List Char) : Prop :=
  ∃ c d, c ≠ d ∧ (∃ x ∈ keys, s ++ [c] <+: x) ∧ ∃ y ∈ keys, s ++ [d] <+: y

/-- Some insertion of a key finds a node for it, or reads nothing of it. -/
def Kept (keys : List (List Char)) (s : List Char) : Prop := ∃ before after, keys = before ++ s :: after ∧
  (s = [] ∨ s ∈ before ∨ Branches before s ∨ ¬ ∃ x ∈ before, s <+: x)

/-- The walks of a tree after the insertion of some keys. -/
structure Reads (keys : List (List Char)) (w : List Char → Option Place) : Prop where
  read : ∀ s, w s ≠ none ↔ s = [] ∨ ∃ x ∈ keys, s <+: x
  node : ∀ s, (∃ isEnd, w s = some (.node isEnd)) ↔ s = [] ∨ s ∈ keys ∨ Branches keys s
  ends : ∀ s, w s = some (.node true) ↔ Kept keys s

section Extension

variable {keys : List (List Char)} {key s : List Char} {w : List Char → Option Place}

/-- What an insertion does at a text: it ends there, or it puts an edge or a node there, or it leaves the
place as it is. -/
theorem extend_cases (w : List Char → Option Place) (key s : List Char) :
    (s = key ∧ extend w key s = some (.node (decide (w s ≠ some .inside)))) ∨
    (s ≠ key ∧ s <+: key ∧ w s = none ∧ extend w key s = some .inside) ∨
    (s ≠ key ∧ s <+: key ∧ w s = some .inside ∧ w (key.take (s.length + 1)) = none ∧
      extend w key s = some (.node false)) ∨
    (s ≠ key ∧ (s <+: key → w s ≠ none ∧ (w s = some .inside → w (key.take (s.length + 1)) ≠ none)) ∧
      extend w key s = w s) := by
  by_cases whole : s = key
  · subst whole
    exact Or.inl ⟨rfl, by rw [extend, if_pos List.prefix_rfl, if_pos rfl]⟩
  · by_cases front : s <+: key
    · rw [extend, if_pos front, if_neg whole]
      cases place : w s with
      | none => exact Or.inr (Or.inl ⟨whole, front, rfl, rfl⟩)
      | some p =>
        cases p with
        | node isEnd => exact Or.inr (Or.inr (Or.inr ⟨whole, fun _ => ⟨by simp, by simp⟩, rfl⟩))
        | inside =>
          by_cases off : w (key.take (s.length + 1)) = none
          · exact Or.inr (Or.inr (Or.inl ⟨whole, front, rfl, off, if_pos off⟩))
          · exact Or.inr (Or.inr (Or.inr ⟨whole, fun _ => ⟨by simp, fun _ => off⟩, if_neg off⟩))
    · exact Or.inr (Or.inr (Or.inr ⟨whole, fun h => absurd h front, if_neg front⟩))

theorem extend_ne_none : extend w key s ≠ none ↔ w s ≠ none ∨ s <+: key := by
  obtain ⟨rfl, eq⟩ | ⟨-, front, -, eq⟩ | ⟨-, front, -, -, eq⟩ | ⟨-, kept, eq⟩ := extend_cases w key s
  · simp [eq]
  · simp [eq, front]
  · simp [eq, front]
  · rw [eq, or_iff_left_of_imp fun front => (kept front).1]

theorem extend_ends : extend w key s = some (.node true) ↔
    w s = some (.node true) ∨ (s = key ∧ w s ≠ some .inside) := by
  obtain ⟨rfl, eq⟩ | ⟨whole, -, off, eq⟩ | ⟨whole, -, inside, -, eq⟩ | ⟨whole, -, eq⟩ := extend_cases w key s
  · rw [eq]
    simp only [Option.some.injEq, Place.node.injEq, decide_eq_true_eq, true_and]
    refine (or_iff_right_of_imp fun ends => ?_).symm
    simp [ends]
  · simp [eq, off, whole]
  · simp [eq, inside, whole]
  · simp [eq, whole]

theorem extend_node : (∃ isEnd, extend w key s = some (.node isEnd)) ↔ (∃ isEnd, w s = some (.node isEnd)) ∨
    s = key ∨ (s <+: key ∧ s ≠ key ∧ w s = some .inside ∧ w (key.take (s.length + 1)) = none) := by
  obtain ⟨rfl, eq⟩ | ⟨whole, -, off, eq⟩ | ⟨whole, front, inside, off, eq⟩ | ⟨whole, kept, eq⟩ :=
    extend_cases w key s
  · simp [eq, em]
  · simp [eq, off, whole]
  · simp [eq, whole, front, inside, off]
  · rw [eq]
    refine (or_iff_left_of_imp ?_).symm
    rintro (same | ⟨front, -, inside, off⟩)
    · exact absurd same whole
    · exact absurd off ((kept front).2 inside)

theorem kept_concat : Kept (keys ++ [key]) s ↔ Kept keys s ∨
    (s = key ∧ (s = [] ∨ s ∈ keys ∨ Branches keys s ∨ ¬ ∃ x ∈ keys, s <+: x)) := by
  constructor
  · rintro ⟨before, after, split, found⟩
    rcases List.eq_nil_or_concat after with rfl | ⟨after', last, rfl⟩
    · obtain ⟨rfl, same⟩ := List.append_inj' split rfl
      exact Or.inr ⟨(List.singleton_inj.1 same).symm, found⟩
    · rw [List.concat_eq_append, ← List.cons_append, ← List.append_assoc] at split
      obtain ⟨rfl, -⟩ := List.append_inj' split rfl
      exact Or.inl ⟨before, after', rfl, found⟩
  · rintro (⟨before, after, rfl, found⟩ | ⟨rfl, found⟩)
    · exact ⟨before, after ++ [key], by simp, found⟩
    · exact ⟨keys, [], rfl, found⟩

theorem Kept.mem (h : Kept keys s) : s ∈ keys := by
  obtain ⟨before, after, rfl, -⟩ := h
  simp

theorem Branches.concat (h : Branches keys s) : Branches (keys ++ [key]) s := by
  obtain ⟨c, d, different, ⟨x, hx, front⟩, y, hy, front'⟩ := h
  exact ⟨c, d, different, ⟨x, List.mem_append_left _ hx, front⟩, y, List.mem_append_left _ hy, front'⟩

/-- A new branch: the key leaves an edge behind the text. -/
theorem branches_concat : Branches (keys ++ [key]) s ↔ Branches keys s ∨
    ∃ c d, c ≠ d ∧ (∃ x ∈ keys, s ++ [c] <+: x) ∧ s ++ [d] <+: key := by
  constructor
  · rintro ⟨c, d, different, ⟨x, hx, front⟩, y, hy, front'⟩
    rcases List.mem_append.1 hx with hx | hx <;> rcases List.mem_append.1 hy with hy | hy
    · exact Or.inl ⟨c, d, different, ⟨x, hx, front⟩, y, hy, front'⟩
    · rw [List.mem_singleton] at hy
      exact Or.inr ⟨c, d, different, ⟨x, hx, front⟩, hy ▸ front'⟩
    · rw [List.mem_singleton] at hx
      exact Or.inr ⟨d, c, different.symm, ⟨y, hy, front'⟩, hx ▸ front⟩
    · rw [List.mem_singleton] at hx hy
      have same := List.prefix_of_prefix_length_le (hx ▸ front) (hy ▸ front') (by simp)
      have last := List.append_cancel_left (same.eq_of_length (by simp))
      exact absurd (List.singleton_inj.1 last) different
  · rintro (h | ⟨c, d, different, ⟨x, hx, front⟩, front'⟩)
    · exact h.concat
    · exact ⟨c, d, different, ⟨x, List.mem_append_left _ hx, front⟩, key, by simp, front'⟩

theorem exists_next {x : List Char} (front : s <+: x) (other : s ≠ x) : ∃ c, s ++ [c] <+: x := by
  obtain ⟨r, rfl⟩ := front
  cases r with
  | nil => exact absurd (List.append_nil s).symm other
  | cons c r => exact ⟨c, r, by simp⟩

theorem take_next {x : List Char} {c : Char} (h : s ++ [c] <+: x) : x.take (s.length + 1) = s ++ [c] := by
  have := List.prefix_iff_eq_take.1 h
  rw [List.length_append, List.length_singleton] at this
  exact this.symm

theorem Reads.extend (h : Reads keys w) (key : List Char) :
    Reads (keys ++ [key]) (RadixNode.extend w key) where
  read s := by
    rw [extend_ne_none, h.read, or_assoc]
    simp [or_and_right, exists_or]
  node s := by
    rw [extend_node, h.node, branches_concat]
    constructor
    · rintro ((rfl | inserted | branches) | rfl | ⟨front, whole, inside, off⟩)
      · exact Or.inl rfl
      · exact Or.inr (Or.inl (List.mem_append_left _ inserted))
      · exact Or.inr (Or.inr (Or.inl branches))
      · exact Or.inr (Or.inl (by simp))
      · -- the text is inside an edge of a key, and the new key leaves it there
        have known : ¬ (s = [] ∨ s ∈ keys ∨ Branches keys s) := by
          rw [← h.node, inside]
          simp
        obtain ⟨x, hx, read⟩ :=
          ((h.read s).1 (by simp [inside])).resolve_left fun empty => known (Or.inl empty)
        obtain ⟨c, front'⟩ := exists_next read fun same => known (Or.inr (Or.inl (same ▸ hx)))
        obtain ⟨d, front⟩ := exists_next front whole
        rw [take_next front] at off
        refine Or.inr (Or.inr (Or.inr ⟨c, d, ?_, ⟨x, hx, front'⟩, front⟩))
        rintro rfl
        exact (h.read _).2 (Or.inr ⟨x, hx, front'⟩) off
    · rintro (rfl | inserted | branches | ⟨c, d, different, ⟨x, hx, front'⟩, front⟩)
      · exact Or.inl (Or.inl rfl)
      · rcases List.mem_append.1 inserted with old | new
        · exact Or.inl (Or.inr (Or.inl old))
        · exact Or.inr (Or.inl (List.mem_singleton.1 new))
      · exact Or.inl (Or.inr (Or.inr branches))
      · by_cases known : s = [] ∨ s ∈ keys ∨ Branches keys s
        · exact Or.inl known
        · have read : w s ≠ none := (h.read s).2 (Or.inr ⟨x, hx, (List.prefix_append s [c]).trans front'⟩)
          have unread : w (s ++ [d]) = none := by
            by_contra other
            obtain ⟨y, hy, back⟩ := ((h.read _).1 other).resolve_left (by simp)
            exact known (Or.inr (Or.inr ⟨c, d, different, ⟨x, hx, front'⟩, y, hy, back⟩))
          have inside : w s = some .inside := by
            rw [← h.node] at known
            cases place : w s with
            | none => exact absurd place read
            | some p =>
              cases p with
              | node isEnd => exact absurd ⟨isEnd, place⟩ known
              | inside => rfl
          refine Or.inr (Or.inr ⟨(List.prefix_append s [d]).trans front, ?_,
            inside, by rwa [take_next front]⟩)
          rintro rfl
          have := front.length_le
          rw [List.length_append, List.length_singleton] at this
          omega
  ends s := by
    have inside : w s ≠ some .inside ↔ w s = none ∨ ∃ isEnd, w s = some (.node isEnd) := by
      cases w s with
      | none => simp
      | some place => cases place <;> simp
    rw [extend_ends, h.ends, kept_concat, inside, h.node, ← not_not (a := w s = none), ← ne_eq, h.read]
    by_cases root : s = []
    · simp [root]
    · simp only [root, false_or]
      rw [or_comm (b := s ∈ keys ∨ Branches keys s), or_assoc]

/-! ## Keys that part inside a character -/

theorem PartInside.symm {x y : List Char} (h : PartInside x y) : PartInside y x := by
  obtain ⟨u, c, d, r, r', hx, hy, different, same⟩ := h
  exact ⟨u, d, c, r', r, hy, hx, different.symm, same.symm⟩

theorem not_partInside_self (x : List Char) : ¬ PartInside x x := by
  rintro ⟨u, c, d, r, r', rfl, split, different, -⟩
  exact different (List.cons.inj (List.append_cancel_left split)).1

theorem Reads.clash_iff (h : Reads keys w) : Clash w key ↔ ∃ x ∈ keys, PartInside x key := by
  constructor
  · rintro ⟨u, c, d, r, read, split, different, same⟩
    obtain ⟨x, hx, r', rfl⟩ := ((h.read _).1 read).resolve_left (by simp)
    exact ⟨_, hx, u, c, d, r', r, by simp, split, different, same⟩
  · rintro ⟨x, hx, u, c, d, r, r', rfl, split, different, same⟩
    exact ⟨u, c, d, r', (h.read _).2 (Or.inr ⟨_, hx, r, by simp⟩), split, different, same⟩

/-- Two of the keys part inside a character. -/
def SomePart (keys : List (List Char)) : Prop := ∃ x ∈ keys, ∃ y ∈ keys, PartInside x y

theorem somePart_concat : SomePart (keys ++ [key]) ↔ SomePart keys ∨ ∃ x ∈ keys, PartInside x key := by
  constructor
  · rintro ⟨x, hx, y, hy, parted⟩
    rcases List.mem_append.1 hx with hx | hx <;> rcases List.mem_append.1 hy with hy | hy
    · exact Or.inl ⟨x, hx, y, hy, parted⟩
    · exact Or.inr ⟨x, hx, List.mem_singleton.1 hy ▸ parted⟩
    · exact Or.inr ⟨y, hy, (List.mem_singleton.1 hx ▸ parted).symm⟩
    · rw [List.mem_singleton] at hx hy
      rw [hx, hy] at parted
      exact absurd parted (not_partInside_self key)
  · rintro (⟨x, hx, y, hy, parted⟩ | ⟨x, hx, parted⟩)
    · exact ⟨x, List.mem_append_left _ hx, y, List.mem_append_left _ hy, parted⟩
    · exact ⟨x, List.mem_append_left _ hx, key, by simp, parted⟩

end Extension

end RadixNode

namespace RadixTree

open RadixNode

/-- The texts of the inserted keys. -/
def texts (entries : List (String × Option String)) : List (List Char) := entries.map fun e => e.1.toList

/-- What is known of the tree after some insertions; a panic comes from keys that part inside a character. -/
def Built (entries : List (String × Option String)) : Option RadixTree → Prop
  | none => SomePart (texts entries)
  | some t => ¬ SomePart (texts entries) ∧ t.root.pfx = [] ∧ Reads (texts entries) t.root.walk

theorem reads_new : Reads [] new.root.walk where
  read s := by
    cases s <;> simp [new, walk, walkChild]
  node s := by
    cases s <;> simp [new, walk, walkChild, Branches]
  ends s := by
    cases s <;> simp [new, walk, walkChild, Kept]

theorem build_concat (entries : List (String × Option String)) (e : String × Option String) :
    build (entries ++ [e]) = (build entries).bind fun t => t.insert e.1 e.2 := by
  rw [build, List.foldlM_append, Option.bind_eq_bind]
  refine Option.bind_congr fun t _ => ?_
  rw [List.foldlM_cons, Option.bind_eq_bind]
  cases t.insert e.1 e.2 <;> rfl

theorem texts_concat (entries : List (String × Option String)) (e : String × Option String) :
    texts (entries ++ [e]) = texts entries ++ [e.1.toList] := List.map_append

theorem built (entries : List (String × Option String)) : Built entries (build entries) := by
  induction entries using List.reverseRecOn with
  | nil => exact ⟨by simp [SomePart, texts], rfl, reads_new⟩
  | append_singleton entries e ih =>
    rw [build_concat]
    cases h : build entries with
    | none =>
      rw [h] at ih
      show SomePart _
      rw [texts_concat, somePart_concat]
      exact Or.inl ih
    | some t =>
      rw [h] at ih
      obtain ⟨clear, root, reads⟩ := ih
      have inserted : Inserted t.root e.1.toList (t.root.insert e.1.toList e.2) :=
        inserted_insert _ _ (Or.inl root)
      rw [Option.bind_some, RadixTree.insert]
      cases result : t.root.insert e.1.toList e.2 with
      | none =>
        rw [result] at inserted
        show SomePart _
        rw [texts_concat, somePart_concat, ← reads.clash_iff]
        exact Or.inr inserted
      | some root' =>
        rw [result] at inserted
        obtain ⟨apart, walks, first⟩ := inserted
        refine ⟨?_, ?_, ?_⟩
        · rw [texts_concat, somePart_concat, ← reads.clash_iff]
          exact not_or.2 ⟨clear, apart⟩
        · rw [← firstByte_eq_none_iff, first, root, firstByte_nil]
        · rw [texts_concat]
          show Reads _ root'.walk
          rw [walks]
          exact reads.extend _

/-! ## The set of the keys -/

/-- The tree is the set of its keys. -/
def IsSet (entries : List (String × Option String)) : Prop := ∃ t, build entries = some t ∧
  (∀ k, t.search k = some (decide (k ∈ entries.map Prod.fst))) ∧
  ∀ p : String, t.startsWith p = some (decide (∃ k ∈ entries.map Prod.fst, p.toList <+: k.toList))

/-- A key that comes only once, behind longer keys, comes behind two that go on differently. -/
def NoneLost (keys : List (List Char)) : Prop := ∀ before k after, keys = before ++ k :: after → k ≠ [] →
  k ∉ before → k ∉ after → (∃ x ∈ before, k <+: x) → Branches before k

theorem forall_kept_iff {keys : List (List Char)} : (∀ k ∈ keys, Kept keys k) ↔ NoneLost keys := by
  constructor
  · intro kept before k after split some first last longer
    obtain ⟨before', after', split', found⟩ := kept k (split ▸ by simp)
    have same := (List.append_cons_inj_of_notMem first last).1 (split.symm.trans split')
    rw [← same.1] at found
    rcases found with empty | repeated | branches | none
    · exact absurd empty some
    · exact absurd repeated first
    · exact branches
    · exact absurd longer none
  · intro found k hk
    obtain ⟨before, after, split, first⟩ := List.eq_append_cons_of_mem hk
    by_cases again : k ∈ after
    · obtain ⟨middle, after, rfl⟩ := List.append_of_mem again
      exact ⟨before ++ k :: middle, after, by simp [split], Or.inr (Or.inl (by simp))⟩
    · refine ⟨before, after, split, ?_⟩
      by_cases empty : k = []
      · exact Or.inl empty
      · by_cases longer : ∃ x ∈ before, k <+: x
        · exact Or.inr (Or.inr (Or.inl (found before k after split empty first again longer)))
        · exact Or.inr (Or.inr (Or.inr longer))

theorem toList_mem_texts {entries : List (String × Option String)} {k : String} :
    k.toList ∈ texts entries ↔ k ∈ entries.map Prod.fst := by
  simp [texts, String.toList_inj]

/-- The search of a tree is exact. -/
def Exact (t : RadixTree) (entries : List (String × Option String)) : Prop :=
  ∀ k, t.search k = some (decide (k ∈ entries.map Prod.fst))

theorem exact_iff {entries : List (String × Option String)} {t : RadixTree} (h : build entries = some t) :
    t.Exact entries ↔ ∀ k ∈ texts entries, Kept (texts entries) k := by
  have known := built entries
  rw [h] at known
  obtain ⟨-, root, reads⟩ := known
  have one : ∀ k : String, t.search k = some (decide (k ∈ entries.map Prod.fst)) ↔
      (Kept (texts entries) k.toList ↔ k.toList ∈ texts entries) := by
    intro k
    rw [RadixTree.search, search_eq _ _ (Or.inr root), Option.some.injEq, decide_eq_decide, reads.ends,
      toList_mem_texts]
  simp only [Exact, one]
  constructor
  · intro exact s hs
    have := (exact (String.ofList s)).2
    rw [String.toList_ofList] at this
    exact this hs
  · exact fun kept k => ⟨Kept.mem, kept _⟩

/-- **A radix tree is the set of its keys** just where no two keys part inside a character, no key is lost and
there is a key at all. -/
theorem isSet_iff (entries : List (String × Option String)) : IsSet entries ↔
    entries ≠ [] ∧ (∀ x ∈ texts entries, ∀ y ∈ texts entries, ¬ PartInside x y) ∧
      NoneLost (texts entries) := by
  have apart : (∀ x ∈ texts entries, ∀ y ∈ texts entries, ¬ PartInside x y) ↔ ¬ SomePart (texts entries) := by
    simp [SomePart]
  rw [apart, ← forall_kept_iff, IsSet]
  have known := built entries
  cases h : build entries with
  | none =>
    rw [h] at known
    simp only [reduceCtorEq, false_and, exists_false, false_iff]
    exact fun cond => cond.2.1 known
  | some t =>
    rw [h] at known
    obtain ⟨clear, root, reads⟩ := known
    have searches : (∀ k, t.search k = some (decide (k ∈ entries.map Prod.fst))) ↔
        ∀ k ∈ texts entries, Kept (texts entries) k := exact_iff h
    have starts : (∀ p : String, t.startsWith p =
        some (decide (∃ k ∈ entries.map Prod.fst, p.toList <+: k.toList))) ↔ entries ≠ [] := by
      have one : ∀ p : String,
        t.startsWith p = some (decide (∃ k ∈ entries.map Prod.fst, p.toList <+: k.toList)) ↔
          ((p.toList = [] ∨ ∃ k ∈ entries.map Prod.fst, p.toList <+: k.toList) ↔
            ∃ k ∈ entries.map Prod.fst, p.toList <+: k.toList) := by
        intro p
        have keys : (∃ x ∈ texts entries, p.toList <+: x) ↔
          ∃ k ∈ entries.map Prod.fst, p.toList <+: k.toList := by
          simp [texts]
        rw [RadixTree.startsWith, startsWith_eq, Option.some.injEq, decide_eq_decide, reads.read, keys]
      simp only [one]
      constructor
      · rintro exact rfl
        simpa using (exact "").1 (Or.inl rfl)
      · intro some p
        refine or_iff_right_of_imp fun empty => ?_
        obtain ⟨e, he⟩ := List.exists_mem_of_ne_nil _ some
        exact ⟨e.1, List.mem_map_of_mem he, empty ▸ List.nil_prefix⟩
    simp only [Option.some.injEq, exists_eq_left', searches, starts]
    exact ⟨fun h => ⟨h.2, clear, h.1⟩, fun h => ⟨h.2.2, h.1⟩⟩

/-- The node of a key that ends inside an edge is not marked. -/
theorem not_isSet : ((build [("abc", none), ("ab", none)]).bind fun t => t.search "ab") = some false ∧
    ¬ IsSet [("abc", none), ("ab", none)] := by
  have lost : ((build [("abc", none), ("ab", none)]).bind fun t => t.search "ab") = some false := by decide
  refine ⟨lost, ?_⟩
  rintro ⟨t, found, search, -⟩
  rw [found, Option.bind_some, search] at lost
  exact absurd lost (by decide)

end RadixTree

end TORdex
