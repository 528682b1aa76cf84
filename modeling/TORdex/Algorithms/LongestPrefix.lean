import TORdex.Algorithms.RadixLongest
import TORdex.Algorithms.Trie
import TORdex.Lib.Latin1
import TORdex.Lib.BackwardSearch

/-!
# The longest prefix in both tries

Over a radix tree whose search is exact, and over the trie of the same keys.
-/

namespace TORdex

open ByteOffsets Utf8

/-- The longest non-empty key at the beginning of a text. -/
def IsLongest (keys : List (List Char)) (s : List Char) : Option (List Char) → Prop
  | none => ∀ k ∈ keys, k ≠ [] → ¬ k <+: s
  | some y => (y ∈ keys ∧ y ≠ [] ∧ y <+: s) ∧ ∀ k ∈ keys, k ≠ [] → k <+: s → k.length ≤ y.length

/-! ## The radix tree -/

namespace RadixNode

theorem Blocked.key {K : List Char → Prop} {t : RadixNode} {s q : List Char} (h : Blocked t s q)
    (shaped : Shaped K t) :
    K q ∧ q ≠ [] ∧ q <+: s := by
  induction h generalizing K with
  | here rest empty =>
    cases shaped with
    | node shapes apart below =>
      obtain ⟨xs, c, ys, rfl, edge, -⟩ := empty
      obtain ⟨-, -, some, key⟩ := shapes c (by simp) edge
      exact ⟨key, some, List.prefix_append _ _⟩
  | deeper child leads blocked ih =>
    cases shaped with
    | node shapes apart below =>
      obtain ⟨key, some, front⟩ := ih (below _ child)
      exact ⟨key, by simp [some], (List.prefix_append_right_inj _).2 front⟩

end RadixNode

namespace RadixTree

open RadixNode

variable {entries : List (String × Option String)} {t : RadixTree}

theorem Exact.walk_iff (exact : t.Exact entries) (root : t.root.pfx = []) (s : List Char) :
    t.root.walk s = some (.node true) ↔ s ∈ texts entries := by
  have h := exact (String.ofList s)
  rw [RadixTree.search, search_eq _ _ (Or.inr root), Option.some.injEq, decide_eq_decide, ← toList_mem_texts,
    String.toList_ofList] at h
  exact h

/-- What the tree must be like at a text. -/
structure Clear (t : RadixTree) (keys : List (List Char)) (s : List Char) : Prop where
  empty : [] ∈ keys → ∃ k ∈ keys, k ≠ [] ∧ k <+: s
  blocked : ∀ q, Blocked t.root s q → ∀ k ∈ keys, k <+: s → k.length ≤ q.length
  overrun : s ≠ [] → Overrun t.root s → ∃ q, Blocked t.root s q

section Longest

variable {keys : List (List Char)} {s : List Char} {result : Option (List Char)}

/-- In front of the empty text there is only the empty key, which does not count. -/
theorem isLongest_nil_iff (shaped : Shaped (· ∈ keys) t.root) :
    IsLongest keys [] (if [] ∈ keys then some [] else none) ↔ Clear t keys [] := by
  split_ifs with key
  · refine iff_of_false (fun h => h.1.2.1 rfl) fun clear => ?_
    obtain ⟨k, -, some, front⟩ := clear.empty key
    exact some (List.prefix_nil.1 front)
  · refine iff_of_true (fun k _ some front => some (List.prefix_nil.1 front))
      ⟨fun h => absurd h key, fun q h => ?_, ?_⟩
    · obtain ⟨-, some, front⟩ := h.key shaped
      exact absurd (List.prefix_nil.1 front) some
    · exact fun some => absurd rfl some

/-- The first text at which the search is blocked. -/
theorem isLongest_blocked_iff {q : List Char} (shaped : Shaped (· ∈ keys) t.root) (own : Blocked t.root s q)
    (least : ∀ q', Blocked t.root s q' → q.length ≤ q'.length) : IsLongest keys s (some q) ↔
      Clear t keys s := by
  obtain ⟨key, some, front⟩ := own.key shaped
  constructor
  · rintro ⟨-, most⟩
    refine ⟨fun _ => ⟨q, key, some, front⟩, fun q' h k hk hs => ?_, fun _ _ => ⟨q, own⟩⟩
    by_cases empty : k = []
    · rw [empty]
      exact Nat.zero_le _
    · exact (most k hk empty hs).trans (least q' h)
  · intro clear
    exact ⟨⟨key, some, front⟩, fun k hk _ hs => clear.blocked q own k hk hs⟩

/-- The longest key, where nothing stands in the way. -/
theorem isLongest_free_iff (walk_iff : ∀ s, t.root.walk s = some (.node true) ↔ s ∈ keys)
    (free : ∀ q, ¬ Blocked t.root s q) (short : ¬ Overrun t.root s) (longest : LongestAt t.root s result) :
    IsLongest keys s result ↔ Clear t keys s := by
  have unblocked : ∀ q, Blocked t.root s q → ∀ k ∈ keys, k <+: s → k.length ≤ q.length :=
    fun q h => absurd h (free q)
  have inside : s ≠ [] → Overrun t.root s → ∃ q, Blocked t.root s q := fun _ h => absurd h short
  cases result with
  | none =>
    have nothing : ∀ k ∈ keys, ¬ k <+: s := fun k hk front => longest k front ((walk_iff k).2 hk)
    exact iff_of_true (fun k hk _ => nothing k hk) ⟨fun empty => absurd List.nil_prefix (nothing [] empty),
      unblocked, inside⟩
  | some y =>
    obtain ⟨key, front, most⟩ := longest
    constructor
    · rintro ⟨⟨-, some, -⟩, -⟩
      exact ⟨fun _ => ⟨y, (walk_iff y).1 key, some, front⟩, unblocked, inside⟩
    · intro clear
      have some : y ≠ [] := by
        rintro rfl
        obtain ⟨k, hk, some, front'⟩ := clear.empty ((walk_iff []).1 key)
        have := most k front' ((walk_iff k).2 hk)
        exact some (List.length_eq_zero_iff.1 (Nat.le_zero.1 this))
      exact ⟨⟨(walk_iff y).1 key, some, front⟩, fun k hk _ hs => most k hs ((walk_iff k).2 hk)⟩

end Longest

/-- The radix tree finds the longest key just where no empty edge hides a longer one, the text does not end
before a longer key that is found instead, and the empty key is not the only one. -/
theorem longestPrefix_iff (h : build entries = some t) (exact : t.Exact entries) (s : String) :
    (∃ result, t.longestPrefix s = some result ∧
      IsLongest (texts entries) s.toList (result.map String.toList)) ↔
      Clear t (texts entries) s.toList := by
  have known := built entries
  rw [h] at known
  obtain ⟨-, root, -⟩ := known
  have shaped := shaped_build h
  have walk_iff := exact.walk_iff root
  have result_iff : ∀ result, t.root.longestPrefix s.toList = some result →
      ((∃ result, t.longestPrefix s = some result ∧
        IsLongest (texts entries) s.toList (result.map String.toList)) ↔
        IsLongest (texts entries) s.toList result) := by
    intro result found
    have same : (result.map String.ofList).map String.toList = result := by
      cases result <;> simp
    rw [RadixTree.longestPrefix, found, Option.map_some]
    simp only [Option.some.injEq, exists_eq_left', same]
  by_cases text : s.toList = []
  · have empty := walk_iff []
    have found : t.root.longestPrefix [] = some (if [] ∈ texts entries then some [] else none) := by
      obtain ⟨⟨pfx, children, isEnd, value⟩⟩ := t
      obtain rfl : pfx = [] := root
      rw [walk_root_nil] at empty
      rw [longestPrefix_nil]
      cases isEnd <;> simp [← empty]
    rw [result_iff _ (text ▸ found), text]
    exact isLongest_nil_iff shaped
  · obtain ⟨result, found, outcome⟩ := outcome_longestPrefix shaped (fun x _ key => (walk_iff x).2 key) text
    rw [result_iff result found]
    rcases outcome with ⟨q, rfl, own, least⟩ | ⟨free, ⟨y, rfl, runs, longer⟩ | ⟨short, longest⟩⟩
    · exact isLongest_blocked_iff shaped own least
    · -- the result is longer than the text
      refine iff_of_false ?_ fun clear => ?_
      · rintro ⟨⟨-, -, front⟩, -⟩
        have := front.length_le
        omega
      · obtain ⟨q, h⟩ := clear.overrun text runs
        exact absurd h (free q)
    · exact isLongest_free_iff walk_iff free short longest

end RadixTree

/-! ## The trie -/

namespace Trie

/-- The bytes of a text up to the first place of a byte, each as a character. -/
def echo (text : List UInt8) (byte : UInt8) : List Char :=
  (text.take ((text.idxOf? byte).getD 0 + 1)).map latin1

/-- The loop goes on to the end of the longest key, and takes its last byte for the length. -/
theorem longestPrefixLoop_spec (text rest : List UInt8) (node : Trie) (last : Option String) :
    ((∀ w, w ≠ [] → w <+: rest → ¬ node.Ends w) ∧ longestPrefixLoop text rest node last = last) ∨
      ∃ w byte, w ++ [byte] <+: rest ∧ node.Ends (w ++ [byte]) ∧
        (∀ w', w' ≠ [] → w' <+: rest → node.Ends w' → w'.length ≤ (w ++ [byte]).length) ∧
        longestPrefixLoop text rest node last = some (String.ofList (echo text byte)) := by
  induction rest generalizing node last with
  | nil => exact Or.inl ⟨fun w some front => absurd (List.prefix_nil.1 front) some, rfl⟩
  | cons byte rest ih =>
    rw [longestPrefixLoop]
    cases found : node.children byte with
    | none =>
      refine Or.inl ⟨fun w some front ends => ?_, rfl⟩
      obtain ⟨b, w, rfl⟩ := List.exists_cons_of_ne_nil some
      obtain ⟨rfl, -⟩ := List.cons_prefix_cons.1 front
      obtain ⟨child, h, -⟩ := ends_cons.1 ends
      rw [found] at h
      cases h
    | some child =>
      have deeper : ∀ w, node.Ends (byte :: w) ↔ child.Ends w := fun w => by
        rw [ends_cons, found]
        simp
      dsimp only
      rcases ih child _ with ⟨nothing, result⟩ | ⟨w, b, front, ends, most, result⟩
      · rw [result]
        by_cases last : child.isEnd = true
        · refine Or.inr ⟨[], byte, by simp, (deeper []).2 (ends_nil.2 last), fun w' some front' ends' =>
            ?_, if_pos last⟩
          obtain ⟨b, w', rfl⟩ := List.exists_cons_of_ne_nil some
          obtain ⟨rfl, inner⟩ := List.cons_prefix_cons.1 front'
          by_cases empty : w' = []
          · simp [empty]
          · exact absurd ((deeper w').1 ends') (nothing w' empty inner)
        · refine Or.inl ⟨fun w' some front' ends' => ?_, if_neg last⟩
          obtain ⟨b, w', rfl⟩ := List.exists_cons_of_ne_nil some
          obtain ⟨rfl, inner⟩ := List.cons_prefix_cons.1 front'
          by_cases empty : w' = []
          · exact last (ends_nil.1 ((deeper []).1 (empty ▸ ends')))
          · exact nothing w' empty inner ((deeper w').1 ends')
      · refine Or.inr ⟨byte :: w, b, ?_, (deeper _).2 ends, fun w' some front' ends' => ?_, result⟩
        · rw [List.cons_append]
          exact List.cons_prefix_cons.2 ⟨rfl, front⟩
        · obtain ⟨b', w', rfl⟩ := List.exists_cons_of_ne_nil some
          obtain ⟨rfl, inner⟩ := List.cons_prefix_cons.1 front'
          by_cases empty : w' = []
          · simp [empty]
          · simpa using most w' empty inner ((deeper w').1 ends')

theorem echo_append {x y : List UInt8} {byte : UInt8} (first : byte ∉ x) :
    echo (x ++ byte :: y) byte = (x ++ [byte]).map latin1 := by
  rw [echo, Positions.idxOf_first first, Option.getD_some, List.take_length_add_append]
  rfl

variable {entries : List (String × Option String)}

theorem isLongest_unique {keys : List (List Char)} {s k k' : List Char} (h : IsLongest keys s (some k))
    (h' : IsLongest keys s (some k')) : k = k' := by
  obtain ⟨⟨key, text, front⟩, most⟩ := h
  obtain ⟨⟨key', text', front'⟩, most'⟩ := h'
  have le := most' k key text front
  exact (List.prefix_of_prefix_length_le front front' le).eq_of_length_le (most k' key' text' front')

/-- The trie finds the longest key just where it is read back from its bytes up to the first place of the last
byte. -/
theorem longestPrefix_iff (entries : List (String × Option String)) (s : String) :
    IsLongest (RadixTree.texts entries) s.toList (((build entries).longestPrefix s).map String.toList) ↔
      ∀ k, IsLongest (RadixTree.texts entries) s.toList (some k) → Echoed k := by
  have ends : ∀ w, (build entries).Ends w ↔ ∃ k ∈ RadixTree.texts entries, bytes k = w := by
    intro w
    rw [ends_build]
    simp [RadixTree.texts]
  rw [longestPrefix]
  rcases longestPrefixLoop_spec (bytes s.toList) (bytes s.toList) (build entries) none with
    ⟨nothing, result⟩ | ⟨w, b, front, found, most, result⟩
  · have none : ∀ k ∈ RadixTree.texts entries, k ≠ [] → ¬ k <+: s.toList := by
      intro k hk text front
      refine nothing (bytes k) ?_ (bytes_isPrefix_iff.2 front) ((ends _).2 ⟨k, hk, rfl⟩)
      exact fun empty => text (bytes_injective (empty.trans bytes_nil.symm))
    rw [result]
    exact iff_of_true none fun k h => absurd h.1.2.2 (none k h.1.1 h.1.2.1)
  · obtain ⟨k, key, last⟩ := (ends _).1 found
    rw [← last] at front most
    have text : k ≠ [] := by
      rintro rfl
      simp at last
    have prefixes := bytes_isPrefix_iff.1 front
    have longest : IsLongest (RadixTree.texts entries) s.toList (some k) := by
      refine ⟨⟨key, text, prefixes⟩, fun k' hk' text' front' => ?_⟩
      have some : bytes k' ≠ [] := fun empty => text' (bytes_injective (empty.trans bytes_nil.symm))
      have shorter := most (bytes k') some (bytes_isPrefix_iff.2 front') ((ends _).2 ⟨k', hk', rfl⟩)
      have inside := List.prefix_of_prefix_length_le (bytes_isPrefix_iff.2 front') front shorter
      exact (bytes_isPrefix_iff.1 inside).length_le
    obtain ⟨x, y, split, first⟩ := List.eq_append_cons_of_mem (show b ∈ bytes k by simp [last])
    obtain ⟨rest, whole⟩ := front
    have read : echo (bytes s.toList) b = (x ++ [b]).map latin1 := by
      rw [← whole, split, List.append_assoc, List.cons_append]
      exact echo_append first
    rw [result, Option.map_some, String.toList_ofList, read]
    have echoed := echoed_iff split first last
    constructor
    · intro h k' h'
      rw [isLongest_unique h' longest, ← echoed]
      exact isLongest_unique h longest
    · intro cond
      rw [echoed.2 (cond k longest)]
      exact longest

end Trie

/-! ## Both tries -/

/-- **The longest prefix in both tries**, over a radix tree whose search is exact. -/
theorem tries_longestPrefix_iff {entries : List (String × Option String)} {t : RadixTree}
    (h : RadixTree.build entries = some t) (exact : t.Exact entries) (s : String) :
    (IsLongest (RadixTree.texts entries) s.toList (((Trie.build entries).longestPrefix s).map String.toList) ∧
      ∃ result, t.longestPrefix s = some result ∧
        IsLongest (RadixTree.texts entries) s.toList (result.map String.toList)) ↔
    (∀ k, IsLongest (RadixTree.texts entries) s.toList (some k) → Echoed k) ∧
      t.Clear (RadixTree.texts entries) s.toList := by
  rw [Trie.longestPrefix_iff, RadixTree.longestPrefix_iff h exact]

/-- The keys aa and aab. -/
def twoKeys : List (String × Option String) := [("aa", none), ("aab", none)]

/-- A tree with a key and another one below it. -/
def twoKeysTree : RadixTree := ⟨⟨[], [⟨['a', 'a'], [⟨['b'], [], true, none⟩], true, none⟩], false, none⟩⟩

theorem build_twoKeys : RadixTree.build twoKeys = some twoKeysTree := by rfl

theorem exact_twoKeys : twoKeysTree.Exact twoKeys := by
  refine (RadixTree.exact_iff build_twoKeys).2 ?_
  have texts : RadixTree.texts twoKeys = [['a', 'a'], ['a', 'a', 'b']] := by decide
  rw [texts]
  refine List.forall_mem_cons.2 ⟨⟨[], [['a', 'a', 'b']], rfl, by simp⟩, List.forall_mem_singleton.2 ?_⟩
  exact ⟨[['a', 'a']], [], rfl, Or.inr (Or.inr (Or.inr (by decide)))⟩

theorem tries_longestPrefix_sample :
    (IsLongest (RadixTree.texts twoKeys) "aabb".toList
      (((Trie.build twoKeys).longestPrefix "aabb").map String.toList) ∧
      ∃ result, twoKeysTree.longestPrefix "aabb" = some result ∧
        IsLongest (RadixTree.texts twoKeys) "aabb".toList (result.map String.toList)) ↔
    (∀ k, IsLongest (RadixTree.texts twoKeys) "aabb".toList (some k) → Echoed k) ∧
      twoKeysTree.Clear (RadixTree.texts twoKeys) "aabb".toList :=
  tries_longestPrefix_iff build_twoKeys exact_twoKeys "aabb"

/-- For the text aa the trie returns a, and the radix tree aab. -/
theorem not_tries_longestPrefix : (RadixTree.build twoKeys = some twoKeysTree ∧ twoKeysTree.Exact twoKeys) ∧
    ((Trie.build twoKeys).longestPrefix "aa" = some "a" ∧
      twoKeysTree.longestPrefix "aa" = some (some "aab")) ∧
    ¬ IsLongest (RadixTree.texts twoKeys) "aa".toList
      (((Trie.build twoKeys).longestPrefix "aa").map String.toList) ∧
    ¬ ∃ result, twoKeysTree.longestPrefix "aa" = some result ∧
      IsLongest (RadixTree.texts twoKeys) "aa".toList (result.map String.toList) := by
  have trie : (Trie.build twoKeys).longestPrefix "aa" = some "a" := by decide
  have radix : twoKeysTree.longestPrefix "aa" = some (some "aab") := by decide
  refine ⟨⟨build_twoKeys, exact_twoKeys⟩, ⟨trie, radix⟩, ?_, ?_⟩
  · rw [trie]
    exact fun h => absurd h.1.1 (by decide)
  · rintro ⟨result, found, h⟩
    rw [radix] at found
    cases found
    exact absurd h.1.2.2 (by decide)

end TORdex
