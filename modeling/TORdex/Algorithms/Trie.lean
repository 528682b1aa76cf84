import Mathlib.Algebra.Order.BigOperators.Group.List
import Mathlib.Algebra.Order.Group.Nat
import Mathlib.Data.List.Nodup
import Mathlib.Logic.Function.Basic
import TORdex.Lib.Utf8

/-!
# The trie

A node has a child for some of the bytes.  The order in which a hash map lists its entries is open: it is a
parameter that may be another one at every node.
-/

namespace TORdex

open Utf8

/-- A node, with its children by their bytes. -/
structure Trie where
  children : UInt8 → Option Trie
  isEnd : Bool
  value : Option String

namespace Trie

/-- Without keys. -/
def new : Trie := ⟨fun _ => none, false, none⟩

/-- The loop of `insert`. -/
def insertBytes (value : Option String) : List UInt8 → Trie → Trie
  | [], node => { node with isEnd := true, value := value.or node.value }
  | byte :: rest, node =>
    let child := (node.children byte).getD new
    { node with children := Function.update node.children byte (some (insertBytes value rest child)) }

/-- Insert a key. -/
def insert (t : Trie) (key : String) (value : Option String) : Trie := insertBytes value (bytes key.toList) t

/-- The loop of `find_node`. -/
def findBytes : List UInt8 → Trie → Option Trie
  | [], node => some node
  | byte :: rest, node => (node.children byte).bind (findBytes rest)

/-- The node of a text. -/
def findNode (t : Trie) (key : String) : Option Trie := findBytes (bytes key.toList) t

/-- The key is in the trie. -/
def search (t : Trie) (key : String) : Bool := ((t.findNode key).map isEnd).getD false

/-- The loop of `longest_prefix`.  What matched is read off the first place of the byte in the text, byte by
byte. -/
def longestPrefixLoop (text : List UInt8) : List UInt8 → Trie → Option String → Option String
  | [], _, lastMatch => lastMatch
  | byte :: rest, node, lastMatch =>
    match node.children byte with
    | none => lastMatch
    | some child =>
      let position := (text.idxOf? byte).getD 0
      longestPrefixLoop text rest child
        (if child.isEnd then some (String.ofList ((text.take (position + 1)).map latin1)) else lastMatch)

/-- The longest key that the text starts with. -/
def longestPrefix (t : Trie) (s : String) : Option String :=
  longestPrefixLoop (bytes s.toList) (bytes s.toList) t none

mutual

/-- The keys below a node. -/
def collectKeys (order : String → List UInt8) : Trie → String → List String
  | ⟨children, isEnd, _⟩, path =>
    (if isEnd then [path] else []) ++
      (order path).flatMap fun byte => collectChild order (children byte) (path.push (latin1 byte))

/-- The keys below an entry of the map of children. -/
def collectChild (order : String → List UInt8) : Option Trie → String → List String
  | none, _ => []
  | some child, path => collectKeys order child path

end

/-- The keys below the node of a text. -/
def keysWithPrefix (order : String → List UInt8) (t : Trie) (front : String) : List String :=
  match t.findNode front with
  | some node => collectKeys order node front
  | none => []

/-- A trie after some insertions. -/
def build (entries : List (String × Option String)) : Trie := entries.foldl (fun t e => t.insert e.1 e.2) new

/-- The bytes lead to the end of a key. -/
def Ends (t : Trie) (key : List UInt8) : Prop := ∃ node, findBytes key t = some node ∧ node.isEnd = true

/-! ## Which keys end in a trie -/

section Ends

variable {t : Trie} {byte : UInt8} {key rest : List UInt8} {value : Option String}

@[simp] theorem ends_nil : t.Ends [] ↔ t.isEnd = true := by simp [Ends, findBytes]

@[simp] theorem ends_cons :
    t.Ends (byte :: rest) ↔ ∃ child, t.children byte = some child ∧ child.Ends rest := by
  simp only [Ends, findBytes, Option.bind_eq_some_iff]
  constructor
  · rintro ⟨node, ⟨child, found, h⟩, last⟩
    exact ⟨child, found, node, h, last⟩
  · rintro ⟨child, found, node, h, last⟩
    exact ⟨node, ⟨child, found, h⟩, last⟩

theorem not_ends_new : ¬ new.Ends key := by
  cases key <;> simp [new]

theorem ends_append (front : List UInt8) :
    t.Ends (front ++ rest) ↔ ∃ node, findBytes front t = some node ∧ node.Ends rest := by
  induction front generalizing t with
  | nil => simp [findBytes]
  | cons byte front ih =>
    simp only [List.cons_append, ends_cons, ih, findBytes, Option.bind_eq_some_iff]
    constructor
    · rintro ⟨child, found, node, h, last⟩
      exact ⟨node, ⟨child, found, h⟩, last⟩
    · rintro ⟨node, ⟨child, found, h⟩, last⟩
      exact ⟨child, found, node, h, last⟩

/-- An insertion adds its key. -/
theorem ends_insertBytes {other : List UInt8} :
    (insertBytes value key t).Ends other ↔ other = key ∨ t.Ends other := by
  induction key generalizing t other with
  | nil =>
    cases other with
    | nil => simp [insertBytes]
    | cons byte rest => simp [insertBytes]
  | cons byte key ih =>
    cases other with
    | nil => simp [insertBytes]
    | cons byte' rest =>
      by_cases same : byte' = byte
      · subst same
        cases found : t.children byte' with
        | none => simp [insertBytes, found, ih, not_ends_new]
        | some child => simp [insertBytes, found, ih]
      · simp [insertBytes, same]

theorem ends_build (entries : List (String × Option String)) :
    (build entries).Ends key ↔ ∃ k ∈ entries.map Prod.fst, bytes k.toList = key := by
  have loop : ∀ t : Trie, (entries.foldl (fun t e => t.insert e.1 e.2) t).Ends key ↔
      (∃ k ∈ entries.map Prod.fst, bytes k.toList = key) ∨ t.Ends key := by
    induction entries with
    | nil => simp
    | cons e entries ih =>
      intro t
      rw [List.foldl_cons, ih, insert, ends_insertBytes, List.map_cons, List.exists_mem_cons_iff,
        @eq_comm _ key,
        or_assoc]
      exact or_left_comm
  rw [build, loop, or_iff_left not_ends_new]

theorem search_eq_true_iff {k : String} : t.search k = true ↔ t.Ends (bytes k.toList) := by
  rw [search, findNode, Ends]
  cases findBytes (bytes k.toList) t <;> simp

/-- The trie is the set of the inserted keys. -/
theorem search_build (entries : List (String × Option String)) (k : String) :
    (build entries).search k = true ↔ k ∈ entries.map Prod.fst := by
  rw [search_eq_true_iff, ends_build]
  constructor
  · rintro ⟨k', inserted, same⟩
    rwa [← String.toList_inj.1 (bytes_injective same)]
  · exact fun inserted => ⟨k, inserted, rfl⟩

end Ends

/-! ## The keys below a node -/

/-- Induction along the children. -/
theorem induct {motive : Trie → Prop}
    (node : ∀ t : Trie, (∀ byte child, t.children byte = some child → motive child) → motive t) (t : Trie) :
    motive t := by
  refine @Trie.rec motive (fun entry => ∀ child, entry = some child → motive child) ?_ ?_ ?_ t
  · intro children isEnd value below
    exact node ⟨children, isEnd, value⟩ below
  · intro child h
    cases h
  · intro child h other same
    exact Option.some.inj same ▸ h

/-- A hash map lists every entry once. -/
def Iterates (order : String → List UInt8) : Prop := ∀ path, (order path).Nodup ∧ ∀ byte, byte ∈ order path

section Collected

variable {order : String → List UInt8} {t : Trie} {path s : String}

theorem mem_collectChild {entry : Option Trie} : s ∈ collectChild order entry path ↔
    ∃ child, entry = some child ∧ s ∈ collectKeys order child path := by
  cases entry <;> simp [collectChild]

theorem mem_collectKeys_node : s ∈ collectKeys order t path ↔ (t.isEnd = true ∧ s = path) ∨
    ∃ byte ∈ order path, ∃ child, t.children byte = some child ∧
      s ∈ collectKeys order child (path.push (latin1 byte)) := by
  obtain ⟨children, isEnd, value⟩ := t
  rw [collectKeys, List.mem_append, List.mem_flatMap]
  simp only [mem_collectChild]
  cases isEnd <;> simp

/-- The keys that end below a node, with their bytes read as characters. -/
theorem mem_collectKeys (iterates : Iterates order) :
    s ∈ collectKeys order t path ↔ ∃ w, t.Ends w ∧ s.toList = path.toList ++ w.map latin1 := by
  induction t using induct generalizing path with
  | node t ih =>
    rw [mem_collectKeys_node]
    constructor
    · rintro (⟨last, rfl⟩ | ⟨byte, -, child, found, hs⟩)
      · exact ⟨[], ends_nil.2 last, by simp⟩
      · obtain ⟨w, hw, same⟩ := (ih byte child found).1 hs
        exact ⟨byte :: w, ends_cons.2 ⟨child, found, hw⟩, by simp [same]⟩
    · rintro ⟨w, hw, same⟩
      cases w with
      | nil =>
        rw [List.map_nil, List.append_nil] at same
        exact Or.inl ⟨ends_nil.1 hw, String.toList_inj.1 same⟩
      | cons byte w =>
        obtain ⟨child, found, hw⟩ := ends_cons.1 hw
        exact Or.inr ⟨byte, (iterates path).2 byte, child, found,
          (ih byte child found).2 ⟨w, hw, by simp [same]⟩⟩

theorem isPrefix_of_mem_collectKeys (h : s ∈ collectKeys order t path) : path.toList <+: s.toList := by
  induction t using induct generalizing path with
  | node t ih =>
    rcases mem_collectKeys_node.1 h with ⟨-, rfl⟩ | ⟨byte, -, child, found, hs⟩
    · exact List.prefix_rfl
    · have below := ih byte child found hs
      rw [String.toList_push] at below
      exact (List.prefix_append _ _).trans below

theorem nodup_collectKeys (iterates : Iterates order) : (collectKeys order t path).Nodup := by
  induction t using induct generalizing path with
  | node t ih =>
    obtain ⟨children, isEnd, value⟩ := t
    have below : ∀ byte, ∀ s ∈ collectChild order (children byte) (path.push (latin1 byte)),
        path.toList ++ [latin1 byte] <+: s.toList := by
      intro byte s hs
      obtain ⟨child, -, hs⟩ := mem_collectChild.1 hs
      simpa using isPrefix_of_mem_collectKeys hs
    rw [collectKeys, List.nodup_append', List.nodup_flatMap]
    refine ⟨by cases isEnd <;> simp, ⟨fun byte _ => ?_, ?_⟩, ?_⟩
    · cases found : children byte with
      | none => exact List.nodup_nil
      | some child => exact ih byte child found
    · -- the keys below two children part at the bytes of the children
      refine (iterates path).1.imp fun {byte byte'} different s hs hs' => different ?_
      have same := List.prefix_of_prefix_length_le (below byte s hs) (below byte' s hs') (by simp)
      have last := List.append_cancel_left (same.eq_of_length (by simp))
      exact latin1_injective (List.singleton_inj.1 last)
    · intro s hs hs'
      obtain ⟨byte, -, hs'⟩ := List.mem_flatMap.1 hs'
      have own : s = path := by
        cases isEnd <;> simp at hs
        exact hs
      have longer := (below byte s hs').length_le
      rw [own, List.length_append, List.length_singleton] at longer
      omega

end Collected

/-! ## Enumerating a prefix -/

/-- The results are the keys that begin with a text, each once. -/
structure ListsKeys (keys : List String) (front : String) (results : List String) : Prop where
  nodup : results.Nodup
  mem : ∀ s, s ∈ results ↔ s ∈ keys ∧ front.toList <+: s.toList

section Enumeration

variable {order : String → List UInt8} {entries : List (String × Option String)} {front : String}

theorem nodup_keysWithPrefix (iterates : Iterates order) (t : Trie) :
    (t.keysWithPrefix order front).Nodup := by
  unfold keysWithPrefix
  split
  · exact nodup_collectKeys iterates
  · exact List.nodup_nil

/-- What comes out for a key: the bytes behind the prefix, each as a character. -/
theorem mem_keysWithPrefix (iterates : Iterates order) {s : String} :
    s ∈ (build entries).keysWithPrefix order front ↔ ∃ k ∈ entries.map Prod.fst, ∃ rest,
      k.toList = front.toList ++ rest ∧ s.toList = front.toList ++ (bytes rest).map latin1 := by
  have found : s ∈ (build entries).keysWithPrefix order front ↔ ∃ w,
      (build entries).Ends (bytes front.toList ++ w) ∧ s.toList = front.toList ++ w.map latin1 := by
    simp only [keysWithPrefix, findNode, ends_append]
    cases findBytes (bytes front.toList) (build entries) with
    | none => simp
    | some node => simpa using mem_collectKeys iterates
  rw [found]
  constructor
  · rintro ⟨w, ends, same⟩
    obtain ⟨k, inserted, hk⟩ := (ends_build entries).1 ends
    obtain ⟨rest, split⟩ :=
      bytes_isPrefix_iff.1 (hk ▸ List.prefix_append _ _ : bytes front.toList <+: bytes k.toList)
    rw [← split, bytes_append] at hk
    exact ⟨k, inserted, rest, split.symm, by rw [same, List.append_cancel_left hk]⟩
  · rintro ⟨k, inserted, rest, split, same⟩
    refine ⟨bytes rest, (ends_build entries).2 ⟨k, inserted, ?_⟩, same⟩
    rw [split, bytes_append]

/-- **Enumerating the keys with a prefix** is exact just where they go on in ASCII: each byte behind the
prefix comes out as a character. -/
theorem keysWithPrefix_exact_iff (iterates : Iterates order) :
    ListsKeys (entries.map Prod.fst) front ((build entries).keysWithPrefix order front) ↔
      ∀ k ∈ entries.map Prod.fst, ∀ rest, k.toList = front.toList ++ rest → ∀ c ∈ rest, c.toNat < 128 := by
  constructor
  · intro exact k inserted rest split c hc
    by_contra high
    -- what comes out for a key that is not ASCII is a longer key that is not ASCII
    have longer : ∀ n, ∃ k ∈ entries.map Prod.fst, ∃ rest, k.toList = front.toList ++ rest ∧
        (∃ c ∈ rest, ¬ c.toNat < 128) ∧ n ≤ rest.length := by
      intro n
      induction n with
      | zero => exact ⟨k, inserted, rest, split, ⟨c, hc, high⟩, Nat.zero_le _⟩
      | succ n ih =>
        obtain ⟨k, inserted, rest, split, ⟨c, hc, high⟩, long⟩ := ih
        obtain ⟨more, b, hb, beyond⟩ := bytes_of_not_ascii hc high
        have out := (mem_keysWithPrefix iterates).2 ⟨k, inserted, rest, split, String.toList_ofList⟩
        refine ⟨_, ((exact.mem _).1 out).1, _, String.toList_ofList,
          ⟨latin1 b, List.mem_map_of_mem hb, ?_⟩, ?_⟩
        · rw [toNat_latin1]
          omega
        · rw [List.length_map, length_bytes]
          omega
    obtain ⟨k, inserted, rest, split, -, long⟩ := longer (((entries.map Prod.fst).map String.length).sum + 1)
    have bound : k.length ≤ ((entries.map Prod.fst).map String.length).sum :=
      List.single_le_sum (fun _ _ => Nat.zero_le _) _ (List.mem_map_of_mem inserted)
    have length : k.length = front.toList.length + rest.length := by
      rw [← String.length_toList, split, List.length_append]
    omega
  · intro ascii
    refine ⟨nodup_keysWithPrefix iterates _, fun s => ?_⟩
    rw [mem_keysWithPrefix iterates]
    constructor
    · rintro ⟨k, inserted, rest, split, same⟩
      rw [map_latin1_bytes (ascii k inserted rest split), ← split] at same
      rw [String.toList_inj.1 same]
      exact ⟨inserted, rest, split.symm⟩
    · rintro ⟨inserted, rest, split⟩
      exact ⟨s, inserted, rest,
        split.symm, by rw [map_latin1_bytes (ascii s inserted rest split.symm), split]⟩

/-- The bytes in increasing order. -/
def increasing (_ : String) : List UInt8 := (List.range 256).map UInt8.ofNat

theorem iterates_increasing : Iterates increasing := by
  refine fun _ => ⟨List.nodup_range.map_on fun m hm n hn same => ?_, fun byte => ?_⟩
  · have values := congrArg UInt8.toNat same
    rw [List.mem_range] at hm hn
    rwa [UInt8.toNat_ofNat', UInt8.toNat_ofNat', Nat.mod_eq_of_lt hm, Nat.mod_eq_of_lt hn] at values
  · exact List.mem_map.2 ⟨byte.toNat, List.mem_range.2 byte.toNat_lt, UInt8.ofNat_toNat⟩

theorem keysWithPrefix_exact_sample : Iterates increasing ∧
    (ListsKeys ["tea", "ten"] "te"
      ((build [("tea", none), ("ten", some "10")]).keysWithPrefix increasing "te") ↔
      ∀ k ∈ ["tea", "ten"], ∀ rest, k.toList = "te".toList ++ rest → ∀ c ∈ rest, c.toNat < 128) :=
  ⟨iterates_increasing,
    @keysWithPrefix_exact_iff increasing [("tea", none), ("ten", some "10")] "te" iterates_increasing⟩

/-- The é comes out as its two bytes. -/
theorem not_keysWithPrefix_exact : Iterates increasing ∧
    "caf\u00c3\u00a9" ∈ (build [("café", none)]).keysWithPrefix increasing "" ∧
    ¬ ListsKeys ["café"] "" ((build [("café", none)]).keysWithPrefix increasing "") := by
  have out : "caf\u00c3\u00a9" ∈ (build [("café", none)]).keysWithPrefix increasing "" := by
    refine (mem_keysWithPrefix iterates_increasing).2 ⟨"café", List.mem_singleton.2 rfl, "café".toList,
      ?_, ?_⟩
    · decide
    · decide
  refine ⟨iterates_increasing, out, fun exact => ?_⟩
  exact absurd ((exact.mem _).1 out).1 (by decide)

end Enumeration

end Trie

end TORdex
