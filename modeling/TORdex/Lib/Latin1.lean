import Mathlib.Data.List.Induction
import TORdex.Lib.Utf8

/-!
# Texts that are read back from their bytes

A text is cut behind the first place of its last byte and the bytes are read as characters.  ASCII texts come
back if their last character comes at their end only.  Beyond ASCII there are two endings whose bytes begin
like the ending itself.
-/

namespace Utf8

open ByteOffsets

/-- The texts that come back. -/
def Echoed (k : List Char) : Prop :=
  (∃ a c, k = a ++ [c] ∧ (∀ d ∈ k, d.toNat < 128) ∧ c ∉ a) ∨
    ∃ a, (∀ d ∈ a, d.toNat < 128) ∧
      (k = a ++ ['Ã', '\u0083'] ∨ k = a ++ ['Ã', '\u0083', 'Â', '\u0083', 'Ã', '\u0082'])

/-- The bytes of the two endings. -/
def closed : List UInt8 := [0xC3, 0x83, 0xC2, 0x82]

theorem utf8EncodeChar_latin1 {b : UInt8} (h : 128 ≤ b.toNat) : String.utf8EncodeChar (latin1 b) =
    [UInt8.ofNat (b.toNat / 64 % 32 + 192), UInt8.ofNat (b.toNat % 64 + 128)] := by
  have small := b.toNat_lt
  have value : (latin1 b).val.toNat = b.toNat := toNat_latin1 b
  rw [String.utf8EncodeChar]
  simp only [value]
  rw [if_neg (by omega), if_pos (by omega)]

theorem utf8EncodeChar_closed {b : UInt8} (h : b ∈ closed) : ∃ x ∈ closed, ∃ y, (y = 0x83 ∨ y = 0x82) ∧
    String.utf8EncodeChar (latin1 b) = [x, y] := by
  simp only [closed, List.mem_cons, List.not_mem_nil, or_false] at h
  rcases h with rfl | rfl | rfl | rfl
  · exact ⟨0xC3, by decide, 0x83, by decide, by decide⟩
  · exact ⟨0xC2, by decide, 0x83, by decide, by decide⟩
  · exact ⟨0xC3, by decide, 0x82, by decide, by decide⟩
  · exact ⟨0xC2, by decide, 0x82, by decide, by decide⟩

/-- The only byte beyond ASCII that begins the encoding of its own character. -/
theorem eq_of_head_latin1 {b : UInt8} (h : 128 ≤ b.toNat)
    (head : (String.utf8EncodeChar (latin1 b)).head? = some b) :
    b = 0xC3 := by
  have small := b.toNat_lt
  rw [utf8EncodeChar_latin1 h, List.head?_cons, Option.some.injEq] at head
  have value := congrArg UInt8.toNat head
  rw [UInt8.toNat_ofNat'] at value
  rw [← UInt8.toNat_inj]
  show b.toNat = 195
  have quarter : b.toNat / 64 = 2 ∨ b.toNat / 64 = 3 := by omega
  rcases quarter with two | three <;> omega

section Endings

variable {m y : List UInt8} {b : UInt8}

theorem length_bytes_closed {v : List UInt8} (h : ∀ b ∈ v, b ∈ closed) :
    (bytes (v.map latin1)).length = 2 * v.length ∧ ∀ x ∈ bytes (v.map latin1), x ∈ closed := by
  induction v with
  | nil => simp
  | cons b v ih =>
    obtain ⟨first, others⟩ := List.forall_mem_cons.1 h
    obtain ⟨length, inside⟩ := ih others
    obtain ⟨x, hx, y, hy, encoded⟩ := utf8EncodeChar_closed first
    rw [List.map_cons, bytes_cons, encoded]
    constructor
    · rw [List.length_append, length, List.length_cons (a := b)]
      simp
      omega
    · refine List.forall_mem_append.2 ⟨?_, inside⟩
      refine List.forall_mem_cons.2 ⟨hx, List.forall_mem_singleton.2 ?_⟩
      rcases hy with rfl | rfl <;> decide

/-- Where bytes begin their own encoding as characters, all of them are of the endings. -/
theorem forall_closed (own : bytes (m.map latin1) = m ++ y) (high : ∀ b ∈ m.head?, 128 ≤ b.toNat) :
    ∀ v z, m = v ++ z → ∀ b ∈ v, b ∈ closed := by
  intro v
  induction v using List.reverseRecOn with
  | nil => simp
  | append_singleton v d ih =>
    intro z split
    have before := ih (d :: z) (by rw [split, List.append_assoc, List.singleton_append])
    refine List.forall_mem_append.2 ⟨before, List.forall_mem_singleton.2 ?_⟩
    cases v with
    | nil =>
      rw [List.nil_append, List.singleton_append] at split
      have beyond : 128 ≤ d.toNat := high d (by rw [split]; rfl)
      have head : (String.utf8EncodeChar (latin1 d)).head? = some d := by
        have heads := congrArg List.head? own
        rw [split, List.map_cons, bytes_cons, List.head?_append] at heads
        rw [utf8EncodeChar_latin1 beyond] at heads ⊢
        exact heads
      rw [eq_of_head_latin1 beyond head]
      decide
    | cons e v =>
      obtain ⟨length, inside⟩ := length_bytes_closed before
      have parts : bytes ((e :: v).map latin1) ++ bytes ((d :: z).map latin1) =
        (e :: v) ++ (d :: (z ++ y)) := by
        rw [← bytes_append, ← List.map_append]
        simpa [split] using own
      have place := congrArg (fun l => l[(e :: v).length]?) parts
      rw [List.getElem?_append_right le_rfl, List.getElem?_append_left (by rw [length]; simp)] at place
      refine inside d (List.mem_of_getElem? (place.trans ?_))
      simp

theorem encode_C3 : String.utf8EncodeChar (latin1 0xC3) = [0xC3, 0x83] := by decide

theorem encode_83 : String.utf8EncodeChar (latin1 0x83) = [0xC2, 0x83] := by decide

theorem encode_C2 : String.utf8EncodeChar (latin1 0xC2) = [0xC3, 0x82] := by decide

/-- The endings are the only bytes that begin their own encoding and end with its last byte, which comes
nowhere else. -/
theorem eq_ending {x w : List UInt8} (own : bytes ((x ++ [b]).map latin1) = x ++ [b] ++ y)
    (high : ∀ d ∈ (x ++ [b]).head?, 128 ≤ d.toNat) (first : b ∉ x)
    (last : bytes ((x ++ [b]).map latin1) = w ++ [b]) :
    x ++ [b] = [0xC3, 0x83] ∨ x ++ [b] = [0xC3, 0x83, 0xC2, 0x83, 0xC3, 0x82] := by
  have inside := forall_closed own high (x ++ [b]) [] (List.append_nil _).symm
  have ends : b = 0x83 ∨ b = 0x82 := by
    obtain ⟨c, -, d, hd, encoded⟩ := utf8EncodeChar_closed (inside b (by simp))
    have text : bytes ((x ++ [b]).map latin1) = bytes (x.map latin1) ++ [c] ++ [d] := by simp [encoded]
    have same := (List.append_inj' (text.symm.trans last) rfl).2
    rwa [← List.singleton_inj.1 same]
  -- the bytes are read one after the other, until one of them is the last
  cases x with
  | nil =>
    have beyond := high b rfl
    have head : (String.utf8EncodeChar (latin1 b)).head? = some b := by
      have heads := congrArg List.head? own
      simpa [utf8EncodeChar_latin1 beyond] using heads
    rw [eq_of_head_latin1 beyond head] at ends
    exact absurd ends (by decide)
  | cons x0 x =>
    have beyond := high x0 rfl
    have head : (String.utf8EncodeChar (latin1 x0)).head? = some x0 := by
      have heads := congrArg List.head? own
      simpa [utf8EncodeChar_latin1 beyond] using heads
    obtain rfl := eq_of_head_latin1 beyond head
    simp only [List.cons_append, List.map_cons, bytes_cons, encode_C3, List.cons.injEq, true_and,
      List.nil_append] at own
    cases x with
    | nil => exact Or.inl (by rw [(List.cons.inj own).1]; rfl)
    | cons x1 x =>
      obtain ⟨rfl, own⟩ := List.cons.inj own
      have last82 : b = 0x82 := ends.resolve_left fun same => first (by simp [same])
      subst last82
      simp only [List.cons_append, List.map_cons, bytes_cons, encode_83, List.nil_append] at own
      cases x with
      | nil => exact absurd (List.cons.inj own).1 (by decide)
      | cons x2 x =>
        obtain ⟨rfl, own⟩ := List.cons.inj own
        simp only [List.cons_append, List.map_cons, bytes_cons, encode_C2, List.nil_append] at own
        cases x with
        | nil => exact absurd (List.cons.inj own).1 (by decide)
        | cons x3 x =>
          obtain ⟨rfl, own⟩ := List.cons.inj own
          cases x with
          | nil => exact absurd (List.cons.inj own).1 (by decide)
          | cons x4 x =>
            obtain ⟨rfl, own⟩ := List.cons.inj own
            cases x with
            | nil => exact Or.inr rfl
            | cons x5 x =>
              obtain ⟨rfl, -⟩ := List.cons.inj own
              exact absurd (by simp) first

end Endings

section Echo

variable {k a : List Char} {x y w : List UInt8} {b : UInt8}

theorem latin1_mem (ascii : ∀ d ∈ a, d.toNat < 128) (h : b ∈ bytes a) : latin1 b ∈ a := by
  have := List.mem_map_of_mem (f := latin1) h
  rwa [map_latin1_bytes ascii] at this

theorem not_mem_bytes (ascii : ∀ d ∈ a, d.toNat < 128) (high : 128 ≤ b.toNat) : b ∉ bytes a := by
  intro h
  have := ascii _ (latin1_mem ascii h)
  rw [toNat_latin1] at this
  omega

/-- The first character beyond ASCII. -/
theorem exists_first_high (h : ¬ ∀ d ∈ k, d.toNat < 128) :
    ∃ a c r, k = a ++ c :: r ∧ (∀ d ∈ a, d.toNat < 128) ∧ 128 ≤ c.toNat := by
  induction k with
  | nil => simp at h
  | cons c k ih =>
    by_cases low : c.toNat < 128
    · have rest : ¬ ∀ d ∈ k, d.toNat < 128 := fun all => h (List.forall_mem_cons.2 ⟨low, all⟩)
      obtain ⟨a, d, r, rfl, ascii, high⟩ := ih rest
      exact ⟨c :: a, d, r, rfl, List.forall_mem_cons.2 ⟨low, ascii⟩, high⟩
    · exact ⟨[], c, k, rfl, by simp, by omega⟩

/-- There is only one first place of a byte. -/
theorem first_unique {u v : List UInt8} (same : x ++ b :: y = u ++ b :: v) (first : b ∉ x) (first' : b ∉ u) :
    x = u := by
  rcases List.append_eq_append_iff.1 same with ⟨z, rfl, rest⟩ | ⟨z, rfl, rest⟩
  · cases z with
    | nil => exact (List.append_nil x).symm
    | cons d z =>
      obtain ⟨rfl, -⟩ := List.cons.inj rest
      exact absurd (by simp) first'
  · cases z with
    | nil => exact List.append_nil u
    | cons d z =>
      obtain ⟨rfl, -⟩ := List.cons.inj rest
      exact absurd (by simp) first

theorem echoed_of_echo (split : bytes k = x ++ b :: y) (first : b ∉ x) (last : bytes k = w ++ [b])
    (h : (x ++ [b]).map latin1 = k) : Echoed k := by
  by_cases all : ∀ d ∈ k, d.toNat < 128
  · have whole : x ++ [b] = bytes k := map_latin1_injective (h.trans (map_latin1_bytes all).symm)
    refine Or.inl ⟨x.map latin1, latin1 b, by rw [← h]; simp, all, fun again => first ?_⟩
    obtain ⟨d, hd, same⟩ := List.mem_map.1 again
    rwa [← latin1_injective same]
  · obtain ⟨a, c, r, rfl, ascii, high⟩ := exists_first_high all
    have length : (bytes a).length = a.length := by
      have := congrArg List.length (map_latin1_bytes ascii)
      rwa [List.length_map] at this
    have behind : ∃ x', x = bytes a ++ x' ∧ bytes (c :: r) = x' ++ b :: y := by
      rw [bytes_append] at split
      have lengths := congrArg List.length h
      rw [List.length_map, List.length_append, List.length_append, List.length_singleton,
        List.length_cons] at lengths
      rcases List.append_eq_append_iff.1 split with ⟨x', rfl, rest⟩ | ⟨z, same, rest⟩
      · exact ⟨x', rfl, rest⟩
      · have empty : z = [] := by
          have := congrArg List.length same
          rw [List.length_append] at this
          exact List.length_eq_zero_iff.1 (by omega)
        subst empty
        exact ⟨[], by simpa using same.symm, rest.symm⟩
    obtain ⟨x', rfl, rest⟩ := behind
    have text : (x' ++ [b]).map latin1 = c :: r := by
      rw [List.append_assoc, List.map_append, map_latin1_bytes ascii] at h
      exact List.append_cancel_left h
    have ends : ∃ w', bytes ((x' ++ [b]).map latin1) = w' ++ [b] := by
      rw [text]
      rcases List.eq_nil_or_concat (bytes (c :: r)) with empty | ⟨w', d, concat⟩
      · rw [rest] at empty
        simp at empty
      · rw [List.concat_eq_append] at concat
        rw [bytes_append, concat, ← List.append_assoc] at last
        have same := (List.append_inj' last rfl).2
        exact ⟨w', by rw [concat, same]⟩
    obtain ⟨w', ends⟩ := ends
    have head : ∀ d ∈ (x' ++ [b]).head?, 128 ≤ d.toNat := by
      intro d hd
      have heads := congrArg List.head? text
      rw [List.head?_map, Option.mem_def.1 hd, Option.map_some, List.head?_cons, Option.some.injEq] at heads
      rw [← toNat_latin1, heads]
      exact high
    refine Or.inr ⟨a, ascii, ?_⟩
    rw [← text]
    have own : bytes ((x' ++ [b]).map latin1) = x' ++ [b] ++ y := by rw [text, rest]; simp
    rcases eq_ending own head (fun again => first (List.mem_append_right _ again)) ends with short | long
    · exact Or.inl (by rw [short]; exact congrArg (a ++ ·) (by decide))
    · exact Or.inr (by rw [long]; exact congrArg (a ++ ·) (by decide))

/-- **The texts that come back** from their bytes up to the first place of the last byte. -/
theorem echoed_iff (split : bytes k = x ++ b :: y) (first : b ∉ x) (last : bytes k = w ++ [b]) :
    (x ++ [b]).map latin1 = k ↔ Echoed k := by
  refine ⟨echoed_of_echo split first last, ?_⟩
  rintro (⟨a, c, rfl, ascii, fresh⟩ | ⟨a, ascii, rfl | rfl⟩)
  · obtain ⟨front, single⟩ := List.forall_mem_append.1 ascii
    have encoded : bytes (a ++ [c]) = bytes a ++ [UInt8.ofNat c.toNat] := by
      rw [bytes_append, bytes_cons, utf8EncodeChar_of_ascii (single c List.mem_cons_self)]
      rfl
    obtain ⟨-, same⟩ := List.append_inj' (last.symm.trans encoded) rfl
    rw [← List.singleton_inj.1 same] at encoded
    have absent : b ∉ bytes a := by
      intro again
      have read := map_latin1_bytes ascii
      rw [encoded, List.map_append, map_latin1_bytes front] at read
      have own := List.singleton_inj.1 (List.append_cancel_left read)
      exact fresh (own ▸ latin1_mem front again)
    rw [first_unique (split.symm.trans encoded) first absent, ← encoded, map_latin1_bytes ascii]
  · have encoded : bytes (a ++ ['Ã', '\u0083']) = bytes a ++ [0xC3, 0x83, 0xC2] ++ [0x83] := by
      rw [bytes_append, List.append_assoc]
      exact congrArg (bytes a ++ ·) (by decide)
    obtain ⟨-, same⟩ := List.append_inj' (last.symm.trans encoded) rfl
    obtain rfl := List.singleton_inj.1 same
    have place : bytes a ++ [0xC3, 0x83, 0xC2] ++ [0x83] =
      bytes a ++ [0xC3] ++ 0x83 :: [0xC2, 0x83] := by simp
    have absent : (0x83 : UInt8) ∉ bytes a ++ [0xC3] := by
      rw [List.mem_append, not_or]
      exact ⟨not_mem_bytes ascii (by decide), by decide⟩
    rw [first_unique ((split.symm.trans encoded).trans place) first absent, List.append_assoc,
      List.map_append,
      map_latin1_bytes ascii]
    exact congrArg (a ++ ·) (by decide)
  · have encoded : bytes (a ++ ['Ã', '\u0083', 'Â', '\u0083', 'Ã', '\u0082']) =
        bytes a ++ [0xC3, 0x83, 0xC2, 0x83, 0xC3, 0x82, 0xC2, 0x83, 0xC3, 0x83, 0xC2] ++ [0x82] := by
      rw [bytes_append, List.append_assoc]
      exact congrArg (bytes a ++ ·) (by decide)
    obtain ⟨-, same⟩ := List.append_inj' (last.symm.trans encoded) rfl
    obtain rfl := List.singleton_inj.1 same
    have place : bytes a ++ [0xC3, 0x83, 0xC2, 0x83, 0xC3, 0x82, 0xC2, 0x83, 0xC3, 0x83, 0xC2] ++ [0x82] =
        bytes a ++ [0xC3, 0x83, 0xC2, 0x83, 0xC3] ++ 0x82 :: [0xC2, 0x83, 0xC3, 0x83, 0xC2, 0x82] := by simp
    have absent : (0x82 : UInt8) ∉ bytes a ++ [0xC3, 0x83, 0xC2, 0x83, 0xC3] := by
      rw [List.mem_append, not_or]
      exact ⟨not_mem_bytes ascii (by decide), by decide⟩
    rw [first_unique ((split.symm.trans encoded).trans place) first absent, List.append_assoc,
      List.map_append,
      map_latin1_bytes ascii]
    exact congrArg (a ++ ·) (by decide)

end Echo

end Utf8
