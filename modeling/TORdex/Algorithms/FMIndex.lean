import Mathlib.Data.List.Sort
import TORdex.Core.Primitives
import TORdex.Lib.BackwardSearch
import TORdex.Lib.Utf8

/-!
# The FM index

The suffixes of a text with a NUL behind it are sorted, and a pattern is searched from its end on the bytes
that stand in front of them.  `none` is a panic.
-/

namespace TORdex

open Utf8

instance byteOrder : LinearOrder UInt8 where
  le_refl := UInt8.le_refl
  le_trans _ _ _ := UInt8.le_trans
  le_antisymm _ _ := UInt8.le_antisymm
  le_total := UInt8.le_total
  lt_iff_le_not_ge a b := by
    rw [UInt8.lt_iff_toNat_lt, UInt8.le_iff_toNat_le, UInt8.le_iff_toNat_le]
    omega
  toDecidableLE := inferInstance
  toDecidableEq := inferInstance
  toDecidableLT := inferInstance

/-- The suffix array of a text, with what a backward search reads. -/
structure FMIndex where
  suffixArray : List ℕ
  firstOccurrence : HashMap UInt8 ℕ
  count : List (UInt8 → ℕ)
  textLen : ℕ

namespace FMIndex

/-- `first_occurrence.entry(s[0]).or_insert(i)`. -/
def enterFirst (m : HashMap UInt8 ℕ) (entry : List UInt8 × ℕ) : Option (HashMap UInt8 ℕ) := do
  let c ← entry.1.head?
  return if (m.lookup c).isSome then m else m.insert c entry.2

/-- How often each byte comes among the first bytes. -/
def countTable (row : UInt8 → ℕ) : List UInt8 → List (UInt8 → ℕ)
  | [] => [row]
  | c :: bwt => row :: countTable (Function.update row c (row c + 1)) bwt

/-- The index of a text; a zero byte ends it. -/
def new (text : String) : Option FMIndex := do
  let extended := bytes text.toList ++ [0]
  let n := extended.length
  let suffixes := ((List.range n).map fun i => (i, extended.drop i)).mergeSort fun a b => a.2 ≤ b.2
  let bwt ← suffixes.mapM fun s => if s.1 = 0 then some 0 else extended[s.1 - 1]?
  let firstOccurrence ← (suffixes.map Prod.snd).zipIdx.foldlM enterFirst ∅
  return {
    suffixArray := suffixes.map Prod.fst
    firstOccurrence
    count := countTable (fun _ => 0) bwt
    textLen := n }

/-- The range of the rows with one more byte in front. -/
def narrow (fm : FMIndex) (c : UInt8) (l r : ℕ) : Option (ℕ × ℕ) := do
  let first := (fm.firstOccurrence.lookup c).getD 0
  let low ← fm.count[l]?
  let high ← fm.count[r]?
  return (first + low c, first + high c)

/-- The loop of `count_occurrences`, over the pattern from its end. -/
def countLoop (fm : FMIndex) : List UInt8 → ℕ → ℕ → Option ℕ
  | [], l, r => some (r - l)
  | c :: rest, l, r => do
    let range ← fm.narrow c l r
    if range.1 ≥ range.2 then return 0 else fm.countLoop rest range.1 range.2

/-- The number of occurrences of a pattern. -/
def countOccurrences (fm : FMIndex) (pattern : String) : Option ℕ :=
  if pattern = "" then some 0 else fm.countLoop (bytes pattern.toList).reverse 0 fm.textLen

/-- The loop of `search`, over the pattern from its end. -/
def searchLoop (fm : FMIndex) : List UInt8 → ℕ → ℕ → Option (ℕ × ℕ)
  | [], l, r => some (l, r)
  | c :: rest, l, r => do
    let range ← fm.narrow c l r
    fm.searchLoop rest range.1 range.2

/-- The places of a pattern. -/
def search (fm : FMIndex) (pattern : String) : Option (List ℕ) := do
  let count ← fm.countOccurrences pattern
  if count = 0 then return []
  let range ← fm.searchLoop (bytes pattern.toList).reverse 0 fm.textLen
  if range.1 ≤ range.2 ∧ range.2 ≤ fm.suffixArray.length then
    return (fm.suffixArray.drop range.1).take (range.2 - range.1)
  else none

end FMIndex

end TORdex

/-!
## Searching with the FM index

The text goes around: behind the NUL it begins again.  The suffixes in their order are the rows of a backward
search on it, so the index finds the places around the text.
-/

namespace TORdex

open Utf8 BackwardSearch

namespace FMIndex

/-! ### Around the text -/

/-- The text with the NUL behind it. -/
def extended (text : String) : List UInt8 := bytes text.toList ++ [0]

/-- The byte at a place. -/
def letter (e : List UInt8) (p : ℕ) : UInt8 := e.getD p 0

/-- The place behind a place, in the circle of the text. -/
def next (n p : ℕ) : ℕ := if p + 1 = n then 0 else p + 1

/-- The place before a place, in the circle of the text. -/
def prev (n q : ℕ) : ℕ := if q = 0 then n - 1 else q - 1

/-- The suffixes in their order. -/
def suffixes (e : List UInt8) : List (ℕ × List UInt8) :=
  ((List.range e.length).map fun i => (i, e.drop i)).mergeSort fun a b => a.2 ≤ b.2

/-- The places of the suffixes in their order. -/
def rows (e : List UInt8) : List ℕ := (suffixes e).map Prod.fst

/-- The letters in front of the rows. -/
def fronts (e : List UInt8) : List UInt8 := (rows e).map fun q => letter e (prev e.length q)

section Around

variable {t : List UInt8} {i j m : ℕ}

theorem next_prev {n q : ℕ} (h : q < n) : next n (prev n q) = q := by
  unfold next prev
  split_ifs <;> omega

theorem map_prev_perm (n : ℕ) : ((List.range n).map (prev n)).Perm (List.range n) := by
  cases n with
  | zero => exact List.Perm.refl _
  | succ m =>
    have shifted : (List.range (m + 1)).map (prev (m + 1)) = m :: List.range m := by
      rw [List.range_succ_eq_map, List.map_cons, List.map_map]
      refine congrArg₂ List.cons rfl ?_
      conv_rhs => rw [← List.map_id (List.range m)]
      exact List.map_congr_left fun q _ => rfl
    rw [shifted, List.range_succ]
    exact (List.perm_append_singleton m (List.range m)).symm

theorem mem_suffixes {e : List UInt8} {a : ℕ × List UInt8} (h : a ∈ suffixes e) :
    a.1 < e.length ∧ a.2 = e.drop a.1 := by
  rw [suffixes, List.mem_mergeSort] at h
  obtain ⟨i, hi, rfl⟩ := List.mem_map.1 h
  exact ⟨List.mem_range.1 hi, rfl⟩

theorem rows_perm (e : List UInt8) : (rows e).Perm (List.range e.length) := by
  have sorted := (List.mergeSort_perm ((List.range e.length).map fun i => (i, e.drop i))
    fun a b => decide (a.2 ≤ b.2)).map Prod.fst
  rw [List.map_map] at sorted
  have same : (List.range e.length).map (Prod.fst ∘ fun i => (i, e.drop i)) = List.range e.length :=
    List.map_id _
  rwa [same] at sorted

theorem length_rows (e : List UInt8) : (rows e).length = e.length :=
  (rows_perm e).length_eq.trans List.length_range

/-- The letter at a place, and the suffix behind it. -/
theorem drop_eq_letter_cons {e : List UInt8} (h : i < e.length) :
    e.drop i = letter e i :: e.drop (i + 1) := by
  rw [List.drop_eq_getElem_cons h, letter, List.getD_eq_getElem?_getD, List.getElem?_eq_getElem h,
    Option.getD_some]

/-- The NUL is at the end only. -/
theorem letter_eq_zero_iff (fresh : (0 : UInt8) ∉ t) (h : i < (t ++ [0]).length) :
    letter (t ++ [0]) i = 0 ↔ i = t.length := by
  rw [letter, List.getD_eq_getElem?_getD]
  constructor
  · intro zero
    by_contra inside
    have lt : i < t.length := by
      rw [List.length_append, List.length_singleton] at h
      omega
    rw [List.getElem?_append_left lt, List.getElem?_eq_getElem lt, Option.getD_some] at zero
    exact fresh (zero ▸ List.getElem_mem lt)
  · rintro rfl
    rw [List.getElem?_append_right le_rfl]
    simp

/-- Suffixes are ordered as what is read around the text. -/
theorem word_le_word (fresh : (0 : UInt8) ∉ t) (hi : i < (t ++ [0]).length) (hj : j < (t ++ [0]).length)
    (le : (t ++ [0]).drop i ≤ (t ++ [0]).drop j) (m : ℕ) :
    word (letter (t ++ [0])) (next (t ++ [0]).length) m i ≤
      word (letter (t ++ [0])) (next (t ++ [0]).length) m j := by
  induction m generalizing i j with
  | zero => exact le_rfl
  | succ m ih =>
    rw [drop_eq_letter_cons hi, drop_eq_letter_cons hj, le_iff_lt_or_eq, List.cons_lt_cons_iff,
      List.cons.injEq] at le
    have step : letter (t ++ [0]) i = letter (t ++ [0]) j →
      (t ++ [0]).drop (i + 1) ≤ (t ++ [0]).drop (j + 1) →
        word (letter (t ++ [0])) (next (t ++ [0]).length) (m + 1) i ≤
          word (letter (t ++ [0])) (next (t ++ [0]).length) (m + 1) j := by
      intro same rest
      by_cases last : letter (t ++ [0]) i = 0
      · -- both places are the NUL
        rw [(letter_eq_zero_iff fresh hi).1 last, (letter_eq_zero_iff fresh hj).1 (same ▸ last)]
      · have inner : ∀ k < (t ++ [0]).length, letter (t ++ [0]) k ≠ 0 →
            next (t ++ [0]).length k = k + 1 ∧ k + 1 < (t ++ [0]).length := by
          intro k hk text
          rw [ne_eq, letter_eq_zero_iff fresh hk] at text
          rw [List.length_append, List.length_singleton] at hk ⊢
          exact ⟨if_neg (by omega), by omega⟩
        obtain ⟨nexti, insidei⟩ := inner i hi last
        obtain ⟨nextj, insidej⟩ := inner j hj (same ▸ last)
        refine word_le_cons.2 (Or.inr ⟨same, ?_⟩)
        rw [nexti, nextj]
        exact ih insidei insidej rest
    rcases le with (less | ⟨same, rest⟩) | ⟨same, rest⟩
    · exact word_le_cons.2 (Or.inl less)
    · exact step same rest.le
    · exact step same rest.le

/-- The suffixes in their order are the rows of the text. -/
theorem rows_sorted (fresh : (0 : UInt8) ∉ t) :
    Rows (letter (t ++ [0])) (next (t ++ [0]).length) (prev (t ++ [0]).length)
    (rows (t ++ [0])) where
  next_prev q hq := next_prev (List.mem_range.1 ((rows_perm _).mem_iff.1 hq))
  perm := ((rows_perm _).map _).trans ((map_prev_perm _).trans (rows_perm _).symm)
  sorted := by
    have sorted : (suffixes (t ++ [0])).Pairwise fun a b => decide (a.2 ≤ b.2) = true := by
      refine List.pairwise_mergeSort ?_ ?_ _
      · intro a b c hab hbc
        exact decide_eq_true ((of_decide_eq_true hab).trans (of_decide_eq_true hbc))
      · intro a b
        simpa using le_total a.2 b.2
    rw [rows, List.pairwise_map]
    refine sorted.imp_of_mem fun {a b} ha hb le m => ?_
    obtain ⟨inside, own⟩ := mem_suffixes ha
    obtain ⟨inside', own'⟩ := mem_suffixes hb
    exact word_le_word fresh inside inside' (own ▸ own' ▸ of_decide_eq_true le) m

end Around

/-! ### The tables of the index -/

section Tables

theorem countTable_getElem? (bwt : List UInt8) (row : UInt8 → ℕ) {k : ℕ} (h : k ≤ bwt.length) :
    (countTable row bwt)[k]? = some fun c => row c + (bwt.take k).count c := by
  induction bwt generalizing row k with
  | nil =>
    obtain rfl := Nat.le_zero.1 h
    simp [countTable]
  | cons b bwt ih =>
    cases k with
    | zero => simp [countTable]
    | succ k =>
      rw [countTable, List.getElem?_cons_succ, ih _ (Nat.le_of_succ_le_succ h), List.take_succ_cons]
      refine congrArg some (funext fun c => ?_)
      rw [List.count_cons]
      by_cases same : c = b
      · subst same
        rw [Function.update_self]
        simp
        omega
      · rw [Function.update_of_ne same]
        simp [Ne.symm same]

/-- The first places of the letters. -/
theorem lookup_enterFirst {texts : List (List UInt8)} {heads : List UInt8}
    (h : texts.map List.head? = heads.map some)
    (m : HashMap UInt8 ℕ) (k : ℕ) : ∃ m', (texts.zipIdx k).foldlM enterFirst m = some m' ∧
      ∀ c, m'.lookup c = (m.lookup c).or ((heads.idxOf? c).map (· + k)) := by
  induction texts generalizing heads m k with
  | nil =>
    obtain rfl : heads = [] := by simpa using h.symm
    exact ⟨m, rfl, fun c => by simp⟩
  | cons s texts ih =>
    cases heads with
    | nil => simp at h
    | cons b heads =>
      rw [List.map_cons, List.map_cons, List.cons.injEq] at h
      obtain ⟨m', found, lookups⟩ := ih h.2 (if (m.lookup b).isSome then m else m.insert b k) (k + 1)
      have entered : enterFirst m (s, k) = some (if (m.lookup b).isSome then m else m.insert b k) := by
        rw [enterFirst, h.1]
        rfl
      refine ⟨m', ?_, fun c => ?_⟩
      · rw [List.zipIdx_cons, List.foldlM_cons, entered]
        exact found
      · rw [lookups, List.idxOf?_cons]
        by_cases same : b = c
        · subst same
          cases known : m.lookup b with
          | none => simp
          | some i => simp [known]
        · have kept : (if (m.lookup b).isSome then m else m.insert b k).lookup c = m.lookup c := by
            split_ifs
            · rfl
            · exact Finmap.lookup_insert_of_ne _ (Ne.symm same)
          rw [kept, if_neg (by simpa using same), Option.map_map]
          refine congrArg _ (congrArg (fun f => Option.map f _) (funext fun i => ?_))
          rw [Function.comp_apply]
          omega

/-- What an index holds. -/
structure Indexes (e : List UInt8) (fm : FMIndex) : Prop where
  suffixArray : fm.suffixArray = rows e
  first : ∀ c, fm.firstOccurrence.lookup c = ((rows e).map (letter e)).idxOf? c
  count : ∀ k ≤ e.length, ∃ row, fm.count[k]? = some row ∧
    ∀ c, row c = ((fronts e).take k).count c
  textLen : fm.textLen = e.length

theorem indexes_new (text : String) : ∃ fm, new text = some fm ∧ Indexes (extended text) fm := by
  have bwt : (suffixes (extended text)).mapM (fun s =>
    if s.1 = 0 then some 0 else (extended text)[s.1 - 1]?) =
      some (fronts (extended text)) := by
    rw [fronts, rows, List.map_map]
    refine (Positions.mapM_congr_of_mem fun s hs => ?_).trans List.mapM_pure
    obtain ⟨inside, -⟩ := mem_suffixes hs
    show _ = some (letter (extended text) (prev (extended text).length s.1))
    rw [letter, prev, List.getD_eq_getElem?_getD]
    split_ifs with start
    · rw [extended, List.length_append, List.length_singleton, Nat.add_sub_cancel,
        List.getElem?_append_right le_rfl]
      simp
    · rw [List.getElem?_eq_getElem (by omega), Option.getD_some]
  have heads : ((suffixes (extended text)).map Prod.snd).map List.head? =
      ((rows (extended text)).map (letter (extended text))).map some := by
    rw [rows, List.map_map, List.map_map, List.map_map]
    refine List.map_congr_left fun s hs => ?_
    obtain ⟨inside, own⟩ := mem_suffixes hs
    show s.2.head? = some (letter (extended text) s.1)
    rw [own, drop_eq_letter_cons inside, List.head?_cons]
  obtain ⟨first, found, lookups⟩ := lookup_enterFirst heads ∅ 0
  refine ⟨⟨rows (extended text), first, countTable (fun _ => 0) (fronts (extended text)),
    (extended text).length⟩, ?_, rfl,
    fun c => ?_, fun k hk => ?_, rfl⟩
  · have unfolded : new text = ((suffixes (extended text)).mapM
          fun s => if s.1 = 0 then some 0 else (extended text)[s.1 - 1]?).bind fun bwt =>
        (((suffixes (extended text)).map Prod.snd).zipIdx.foldlM enterFirst ∅).bind fun firstOccurrence =>
        some ⟨rows (extended text), firstOccurrence, countTable (fun _ => 0) bwt,
          (extended text).length⟩ := rfl
    rw [unfolded, bwt, Option.bind_some, found, Option.bind_some]
  · rw [lookups, Finmap.lookup_empty, Option.none_or]
    simp
  · have size : (fronts (extended text)).length = (extended text).length := by
      rw [fronts, List.length_map, length_rows]
    exact ⟨_, countTable_getElem? _ _ (hk.trans_eq size.symm), fun c => Nat.zero_add _⟩

end Tables

/-! ### The search -/

section Search

variable {t s : List UInt8} {fm : FMIndex}

/-- How many rows begin with a word. -/
def rowsWith (e s : List UInt8) : ℕ := (rows e).countP fun p => word (letter e) (next e.length) s.length p = s

theorem next_lt {n p : ℕ} (h : p < n) : next n p < n := by
  unfold next
  split_ifs <;> omega

theorem rowsWith_append {e : List UInt8} (u : List UInt8) (absent : rowsWith e s = 0) :
    rowsWith e (u ++ s) = 0 := by
  induction u with
  | nil => exact absent
  | cons c u ih =>
    rw [rowsWith, List.countP_eq_zero] at ih ⊢
    intro p hp found
    have inside := List.mem_range.1 ((rows_perm e).mem_iff.1 hp)
    rw [decide_eq_true_iff] at found
    refine ih (next e.length p) ((rows_perm e).mem_iff.2 (List.mem_range.2 (next_lt inside)))
      (decide_eq_true ?_)
    exact (List.cons.inj found).2

theorem rowsWith_of_not_mem {e : List UInt8} {c : UInt8} (absent : c ∉ (rows e).map (letter e)) :
    rowsWith e (c :: s) = 0 := by
  refine List.countP_eq_zero.2 fun p hp found => absent ?_
  rw [decide_eq_true_iff] at found
  exact List.mem_map.2 ⟨p, hp, (List.cons.inj found).1⟩

/-- The rows below a word. -/
def low (e s : List UInt8) : ℕ := below (letter e) (next e.length) (rows e) s

/-- The rows up to a word. -/
def high (e s : List UInt8) : ℕ := upto (letter e) (next e.length) (rows e) s

theorem high_eq_add (e s : List UInt8) : high e s = low e s + rowsWith e s := upto_eq_add

theorem low_le (e s : List UInt8) : low e s ≤ e.length := List.countP_le_length.trans_eq (length_rows e)

theorem high_le (e s : List UInt8) : high e s ≤ e.length := List.countP_le_length.trans_eq (length_rows e)

theorem narrow_eq {e : List UInt8} (indexed : Indexes e fm) (c : UInt8) {l r : ℕ} (hl : l ≤ e.length)
    (hr : r ≤ e.length) :
    fm.narrow c l r = some ((((rows e).map (letter e)).idxOf? c).getD 0 + ((fronts e).take l).count c,
      (((rows e).map (letter e)).idxOf? c).getD 0 + ((fronts e).take r).count c) := by
  obtain ⟨row, found, counts⟩ := indexed.count l hl
  obtain ⟨row', found', counts'⟩ := indexed.count r hr
  rw [narrow, indexed.first, found, found', ← counts, ← counts']
  rfl

theorem narrow_of_mem (fresh : (0 : UInt8) ∉ t) (indexed : Indexes (t ++ [0]) fm) {c : UInt8}
    (hc : c ∈ (rows (t ++ [0])).map (letter (t ++ [0]))) :
    fm.narrow c (low (t ++ [0]) s) (high (t ++ [0]) s) =
      some (low (t ++ [0]) (c :: s), high (t ++ [0]) (c :: s)) := by
  have sorted := rows_sorted fresh
  rw [narrow_eq indexed c (low_le _ s) (high_le _ s), idxOf_letter sorted hc, Option.getD_some]
  refine congrArg some (congrArg₂ Prod.mk ?_ ?_)
  · exact (below_cons sorted).symm
  · exact (upto_cons sorted).symm

/-- A letter that is not in the text leaves no rows: both tables answer zero. -/
theorem narrow_of_not_mem (fresh : (0 : UInt8) ∉ t) (indexed : Indexes (t ++ [0]) fm) {c : UInt8}
    (hc : c ∉ (rows (t ++ [0])).map (letter (t ++ [0]))) :
    fm.narrow c (low (t ++ [0]) s) (high (t ++ [0]) s) = some (0, 0) := by
  have front : c ∉ fronts (t ++ [0]) := by
    intro again
    have moved := ((rows_sorted fresh).perm.map (letter (t ++ [0]))).mem_iff (a := c)
    rw [List.map_map] at moved
    exact hc (moved.1 again)
  have none : ∀ k, ((fronts (t ++ [0])).take k).count c = 0 :=
    fun k => List.count_eq_zero.2 fun again => front (List.mem_of_mem_take again)
  rw [narrow_eq indexed c (low_le _ s) (high_le _ s), List.idxOf?_eq_none_iff.2 hc, none, none]
  rfl

/-- The loop of `count_occurrences` counts the rows that begin with the whole word. -/
theorem countLoop_eq (fresh : (0 : UInt8) ∉ t) (indexed : Indexes (t ++ [0]) fm) (rest : List UInt8) :
    fm.countLoop rest (low (t ++ [0]) s) (high (t ++ [0]) s) =
      some (rowsWith (t ++ [0]) (rest.reverse ++ s)) := by
  induction rest generalizing s with
  | nil =>
    rw [countLoop, high_eq_add, Nat.add_sub_cancel_left]
    rfl
  | cons c rest ih =>
    rw [countLoop, List.reverse_cons, List.append_assoc, List.singleton_append]
    by_cases hc : c ∈ (rows (t ++ [0])).map (letter (t ++ [0]))
    · rw [narrow_of_mem fresh indexed hc]
      show (if low (t ++ [0]) (c :: s) ≥ high (t ++ [0]) (c :: s) then some 0 else _) = _
      split_ifs with empty
      · have absent : rowsWith (t ++ [0]) (c :: s) = 0 := by
          rw [high_eq_add] at empty
          omega
        rw [rowsWith_append _ absent]
      · exact ih
    · rw [narrow_of_not_mem fresh indexed hc, rowsWith_append _ (rowsWith_of_not_mem hc)]
      rfl

/-- The loop of `search` comes to the rows of a word that is there. -/
theorem searchLoop_eq (fresh : (0 : UInt8) ∉ t) (indexed : Indexes (t ++ [0]) fm) (rest : List UInt8)
    (present : rowsWith (t ++ [0]) (rest.reverse ++ s) ≠ 0) :
    fm.searchLoop rest (low (t ++ [0]) s) (high (t ++ [0]) s) =
      some (low (t ++ [0]) (rest.reverse ++ s), high (t ++ [0]) (rest.reverse ++ s)) := by
  induction rest generalizing s with
  | nil => rfl
  | cons c rest ih =>
    rw [List.reverse_cons, List.append_assoc, List.singleton_append] at present ⊢
    have hc : c ∈ (rows (t ++ [0])).map (letter (t ++ [0])) := by
      by_contra absent
      exact present (rowsWith_append _ (rowsWith_of_not_mem absent))
    rw [searchLoop, narrow_of_mem fresh indexed hc]
    exact ih present

end Search

/-! ### Occurrences -/

section Occurrences

variable {t s : List UInt8} {text pattern : String}

/-- The byte positions at which the pattern occurs in the text. -/
def occurrences (text pattern : String) : List ℕ :=
  (List.range (bytes text.toList).length).filter fun i => bytes pattern.toList <+: (bytes text.toList).drop i

/-- The bytes from a position on, around the text and the NUL behind it. -/
def around (text : String) (m p : ℕ) : List UInt8 :=
  word (letter (extended text)) (next (extended text).length) m p

/-- The index counts the occurrences and finds each of them once. -/
structure FindsOccurrences (text pattern : String) (fm : FMIndex) : Prop where
  count : fm.countOccurrences pattern = some (occurrences text pattern).length
  search : ∃ found, fm.search pattern = some found ∧ found.Perm (occurrences text pattern)

/-- A word without a NUL does not go around. -/
theorem word_eq_iff (fresh : (0 : UInt8) ∉ t) (hs : (0 : UInt8) ∉ s) {i : ℕ} (h : i < (t ++ [0]).length) :
    word (letter (t ++ [0])) (next (t ++ [0]).length) s.length i = s ↔ s <+: t.drop i := by
  induction s generalizing i with
  | nil => simp [word]
  | cons c s ih =>
    have text : c ≠ 0 := fun zero => hs (zero ▸ List.mem_cons_self)
    rw [List.length_cons, word, List.cons.injEq]
    by_cases last : i = t.length
    · have zero := (letter_eq_zero_iff fresh h).2 last
      rw [zero, last, List.drop_length]
      constructor
      · rintro ⟨same, -⟩
        exact absurd same.symm text
      · intro front
        cases List.prefix_nil.1 front
    · rw [List.length_append, List.length_singleton] at h
      have inside : i < t.length := by omega
      have own : letter (t ++ [0]) i = t[i] := by
        rw [letter, List.getD_eq_getElem?_getD, List.getElem?_append_left inside,
          List.getElem?_eq_getElem inside,
          Option.getD_some]
      have step : next (t ++ [0]).length i = i + 1 := by
        rw [List.length_append, List.length_singleton]
        exact if_neg (by omega)
      rw [own, step, ih (fun again => hs (List.mem_cons_of_mem c again)) (by simpa using inside),
        List.drop_eq_getElem_cons inside, List.cons_prefix_cons, eq_comm]

/-- The rows that begin with the pattern. -/
def places (text pattern : String) : List ℕ :=
  (rows (extended text)).filter fun p => around text (bytes pattern.toList).length p = bytes pattern.toList

/-- **The index finds the places around the text.** -/
theorem new_finds (fresh : (0 : UInt8) ∉ bytes text.toList) (nonempty : pattern ≠ "") :
    ∃ fm, new text = some fm ∧ fm.countOccurrences pattern = some (places text pattern).length ∧
      fm.search pattern = some (places text pattern) := by
  obtain ⟨fm, made, indexed⟩ := indexes_new text
  have sorted := rows_sorted fresh
  have start : low (extended text) [] = 0 := below_nil
  have stop : high (extended text) [] = fm.textLen := by
    rw [indexed.textLen, ← length_rows]
    exact upto_nil
  have count : fm.countOccurrences pattern = some (rowsWith (extended text) (bytes pattern.toList)) := by
    have loop := countLoop_eq (s := []) fresh indexed (bytes pattern.toList).reverse
    rw [List.reverse_reverse, List.append_nil] at loop
    rw [countOccurrences, if_neg nonempty, ← start, ← stop]
    exact loop
  refine ⟨fm, made, count.trans (congrArg some List.countP_eq_length_filter), ?_⟩
  rw [search, count]
  by_cases absent : rowsWith (extended text) (bytes pattern.toList) = 0
  · have none := List.countP_eq_zero.1 absent
    show (if rowsWith (extended text) (bytes pattern.toList) = 0 then some [] else _) = _
    rw [if_pos absent]
    exact congrArg some (List.filter_eq_nil_iff.2 none).symm
  · have loop := searchLoop_eq (s := []) fresh indexed (bytes pattern.toList).reverse
    rw [List.reverse_reverse, List.append_nil] at loop
    have range : fm.searchLoop (bytes pattern.toList).reverse 0 fm.textLen =
        some (low (extended text) (bytes pattern.toList), high (extended text) (bytes pattern.toList)) := by
      rw [← start, ← stop]
      exact loop absent
    have inside : high (extended text) (bytes pattern.toList) ≤ fm.suffixArray.length := by
      rw [indexed.suffixArray]
      exact List.countP_le_length
    have order : low (extended text) (bytes pattern.toList) ≤
      high (extended text) (bytes pattern.toList) := by
      rw [high_eq_add]
      exact Nat.le_add_right _ _
    show (if rowsWith (extended text) (bytes pattern.toList) = 0 then some [] else _) = _
    rw [if_neg absent, range]
    show (if _ ≤ _ ∧ _ ≤ _ then _ else _) = _
    rw [if_pos ⟨order, inside⟩, indexed.suffixArray]
    exact congrArg some (slice_eq_filter sorted)

theorem places_perm (text pattern : String) : (places text pattern).Perm
    ((List.range ((bytes text.toList).length + 1)).filter fun p =>
      around text (bytes pattern.toList).length p = bytes pattern.toList) := by
  have all := (rows_perm (extended text)).filter fun p =>
    around text (bytes pattern.toList).length p = bytes pattern.toList
  rwa [extended, List.length_append, List.length_singleton] at all

/-- A pattern without a NUL is found where it occurs. -/
theorem places_perm_occurrences (fresh : (0 : UInt8) ∉ bytes text.toList)
    (plain : (0 : UInt8) ∉ bytes pattern.toList)
    (nonempty : bytes pattern.toList ≠ []) : (places text pattern).Perm (occurrences text pattern) := by
  have own : ∀ p ≤ (bytes text.toList).length,
      around text (bytes pattern.toList).length p = bytes pattern.toList ↔
        bytes pattern.toList <+: (bytes text.toList).drop p := fun p hp =>
    word_eq_iff fresh plain (by rw [List.length_append, List.length_singleton]; omega)
  have last : ¬ around text (bytes pattern.toList).length (bytes text.toList).length =
    bytes pattern.toList := by
    rw [own _ le_rfl, List.drop_length, List.prefix_nil]
    exact nonempty
  refine (places_perm text pattern).trans ?_
  rw [List.range_succ, List.filter_append, List.filter_cons_of_neg (by simpa using last), List.filter_nil,
    List.append_nil,
    occurrences]
  refine List.Perm.of_eq (List.filter_congr fun p hp => ?_)
  exact decide_eq_decide.2 (own p (List.mem_range.1 hp).le)

/-- A NUL is nowhere in the text. -/
theorem occurrences_of_nul (fresh : (0 : UInt8) ∉ bytes text.toList)
    (nul : (0 : UInt8) ∈ bytes pattern.toList) :
    occurrences text pattern = [] := by
  refine List.filter_eq_nil_iff.2 fun p _ front => fresh ?_
  exact List.mem_of_mem_drop ((of_decide_eq_true front).subset nul)

theorem findsOccurrences_iff (fresh : (0 : UInt8) ∉ bytes text.toList) (nonempty : pattern ≠ "") :
    ∃ fm, new text = some fm ∧ (FindsOccurrences text pattern fm ↔ (0 : UInt8) ∉ bytes pattern.toList ∨
      ∀ p ≤ (bytes text.toList).length, around text (bytes pattern.toList).length p ≠
        bytes pattern.toList) := by
  obtain ⟨fm, made, count, search⟩ := new_finds fresh nonempty
  refine ⟨fm, made, fun finds => ?_, fun cond => ?_⟩
  · refine or_iff_not_imp_left.2 fun nul p hp found => ?_
    obtain ⟨out, searched, perm⟩ := finds.search
    obtain rfl : places text pattern = out := Option.some.inj (search.symm.trans searched)
    rw [occurrences_of_nul fresh (not_not.1 nul)] at perm
    have inside : p ∈ places text pattern := (places_perm text pattern).mem_iff.2
      (List.mem_filter.2 ⟨List.mem_range.2 (Nat.lt_succ_of_le hp), decide_eq_true found⟩)
    cases perm.mem_iff.1 inside
  · have perm : (places text pattern).Perm (occurrences text pattern) := by
      by_cases nul : (0 : UInt8) ∈ bytes pattern.toList
      · rw [occurrences_of_nul fresh nul]
        refine List.Perm.of_eq (List.eq_nil_iff_forall_not_mem.2 fun p hp => ?_)
        obtain ⟨inside, found⟩ := List.mem_filter.1 ((places_perm text pattern).mem_iff.1 hp)
        exact cond.resolve_left (not_not.2 nul) p (Nat.le_of_lt_succ (List.mem_range.1 inside))
          (of_decide_eq_true found)
      · refine places_perm_occurrences fresh nul fun none => nonempty ?_
        exact String.toList_inj.1 (bytes_injective (none.trans bytes_nil.symm))
    exact ⟨count.trans (congrArg some perm.length_eq), _, search, perm⟩

theorem findsOccurrences_sample : ∃ fm, new "banana" = some fm ∧
    (FindsOccurrences "banana" "ana" fm ↔ (0 : UInt8) ∉ bytes "ana".toList ∨
      ∀ p ≤ (bytes "banana".toList).length, around "banana" (bytes "ana".toList).length p ≠
        bytes "ana".toList) :=
  findsOccurrences_iff (by decide) (by decide)

/-- A NUL is found behind the text. -/
theorem not_findsOccurrences : (0 : UInt8) ∉ bytes "ab".toList ∧ "\x00" ≠ "" ∧
    ∃ fm, new "ab" = some fm ∧ fm.countOccurrences "\x00" = some 1 ∧ fm.search "\x00" = some [2] ∧
      occurrences "ab" "\x00" = [] ∧ ¬ FindsOccurrences "ab" "\x00" fm := by
  have fresh : (0 : UInt8) ∉ bytes "ab".toList := by decide
  have nonempty : "\x00" ≠ "" := by decide
  obtain ⟨fm, made, count, search⟩ := new_finds fresh nonempty
  have behind : places "ab" "\x00" = [2] := by
    have all := places_perm "ab" "\x00"
    have only : ((List.range ((bytes "ab".toList).length + 1)).filter fun p =>
        around "ab" (bytes "\x00".toList).length p = bytes "\x00".toList) = [2] := by decide
    rw [only] at all
    exact List.perm_singleton.1 all
  rw [behind] at count search
  refine ⟨fresh, nonempty, fm, made, count, search, by decide, fun finds => ?_⟩
  exact absurd (count.symm.trans finds.count) (by decide)

end Occurrences

end FMIndex

end TORdex
