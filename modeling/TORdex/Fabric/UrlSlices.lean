import TORdex.Fabric.Domains
import TORdex.Lib.Utf8

/-!
# URL resolution by byte offsets

`resolve_url` finds patterns as byte offsets, calculates with them and slices its texts there; a slice off a
character boundary or past the end and a subtraction below zero are panics, here `none`.  `resolveUrl` on
characters is what it does, and this is when it does it.
-/

namespace TORdex.Crawler

open ByteOffsets

/-- What relative hrefs are joined to: the base without its file name. -/
def directory (base : Text) : Text :=
  match beforeLastSlash base with
  | some before => if 8 < byteLength before then before ++ ['/'] else base
  | none => base

namespace Bytes

/-- `s.find(pattern)`. -/
def find (pattern : String) (s : Text) : Option ℕ :=
  (cut pattern.toList s).map fun found => size found.1

/-- `s.find(['?', '#'])`. -/
def findQuery (s : Text) : Option ℕ :=
  if s.any fun c => c = '?' || c = '#' then some (size (s.takeWhile fun c => !(c = '?' || c = '#')))
  else none

/-- `s.rfind('/')`. -/
def rfindSlash (s : Text) : Option ℕ := (beforeLastSlash s).map size

/-- `a - b` on `usize`. -/
def checkedSub (a b : ℕ) : Option ℕ := if b ≤ a then some (a - b) else none

/-- `String::truncate`. -/
def truncate (s : Text) (n : ℕ) : Option Text := if n ≤ size s then sliceTo s n else some s

/-- `while remaining.starts_with("../")`.  Every round takes three bytes off `remaining`, so its length
bounds the number of rounds. -/
def climbLoop : ℕ → Text → Text → Option (Text × Text)
  | 0, resolved, remaining => some (resolved, remaining)
  | rounds + 1, resolved, remaining =>
    if startsWith remaining "../" then do
      let last ← checkedSub (size resolved) 1
      let front ← sliceTo resolved last
      let resolved ←
        match rfindSlash front with
        | some lastSlash => truncate resolved (lastSlash + 1)
        | none => some resolved
      let remaining ← sliceFrom remaining 3
      climbLoop rounds resolved remaining
    else some (resolved, remaining)

/-- `base_dir`: the base without its file name. -/
def directory (base : Text) : Option Text :=
  match rfindSlash base with
  | some lastSlash => if 8 < lastSlash then sliceTo base (lastSlash + 1) else some base
  | none => some base

/-- The path of the source that handles relative hrefs. -/
def resolveRelative (base href : Text) : Option Text := do
  let baseDir ← directory base
  if startsWith href "./" then
    let rest ← sliceFrom href 2
    some (baseDir ++ rest)
  else if startsWith href "../" then
    let (resolved, remaining) ← climbLoop href.length baseDir href
    some (resolved ++ remaining)
  else some (baseDir ++ href)

/-- Resolve a potentially relative URL against a base URL. -/
def resolveUrl (base href : Text) : Option Text :=
  if startsWith href "http://" || startsWith href "https://" then some href
  else if startsWith href "//" then
    match find "://" base with
    | some protocolEnd => do
      let protocol ← sliceTo base (protocolEnd + 1)
      some (protocol ++ href)
    | none => some ("https:".toList ++ href)
  else if startsWith href "/" then
    match find "://" base with
    | some protocolEnd => do
      let rest ← sliceFrom base (protocolEnd + 3)
      let hostEnd :=
        match find "/" rest with
        | some i => protocolEnd + 3 + i
        | none => size base
      let host ← sliceTo base hostEnd
      some (host ++ href)
    | none => some ("https://localhost".toList ++ href)
  else
    match findQuery href with
    | some queryOrFragment => do
      let clean ← sliceTo href queryOrFragment
      if clean.isEmpty then some base else resolveRelative base href
    | none => resolveRelative base href

end Bytes

/-! ## Offsets of patterns -/

section Offsets

variable {s before after : Text}

/-- A slice up to the end of a pattern. -/
theorem sliceTo_find {pattern : Text} (h : cut pattern s = some (before, after)) {n : ℕ}
    (front : Text) (hn : size front = n) (split : front <+: before ++ pattern) :
    sliceTo s n = some front := by
  obtain ⟨rest, hrest⟩ := split
  rw [cut_eq_some h, ← hrest, List.append_assoc, ← hn]
  exact sliceTo_size _ _

theorem sliceFrom_find {pattern : Text} (h : cut pattern s = some (before, after)) :
    sliceFrom s (size before + size pattern) = some after := by
  rw [cut_eq_some h, ← size_append]
  exact sliceFrom_size _ _

/-- The text before the first slash. -/
theorem cut_slash (s : Text) : (cut ['/'] s).map Prod.fst =
    if '/' ∈ s then some (s.takeWhile (· ≠ '/')) else none := by
  induction s with
  | nil => rfl
  | cons c s ih =>
    unfold cut
    by_cases hc : c = '/'
    · subst hc
      simp
    · have other : ¬['/'].isPrefixOf (c :: s) = true := by simpa using Ne.symm hc
      rw [if_neg other, Option.map_map]
      have step : (cut ['/'] s).map (fun found => c :: found.1) =
          ((cut ['/'] s).map Prod.fst).map (c :: ·) := by rw [Option.map_map]; rfl
      show (cut ['/'] s).map (fun found => c :: found.1) = _
      rw [step, ih]
      simp only [List.mem_cons, Ne.symm hc, false_or, ne_eq, hc, not_false_eq_true, decide_true,
        List.takeWhile_cons_of_pos]
      split_ifs <;> rfl

/-- The directory of a text that has one. -/
theorem sliceTo_lastSlash {s before : Text} (h : beforeLastSlash s = some before) :
    sliceTo s (size before + 1) = some (before ++ ['/']) := by
  obtain ⟨after, rfl, -⟩ := beforeLastSlash_eq_some h
  have offset : size before + 1 = size (before ++ ['/']) := by
    rw [size_append]
    rfl
  rw [offset]
  exact sliceTo_size _ _

/-- The text before the first of `?` and `#`. -/
theorem sliceTo_takeWhile (p : Char → Bool) (s : Text) :
    sliceTo s (size (s.takeWhile p)) = some (s.takeWhile p) := by
  have slice := sliceTo_size (s.takeWhile p) (s.dropWhile p)
  rwa [List.takeWhile_append_dropWhile] at slice

end Offsets

/-! ## The offsets of the source are those of the characters -/

namespace Bytes

theorem startsWith_eq_true {s : Text} {pattern : String} (h : startsWith s pattern = true) :
    ∃ rest, s = pattern.toList ++ rest := by
  obtain ⟨rest, rfl⟩ := List.isPrefixOf_iff_prefix.1 h
  exact ⟨rest, rfl⟩

theorem checkedSub_last (s : Text) (c : Char) :
    (checkedSub (size (s ++ [c])) 1).bind (sliceTo (s ++ [c])) = if c.utf8Size = 1 then some s else none := by
  have pos : 1 ≤ size (s ++ [c]) := by
    rw [size_append, size_cons]
    have := c.utf8Size_pos
    omega
  rw [checkedSub, if_pos pos, Option.bind_some, sliceTo_last]

theorem truncate_lastSlash {s before rest : Text} (h : beforeLastSlash s = some before) :
    truncate (s ++ rest) (size before + 1) = some (before ++ ['/']) := by
  obtain ⟨after, rfl, -⟩ := beforeLastSlash_eq_some h
  have offset : size before + 1 = size (before ++ ['/']) := by
    rw [size_append]
    rfl
  have inside : size before + 1 ≤ size (before ++ ['/'] ++ after ++ rest) := by
    rw [offset, List.append_assoc, size_append _ (after ++ rest)]
    exact Nat.le_add_right _ _
  rw [truncate, if_pos inside, offset, List.append_assoc]
  exact sliceTo_size _ _

/-- One round of the loop. -/
theorem climbLoop_succ (rounds : ℕ) (s : Text) (c : Char) (remaining : Text) :
    climbLoop (rounds + 1) (s ++ [c]) ("../".toList ++ remaining) =
      if c.utf8Size = 1 then
        match beforeLastSlash s with
        | some parent => climbLoop rounds (parent ++ ['/']) remaining
        | none => climbLoop rounds (s ++ [c]) remaining
      else none := by
  have climbs : startsWith ("../".toList ++ remaining) "../" = true :=
    List.isPrefixOf_iff_prefix.2 (List.prefix_append _ _)
  have rest : sliceFrom ("../".toList ++ remaining) 3 = some remaining :=
    sliceFrom_size "../".toList remaining
  rw [climbLoop, if_pos climbs, rest]
  have front := checkedSub_last s c
  cases hn : checkedSub (size (s ++ [c])) 1 with
  | none =>
    rw [hn] at front
    have multi : ¬ c.utf8Size = 1 := fun single => by simp [single] at front
    rw [if_neg multi]
    rfl
  | some n =>
    rw [hn, Option.bind_some] at front
    simp only [Option.bind_eq_bind, Option.bind_some, front]
    split_ifs with single
    · cases found : beforeLastSlash s with
      | none => simp [rfindSlash, found]
      | some parent => simp [rfindSlash, found, truncate_lastSlash found]
    · rfl

theorem climbLoop_eq (rounds : ℕ) (resolved remaining : Text) (enough : remaining.length ≤ rounds) :
    climbLoop rounds resolved remaining = climb resolved remaining := by
  induction rounds generalizing resolved remaining with
  | zero =>
    obtain rfl := List.length_eq_zero_iff.1 (Nat.le_zero.1 enough)
    rfl
  | succ rounds ih =>
    by_cases climbs : startsWith remaining "../" = true
    · obtain ⟨rest, rfl⟩ := startsWith_eq_true climbs
      have shorter : rest.length ≤ rounds := by
        rw [List.length_append] at enough
        have : "../".toList.length = 3 := rfl
        omega
      rcases List.eq_nil_or_concat resolved with rfl | ⟨s, c, rfl⟩
      · rfl
      · rw [List.concat_eq_append, climbLoop_succ]
        show _ = climb (s ++ [c]) ('.' :: '.' :: '/' :: rest)
        rw [climb, List.getLast?_concat, List.dropLast_concat]
        dsimp only
        by_cases single : c.utf8Size = 1
        · rw [if_pos single, if_pos single]
          cases beforeLastSlash s with
          | none => exact ih _ _ shorter
          | some parent => exact ih _ _ shorter
        · exact (if_neg single).trans (if_neg single).symm
    · rw [climbLoop, if_neg climbs, climb]
      rintro rest rfl
      exact climbs (List.isPrefixOf_iff_prefix.2 (List.prefix_append "../".toList rest))

theorem directory_eq (base : Text) : directory base = some (Crawler.directory base) := by
  unfold directory Crawler.directory rfindSlash
  cases found : beforeLastSlash base with
  | none => rfl
  | some before =>
    show (if 8 < size before then sliceTo base (size before + 1) else some base) =
      some (if 8 < size before then before ++ ['/'] else base)
    rw [sliceTo_lastSlash found]
    split_ifs <;> rfl

theorem resolveRelative_eq (base href : Text) : resolveRelative base href =
    if startsWith href "./" then some (Crawler.directory base ++ href.drop 2)
    else if startsWith href "../" then
      (climb (Crawler.directory base) href).map fun (resolved, remaining) => resolved ++ remaining
    else some (Crawler.directory base ++ href) := by
  rw [resolveRelative, directory_eq, Option.bind_eq_bind, Option.bind_some]
  split_ifs with dot climbs
  · obtain ⟨rest, rfl⟩ := startsWith_eq_true dot
    have slice : sliceFrom ("./".toList ++ rest) 2 = some rest := sliceFrom_size "./".toList rest
    rw [slice]
    rfl
  · rw [climbLoop_eq _ _ _ le_rfl]
    cases climb (Crawler.directory base) href <;> rfl
  · rfl

/-- The end of the host: the first slash after the protocol, or the end of the base. -/
theorem sliceTo_hostEnd {base protocol rest : Text} (h : cut "://".toList base = some (protocol, rest)) :
    sliceTo base (match find "/" rest with
      | some i => size protocol + 3 + i
      | none => size base) = some (protocol ++ "://".toList ++ rest.takeWhile (· ≠ '/')) := by
  have whole := cut_eq_some h
  have first : find "/" rest = ((cut ['/'] rest).map Prod.fst).map size := by
    rw [Option.map_map]
    rfl
  rw [first, cut_slash]
  split_ifs with slash
  · have offset : size protocol + 3 + size (rest.takeWhile (· ≠ '/')) =
        size (protocol ++ "://".toList ++ rest.takeWhile (· ≠ '/')) := by
      rw [size_append, size_append]
      rfl
    have split :
        base = (protocol ++ "://".toList ++ rest.takeWhile (· ≠ '/')) ++ rest.dropWhile (· ≠ '/') := by
      rw [List.append_assoc _ (rest.takeWhile _), List.takeWhile_append_dropWhile]
      exact whole
    show sliceTo base (size protocol + 3 + size (rest.takeWhile (· ≠ '/'))) = _
    rw [offset]
    conv_lhs => rw [split]
    exact sliceTo_size _ _
  · have all : rest.takeWhile (· ≠ '/') = rest :=
      List.takeWhile_eq_self_iff.2 fun c hc => by
        have other : c ≠ '/' := fun eq => slash (eq ▸ hc)
        simpa using other
    show sliceTo base (size base) = _
    rw [all, ← whole]
    have slice := sliceTo_size base []
    rwa [List.append_nil] at slice

/-- The code with its offsets computes what `Crawler.resolveUrl` computes, and panics where that has
no value. -/
theorem resolveUrl_eq (base href : Text) : resolveUrl base href = Crawler.resolveUrl base href := by
  unfold resolveUrl Crawler.resolveUrl
  by_cases absolute : (startsWith href "http://" || startsWith href "https://") = true
  · rw [if_pos absolute, if_pos absolute]
  rw [if_neg absolute, if_neg absolute]
  by_cases relative : startsWith href "//" = true
  · rw [if_pos relative, if_pos relative, find]
    cases found : cut "://".toList base with
    | none => rfl
    | some parts =>
      have protocol : sliceTo base (size parts.1 + 1) = some (parts.1 ++ [':']) :=
        sliceTo_find found _ (by rw [size_append]; rfl) ⟨"//".toList, by simp⟩
      simp only [Option.map_some, protocol, Option.bind_eq_bind, Option.bind_some]
      rfl
  rw [if_neg relative, if_neg relative]
  by_cases path : startsWith href "/" = true
  · rw [if_pos path, if_pos path, find]
    cases found : cut "://".toList base with
    | none => rfl
    | some parts =>
      have rest : sliceFrom base (size parts.1 + 3) = some parts.2 := sliceFrom_find found
      simp only [Option.map_some, rest, Option.bind_eq_bind, Option.bind_some]
      rw [sliceTo_hostEnd found]
      rfl
  rw [if_neg path, if_neg path, resolveRelative_eq]
  unfold findQuery
  cases query : href.any fun c => c = '?' || c = '#' with
  | false => rfl
  | true =>
    simp only [↓reduceIte, sliceTo_takeWhile, Option.bind_eq_bind, Option.bind_some, Bool.true_and]
    rfl

end Bytes

/-! ## When it panics -/

section Panics

variable {base href : Text}

/-- The last byte of the text is a character. -/
def EndsInByte (s : Text) : Prop := ∃ c ∈ s.getLast?, c.utf8Size = 1

/-- The base has a slash past the length of `https://`. -/
def HasDirectory (base : Text) : Prop := ∃ before ∈ beforeLastSlash base, 8 < byteLength before

theorem endsInByte_slash (s : Text) : EndsInByte (s ++ ['/']) :=
  ⟨'/', by simp, rfl⟩

theorem directory_of_hasDirectory (h : HasDirectory base) : ∃ before, directory base = before ++ ['/'] := by
  obtain ⟨before, found, deep⟩ := h
  refine ⟨before, ?_⟩
  unfold directory
  rw [Option.mem_def.1 found]
  exact if_pos deep

theorem directory_of_not_hasDirectory (h : ¬ HasDirectory base) : directory base = base := by
  unfold directory
  cases found : beforeLastSlash base with
  | none => rfl
  | some before => exact if_neg fun deep => h ⟨before, found, deep⟩

/-- Every round leaves a text that ends in a byte. -/
theorem climb_isSome {resolved : Text} (h : EndsInByte resolved) (remaining : Text) :
    (climb resolved remaining).isSome = true := by
  fun_induction climb resolved remaining with
  | case1 resolved remaining none =>
    obtain ⟨c, last, -⟩ := h
    rw [none] at last
    exact nomatch last
  | case2 resolved remaining c last single parent found ih => exact ih (endsInByte_slash parent)
  | case3 resolved remaining c last single none ih => exact ih h
  | case4 resolved remaining c last multi =>
    obtain ⟨c', last', single⟩ := h
    rw [last] at last'
    cases last'
    exact absurd single multi
  | case5 => rfl

theorem endsInByte_directory_iff (base : Text) :
    EndsInByte (directory base) ↔ HasDirectory base ∨ EndsInByte base := by
  by_cases deep : HasDirectory base
  · obtain ⟨before, eq⟩ := directory_of_hasDirectory deep
    rw [eq]
    exact iff_of_true (endsInByte_slash before) (.inl deep)
  · rw [directory_of_not_hasDirectory deep, or_iff_right deep]

theorem climb_isSome_iff {resolved : Text} (remaining : Text) :
    (climb resolved ("../".toList ++ remaining)).isSome = true ↔ EndsInByte resolved := by
  constructor
  · intro h
    change (climb resolved ('.' :: '.' :: '/' :: remaining)).isSome = true at h
    rw [climb] at h
    cases last : resolved.getLast? with
    | none => simp [last] at h
    | some c =>
      simp only [last] at h
      split_ifs at h with single
      · exact ⟨c, last, single⟩
      · exact nomatch h
  · exact fun h => climb_isSome h _

theorem resolveUrl_climb (base rest : Text) : resolveUrl base ("../".toList ++ rest) =
    (climb (directory base) ("../".toList ++ rest)).map fun (resolved, remaining) => resolved ++ remaining := by
  have clean : ((("../".toList ++ rest).takeWhile fun c => !(c = '?' || c = '#')).isEmpty) = false := rfl
  unfold resolveUrl
  rw [clean, Bool.and_false]
  rfl

/-- Every other href has a URL. -/
theorem resolveUrl_level (h : startsWith href "../" = false) (base : Text) :
    (resolveUrl base href).isSome = true := by
  unfold resolveUrl
  simp only [h, Bool.false_eq_true, if_false]
  split_ifs with absolute relative path
  · rfl
  · cases cut "://".toList base <;> rfl
  · cases cut "://".toList base <;> rfl
  all_goals rfl

theorem isSome_resolveUrl (base href : Text) : (resolveUrl base href).isSome = true ↔
    startsWith href "../" = false ∨ HasDirectory base ∨ EndsInByte base := by
  by_cases climbs : startsWith href "../" = true
  · obtain ⟨rest, rfl⟩ := Bytes.startsWith_eq_true climbs
    rw [resolveUrl_climb, Option.isSome_map, climb_isSome_iff, or_iff_right (Bool.not_eq_false _ ▸ climbs)]
    exact endsInByte_directory_iff base
  · have level := Bool.eq_false_iff.2 climbs
    exact iff_of_true (resolveUrl_level level base) (.inl level)

/-- The subtraction and the slices of `resolveUrl` are inside its texts unless an href that climbs meets a base
without a directory that is empty or ends inside a character. -/
theorem resolveUrl_isSome_iff (base href : Text) : (Bytes.resolveUrl base href).isSome = true ↔
    startsWith href "../" = false ∨ HasDirectory base ∨ EndsInByte base := by
  rw [Bytes.resolveUrl_eq]
  exact isSome_resolveUrl base href

/-- A page collected from an empty target panics at the first link to a parent directory. -/
theorem resolveUrl_panics : ¬ ∀ base href, (Bytes.resolveUrl base href).isSome = true :=
  fun h => absurd (h [] "../x".toList) (by decide)

end Panics

end TORdex.Crawler
