import TORdex.Lib.Utf8
import TORdex.Vifs.Filesystem

/-!
# The algebra of paths

A child joined to a base is the file name of the path, and its parent is the base: for bases that are empty or
begin with a slash.  `parent` takes the first byte of a path for a slash.
-/

namespace TORdex

open ByteOffsets

namespace VifsPath

/-- Parent directory path; `none` is the panic of a slice inside a character. -/
def parent (p : VifsPath) : Option (Option VifsPath) :=
  let s := (stripTrailing p.raw).toList
  match rfind '/' s with
  | none => some none
  | some idx =>
    if idx = 0 then some (some ⟨"/"⟩)
    else do
      let front ← sliceTo s (idx + 1)
      let part ← sliceFrom front 1
      return some ⟨"/" ++ String.ofList part⟩

/-- Last path component. -/
def fileName (p : VifsPath) : Option String :=
  let s := (stripTrailing p.raw).toList
  let last := (s.reverse.takeWhile (· ≠ '/')).reverse
  if last.isEmpty then none else some (String.ofList last)

/-- A child that was joined to a base is found again, and so is the base, up to one slash at its end. -/
structure Inverts (base child : String) : Prop where
  fileName : (join base child).fileName = some child
  parent : ∃ q, (join base child).parent = some (some q) ∧ stripTrailing q.raw = stripTrailing base ∧
    (join q.raw child).toKey = (join base child).toKey

/-! ## Slashes at the ends -/

section Slashes

variable {base child : String}

theorem toList_stripTrailing (s : String) : (stripTrailing s).toList =
    if s.toList.getLast? = some '/' then s.toList.dropLast else s.toList := by
  unfold stripTrailing
  split_ifs <;> simp

theorem stripTrailing_slash (s : String) : stripTrailing (s ++ "/") = s := by
  rw [← String.toList_inj, toList_stripTrailing]
  simp

/-- The text of a path with its last component. -/
theorem toList_join (free : '/' ∉ child.toList) :
    (join base child).raw.toList = (stripTrailing base).toList ++ '/' :: child.toList := by
  have whole : stripLeading child = child := by
    unfold stripLeading
    split
    · next rest hc => exact absurd (hc ▸ List.mem_cons_self) free
    · rfl
  rw [join, whole, String.toList_append, String.toList_append]
  simp

theorem stripTrailing_join (nonempty : child ≠ "") (free : '/' ∉ child.toList) :
    (stripTrailing (join base child).raw).toList = (stripTrailing base).toList ++ '/' :: child.toList := by
  obtain ⟨front, c, hc⟩ : ∃ front c, child.toList = front ++ [c] := by
    refine ⟨child.toList.dropLast, child.toList.getLast ?_, (List.dropLast_append_getLast _).symm⟩
    simpa using nonempty
  have last : c ≠ '/' := by
    rintro rfl
    exact free (hc ▸ List.mem_append_right _ List.mem_cons_self)
  have ends : (join base child).raw.toList.getLast? ≠ some '/' := by
    rw [toList_join free, hc, ← List.cons_append, ← List.append_assoc, List.getLast?_concat]
    exact fun h => last (Option.some.inj h)
  rw [toList_stripTrailing, if_neg ends, toList_join free]

/-- A text keeps its first character, unless it is a single slash. -/
theorem stripTrailing_cons {c : Char} {rest : List Char} (h : base.toList = c :: rest) :
    ((stripTrailing base).toList = [] ∧ c = '/') ∨ ∃ rest', (stripTrailing base).toList = c :: rest' := by
  rw [toList_stripTrailing]
  split_ifs with ends
  · cases rest with
    | nil =>
      rw [h] at ends ⊢
      exact Or.inl ⟨rfl, Option.some.inj ends⟩
    | cons d rest => exact Or.inr ⟨(d :: rest).dropLast, by rw [h, List.dropLast_cons_cons]⟩
  · exact Or.inr ⟨rest, h⟩

end Slashes

/-! ## Joining and taking apart -/

section Joined

variable {base child : String}

theorem fileName_join (nonempty : child ≠ "") (free : '/' ∉ child.toList) :
    (join base child).fileName = some child := by
  have last : (((stripTrailing (join base child).raw).toList.reverse.takeWhile (· ≠ '/')).reverse) =
    child.toList := by
    have keep : ∀ d ∈ child.toList.reverse, (decide (d ≠ '/')) = true := fun d hd => by
      rw [decide_eq_true_iff]
      rintro rfl
      exact free (List.mem_reverse.1 hd)
    rw [stripTrailing_join nonempty free, List.reverse_append, List.reverse_cons, List.append_assoc,
      List.takeWhile_append_of_pos keep]
    simp
  simp only [fileName, last]
  rw [if_neg (by simpa using nonempty), String.ofList_toList]

/-- The parent of a joined path, by the text in front of the last slash. -/
theorem parent_join (nonempty : child ≠ "") (free : '/' ∉ child.toList) :
    (join base child).parent =
      if (stripTrailing base).toList = [] then some (some ⟨"/"⟩)
      else (sliceFrom ((stripTrailing base).toList ++ ['/']) 1).map fun part =>
        some ⟨"/" ++ String.ofList part⟩ := by
  have front : sliceTo ((stripTrailing base).toList ++ '/' :: child.toList)
    (size (stripTrailing base).toList + 1) =
      some ((stripTrailing base).toList ++ ['/']) := by
    have := sliceTo_size ((stripTrailing base).toList ++ ['/']) child.toList
    rwa [List.append_assoc, size_append] at this
  unfold parent
  simp only [stripTrailing_join nonempty free, rfind_eq_some free, size_eq_zero_iff]
  split_ifs with h
  · rfl
  · rw [front]
    simp only [Option.bind_eq_bind, Option.bind_some]
    cases sliceFrom ((stripTrailing base).toList ++ ['/']) 1 <;> rfl

/-- The parent of a path below the root is its base with a slash at the end. -/
theorem parent_join_slash (nonempty : child ≠ "") (free : '/' ∉ child.toList) {rest : List Char}
    (h : (stripTrailing base).toList = '/' :: rest) :
    (join base child).parent = some (some ⟨stripTrailing base ++ "/"⟩) := by
  have part : sliceFrom ('/' :: (rest ++ ['/'])) 1 = some (rest ++ ['/']) := sliceFrom_size ['/'] _
  have whole : "/" ++ String.ofList (rest ++ ['/']) = stripTrailing base ++ "/" := by
    simp [← String.toList_inj, h]
  rw [parent_join nonempty free, h, if_neg (List.cons_ne_nil _ _), List.cons_append, part, Option.map_some,
    whole]

/-- A path only depends on its base up to the slash at its end. -/
theorem join_congr {base' : String} (h : stripTrailing base = stripTrailing base') :
    join base child = join base' child := by
  rw [join, join, h]

/-- **The parent and the file name of a joined path** give back what was joined, just for bases that are empty
or begin with a slash. -/
theorem inverts_iff (nonempty : child ≠ "") (free : '/' ∉ child.toList) :
    Inverts base child ↔ base = "" ∨ ∃ rest, base = "/" ++ rest := by
  constructor
  · intro inverts
    obtain ⟨q, hq, same, -⟩ := inverts.parent
    cases chars : base.toList with
    | nil => exact Or.inl (String.toList_eq_nil_iff.1 chars)
    | cons c rest =>
      have slash : c = '/' := by
        rcases stripTrailing_cons chars with ⟨-, hc⟩ | ⟨rest', stripped⟩
        · exact hc
        · rw [parent_join nonempty free, stripped, if_neg (List.cons_ne_nil _ _)] at hq
          obtain ⟨part, -, rfl⟩ : ∃ part, sliceFrom (c :: rest' ++ ['/']) 1 = some part ∧
              VifsPath.mk ("/" ++ String.ofList part) = q := by
            simpa using hq
          -- the parent begins with a slash, and the base with its own first character
          have front : ("/" ++ String.ofList part).toList = '/' :: part := by simp
          rcases stripTrailing_cons front with ⟨gone, -⟩ | ⟨rest'', kept⟩
          · rw [same, stripped] at gone
            cases gone
          · rw [same, stripped] at kept
            exact (List.cons.inj kept).1
      exact Or.inr ⟨String.ofList rest, by simp [← String.toList_inj, chars, slash]⟩
  · intro cond
    have front : (stripTrailing base).toList = [] ∨ ∃ rest, (stripTrailing base).toList = '/' :: rest := by
      rcases cond with rfl | ⟨rest, rfl⟩
      · exact Or.inl (by decide)
      · have chars : ("/" ++ rest).toList = '/' :: rest.toList := by simp
        exact (stripTrailing_cons chars).imp And.left id
    refine ⟨fileName_join nonempty free, ?_⟩
    rcases front with gone | ⟨rest, kept⟩
    · have same : stripTrailing "/" = stripTrailing base := by
        rw [← String.toList_inj, gone]
        decide
      exact ⟨⟨"/"⟩, by rw [parent_join nonempty free, if_pos gone], same, by rw [join_congr same]⟩
    · have same : stripTrailing (stripTrailing base ++ "/") = stripTrailing base := stripTrailing_slash _
      exact ⟨_, parent_join_slash nonempty free kept, same, by rw [join_congr same]⟩

theorem inverts_entity : ("abc" ≠ "" ∧ '/' ∉ "abc".toList) ∧
    (Inverts "/entities/" "abc" ↔ "/entities/" = "" ∨ ∃ rest, "/entities/" = "/" ++ rest) :=
  ⟨by decide, inverts_iff (by decide) (by decide)⟩

/-- Below a relative base the parent has a slash for the first letter. -/
theorem not_inverts :
    (join "entities" "abc").parent = some (some ⟨"/ntities/"⟩) ∧ ¬ Inverts "entities" "abc" := by
  have parent : (join "entities" "abc").parent = some (some ⟨"/ntities/"⟩) := by decide
  refine ⟨parent, fun inverts => ?_⟩
  obtain ⟨q, hq, same, -⟩ := inverts.parent
  rw [parent] at hq
  cases hq
  exact absurd same (by decide)

end Joined

end VifsPath

end TORdex
