import TORdex.Fabric.Html

/-!
# The scan for links, tag by tag

`extract_attr` searches the raw text.  On a document its search goes from one item to the next: it looks for
`<tag` until an item has it, reads the attribute in what is left of that item, and then passes over everything up to
the next `</tag`, if one comes.
-/

namespace TORdex.Crawler

open Html

/-! ## Searching a piece -/

section Cut

variable {pattern s t before after : Text}

theorem cut_cons (c : Char) : cut pattern (c :: s) = if pattern.isPrefixOf (c :: s) then
    some ([], (c :: s).drop pattern.length) else (cut pattern s).map fun found => (c :: found.1, found.2) := rfl

/-- Markup does not begin in a piece and end behind it. -/
theorem isPrefixOf_append {p : Text} (piece : Piece s) (more : s ≠ []) (inside : '>' ∉ p) :
    ('<' :: p).isPrefixOf (s ++ t) = ('<' :: p).isPrefixOf s := by
  rw [Bool.eq_iff_iff, List.isPrefixOf_iff_prefix, List.isPrefixOf_iff_prefix]
  refine ⟨fun whole => ?_, fun h => h.trans (List.prefix_append s t)⟩
  rcases List.prefix_or_prefix_of_prefix whole (List.prefix_append s t) with h | h
  · exact h
  · have chars : ∀ c ∈ s, c ∈ '<' :: p := fun c hc => h.subset hc
    rcases piece with free | ⟨inner, rfl, -⟩
    · obtain ⟨c, cs, rfl⟩ := List.exists_cons_of_ne_nil more
      obtain ⟨rfl, -⟩ := List.cons_prefix_cons.1 h
      exact absurd List.mem_cons_self free
    · rcases List.mem_cons.1 (chars '>' (by simp)) with same | mem
      · exact absurd same (by decide)
      · exact absurd mem inside

/-- A search for markup that fails in a piece goes on behind it. -/
theorem cut_append {p : Text} (piece : Piece s) (inside : '>' ∉ p) : cut ('<' :: p) (s ++ t) =
    match cut ('<' :: p) s with
    | some (before, after) => some (before, after ++ t)
    | none => (cut ('<' :: p) t).map fun found => (s ++ found.1, found.2) := by
  induction s with
  | nil =>
    have empty : cut ('<' :: p) [] = none := rfl
    rw [empty]
    simp
  | cons c s ih =>
    have here := isPrefixOf_append (t := t) piece (List.cons_ne_nil c s) inside
    rw [List.cons_append] at here ⊢
    rw [cut_cons, cut_cons, here]
    by_cases found : ('<' :: p).isPrefixOf (c :: s) = true
    · rw [if_pos found, if_pos found]
      have short := (List.isPrefixOf_iff_prefix.1 found).length_le
      rw [← List.cons_append, List.drop_append_of_le_length short]
    · rw [if_neg found, if_neg found, ih (piece.suffix (List.suffix_cons c s))]
      cases cut ('<' :: p) s with
      | some found => rfl
      | none => cases cut ('<' :: p) t <;> rfl

end Cut

/-! ## The loop with the places of the values -/

/-- The value of `attrValue`, and the text from it on. -/
def attrFound (attr : String) (content : Text) : Option (Text × Text) :=
  match cut (attr.toList ++ ['=', '"']) content with
  | some (_, value) => (cut ['"'] value).map fun found => (found.1, value)
  | none =>
    match cut (attr.toList ++ ['=', '\'']) content with
    | some (_, value) => (cut ['\''] value).map fun found => (found.1, value)
    | none => none

theorem attrValue_eq (attr : String) (content : Text) :
    attrValue attr content = (attrFound attr content).map (·.1) := by
  unfold attrValue attrFound
  cases cut (attr.toList ++ ['=', '"']) content with
  | some found =>
    dsimp only
    rw [Option.map_map]
    rfl
  | none =>
    dsimp only
    cases cut (attr.toList ++ ['=', '\'']) content with
    | some found =>
      dsimp only
      rw [Option.map_map]
      rfl
    | none => rfl

/-- The value in the text of a tag that is taken for a link, with the text from it to the end. -/
def linkFound (attr : String) (content after : Text) : Option (Text × Text) :=
  ((attrFound attr content).filter (·.1 ≠ [])).map fun found => (found.1, found.2 ++ after)

/-- The loop of `extract_attr`, with the values that it takes for links instead of the links. -/
def findLoop (tag attr : String) : ℕ → Text → List (Text × Text)
  | 0, _ => []
  | rounds + 1, html =>
    match cut ('<' :: tag.toList) html with
    | none => []
    | some (_, afterOpen) =>
      match cut ['>'] ('<' :: tag.toList ++ afterOpen) with
      | none => []
      | some (content, afterTag) =>
        let next :=
          match cut ('<' :: '/' :: tag.toList) ('>' :: afterTag) with
          | some (_, afterClose) => afterClose
          | none => afterTag
        (linkFound attr (content ++ ['>']) afterTag).toList ++ findLoop tag attr rounds next

/-- The values that `extract_attr` takes for links, with their places. -/
def findLinks (html : Text) (tag attr : String) : List (Text × Text) := findLoop tag attr html.length html

/-- The link of a value. -/
def linkOf (base : Text) (depth : ℕ) (tag attr : String) (value : Text) : Option DiscoveredLink :=
  (resolveUrl base value).map fun url => ⟨String.ofList url, depth + 1, "html", tag ++ "_" ++ attr⟩

section Links

variable {base : Text} {depth : ℕ} {tag attr : String}

theorem tagLink_eq (content after : Text) : tagLink base depth tag attr content =
    (linkFound attr content after).toList.mapM fun found => linkOf base depth tag attr found.1 := by
  unfold tagLink linkFound
  rw [attrValue_eq]
  cases attrFound attr content with
  | none => rfl
  | some found =>
    obtain ⟨value, rest⟩ := found
    cases value with
    | nil => rfl
    | cons c value =>
      show (resolveUrl base (c :: value)).map _ = _
      simp only [Option.filter_some]
      cases h : resolveUrl base (c :: value) <;> simp [linkOf, h]

theorem extractAttrLoop_eq (rounds : ℕ) (html : Text) : extractAttrLoop base depth tag attr rounds html =
    (findLoop tag attr rounds html).mapM fun found => linkOf base depth tag attr found.1 := by
  have openChars : ("<" ++ tag).toList = '<' :: tag.toList := by simp
  have closeChars : ("</" ++ tag).toList = '<' :: '/' :: tag.toList := by simp
  induction rounds generalizing html with
  | zero => rfl
  | succ rounds ih =>
    simp only [extractAttrLoop, findLoop, openChars, closeChars]
    cases cut ('<' :: tag.toList) html with
    | none => rfl
    | some opened =>
      dsimp only
      cases cut ['>'] ('<' :: tag.toList ++ opened.2) with
      | none => rfl
      | some tagged =>
        dsimp only
        rw [List.mapM_append, tagLink_eq _ tagged.2]
        exact bind_congr fun link => congrArg (· >>= fun links => pure (link ++ links)) (ih _)

/-- `extract_attr` makes a link of each value that it finds. -/
theorem extractAttr_eq (html : Text) : extractAttr html base depth tag attr =
    (findLinks html tag attr).mapM fun found => linkOf base depth tag attr found.1 :=
  extractAttrLoop_eq html.length html

end Links

/-! ## The scan of a document -/

section Walk

variable (tag attr : Name)

/-- A piece from its first `<tag` on. -/
def opening (s : Text) : Option Text :=
  (cut ('<' :: tag.string.toList) s).map fun found => '<' :: tag.string.toList ++ found.2

/-- A piece behind its first `</tag`. -/
def closing (s : Text) : Option Text := (cut ('<' :: '/' :: tag.string.toList) s).map (·.2)

/-- What the scan looks at in an item: behind `</tag`, when it passes over what comes before. -/
def visible (passing : Bool) (item : Item) : Option Text :=
  if passing then closing tag item.text else some item.text

/-- Some item has `</tag`. -/
def closes (doc : List Item) : Bool := doc.any fun item => (closing tag item.text).isSome

/-- The values that the scan takes for links.  After an item with `<tag` it passes over everything before the next
`</tag`, if one comes. -/
def walk : Bool → List Item → List (Text × Text)
  | _, [] => []
  | passing, item :: doc =>
    match visible tag passing item with
    | none => walk true doc
    | some s =>
      match opening tag s with
      | none => walk false doc
      | some seen => (linkFound attr.string seen (render doc)).toList ++ walk (closes tag doc) doc

/-- The scan of what is left of an item, and of the items after it. -/
def walkFrom (s : Text) (doc : List Item) : List (Text × Text) :=
  match opening tag s with
  | none => walk tag attr false doc
  | some seen => (linkFound attr.string seen (render doc)).toList ++ walk tag attr (closes tag doc) doc

end Walk

section Simulation

variable {tag attr : Name} {s t : Text} {item : Item} {doc : List Item}

theorem opening_append (piece : Piece s) : cut ('<' :: tag.string.toList) (s ++ t) =
    match cut ('<' :: tag.string.toList) s with
    | some (before, after) => some (before, after ++ t)
    | none => (cut ('<' :: tag.string.toList) t).map fun found => (s ++ found.1, found.2) :=
  cut_append piece (plain_of_name (by decide))

theorem closing_append (piece : Piece s) : closing tag (s ++ t) =
    ((closing tag s).map (· ++ t)).or (closing tag t) := by
  have name : '>' ∉ tag.string.toList := plain_of_name (by decide)
  have inside : '>' ∉ '/' :: tag.string.toList := by simp [name]
  unfold closing
  rw [cut_append piece inside]
  cases cut ('<' :: '/' :: tag.string.toList) s with
  | some found => rfl
  | none => cases cut ('<' :: '/' :: tag.string.toList) t <;> rfl

/-- What is left of a piece from `<tag` on ends with its only `>`. -/
theorem seen_eq {seen : Text} (piece : Piece s) (h : opening tag s = some seen) :
    seen <:+ s ∧ ∃ content, seen = content ++ ['>'] ∧ '>' ∉ content := by
  obtain ⟨⟨before, after⟩, hcut, rfl⟩ := Option.map_eq_some_iff.1 h
  have split := cut_eq_some hcut
  have suffix : '<' :: tag.string.toList ++ after <:+ s := ⟨before, by rw [split, List.append_assoc]⟩
  refine ⟨suffix, ?_⟩
  rcases piece.suffix suffix with free | closed
  · exact absurd (by simp) free
  · exact closed

theorem closing_suffix {rest : Text} (h : closing tag s = some rest) : rest <:+ s := by
  obtain ⟨⟨before, after⟩, hcut, rfl⟩ := Option.map_eq_some_iff.1 h
  exact ⟨before ++ '<' :: '/' :: tag.string.toList, (cut_eq_some hcut).symm⟩

theorem closing_render : (closing tag (render doc)).isSome = closes tag doc := by
  induction doc with
  | nil => rfl
  | cons item doc ih =>
    show (closing tag (item.text ++ render doc)).isSome = _
    rw [closing_append (piece_text item), closes, List.any_cons, ← closes, ← ih]
    cases closing tag item.text <;> rfl

theorem cut_char {c : Char} (free : c ∉ s) : cut [c] (s ++ c :: t) = some (s, t) := by
  induction s with
  | nil => simp [cut_cons]
  | cons d s ih =>
    rw [List.mem_cons, not_or] at free
    have other : ¬[c].isPrefixOf (d :: (s ++ c :: t)) = true := by simpa using free.1
    rw [List.cons_append, cut_cons, if_neg other, ih free.2]
    rfl

/-- The loop only looks at the text behind the first `<tag`. -/
theorem findLoop_congr {tag attr : String} {html html' : Text}
    (h : (cut ('<' :: tag.toList) html).map (·.2) = (cut ('<' :: tag.toList) html').map (·.2)) (rounds : ℕ) :
    findLoop tag attr rounds html = findLoop tag attr rounds html' := by
  cases rounds with
  | zero => rfl
  | succ rounds =>
    unfold findLoop
    cases hcut : cut ('<' :: tag.toList) html with
    | none =>
      rw [hcut, Option.map_none, eq_comm, Option.map_eq_none_iff] at h
      rw [h]
    | some found =>
      rw [hcut, Option.map_some, eq_comm, Option.map_eq_some_iff] at h
      obtain ⟨found', hcut', same⟩ := h
      rw [hcut']
      dsimp only
      rw [same]

/-- The loop goes on behind `</tag`, or behind the tag when there is none. -/
theorem next_eq (after : Text) : (match cut ('<' :: '/' :: tag.string.toList) ('>' :: after) with
    | some (_, afterClose) => afterClose
    | none => after) = (closing tag after).getD after := by
  have other : ¬('<' :: '/' :: tag.string.toList).isPrefixOf ('>' :: after) = true := by simp
  rw [cut_cons, if_neg other, closing]
  cases cut ('<' :: '/' :: tag.string.toList) after <;> rfl

variable (doc) in
/-- The loop agrees with the walk on a document, and behind its first `</tag`. -/
structure Agrees (tag attr : Name) : Prop where
  start : ∀ rounds, (render doc).length ≤ rounds →
    findLoop tag.string attr.string rounds (render doc) = walk tag attr false doc
  behind : ∀ after, closing tag (render doc) = some after → ∀ rounds, after.length ≤ rounds →
    findLoop tag.string attr.string rounds after = walk tag attr true doc

theorem Agrees.piece (h : Agrees doc tag attr) (piece : Piece s) {rounds : ℕ}
    (enough : (s ++ render doc).length ≤ rounds) :
    findLoop tag.string attr.string rounds (s ++ render doc) = walkFrom tag attr s doc := by
  have whole : cut ('<' :: tag.string.toList) (s ++ render doc) = _ := opening_append piece
  unfold walkFrom
  cases hcut : cut ('<' :: tag.string.toList) s with
  | none =>
    have missing : opening tag s = none := by rw [opening, hcut]; rfl
    rw [hcut] at whole
    rw [missing]
    have same : findLoop tag.string attr.string rounds (s ++ render doc) =
        findLoop tag.string attr.string rounds (render doc) := by
      refine findLoop_congr ?_ rounds
      rw [whole, Option.map_map]
      rfl
    rw [same]
    rw [List.length_append] at enough
    exact h.start rounds (by omega)
  | some found =>
    obtain ⟨before, after⟩ := found
    have opened : opening tag s = some ('<' :: tag.string.toList ++ after) := by rw [opening, hcut]; rfl
    obtain ⟨-, content, split, closed⟩ := seen_eq piece opened
    rw [hcut] at whole
    rw [opened]
    have tagged :
        cut ['>'] ('<' :: tag.string.toList ++ (after ++ render doc)) = some (content, render doc) := by
      rw [← List.append_assoc, split, List.append_assoc]
      exact cut_char closed
    have shorter := length_afterTag whole tagged
    obtain ⟨rounds, rfl⟩ := Nat.exists_eq_add_one_of_ne_zero (n := rounds) (by omega)
    rw [findLoop, whole]
    dsimp only
    rw [tagged]
    dsimp only
    rw [next_eq, ← split, ← closing_render]
    congr 1
    cases hclose : closing tag (render doc) with
    | none => exact h.start rounds (by omega)
    | some afterClose =>
      have rest := (closing_suffix hclose).length_le
      exact h.behind afterClose hclose rounds (rest.trans (by omega))

/-- The loop agrees with the walk on every document. -/
theorem agrees (tag attr : Name) (doc : List Item) : Agrees doc tag attr := by
  induction doc with
  | nil => exact ⟨fun rounds _ => by cases rounds <;> rfl, fun after h => nomatch h⟩
  | cons item doc ih =>
    constructor
    · intro rounds enough
      exact ih.piece (piece_text item) enough
    · intro after hclose rounds enough
      have whole : closing tag (render (item :: doc)) = _ := closing_append (t := render doc) (piece_text item)
      rw [whole] at hclose
      cases here : closing tag item.text with
      | none =>
        rw [here] at hclose
        have passed : walk tag attr true (item :: doc) = walk tag attr true doc := by
          rw [walk, visible, if_pos rfl, here]
        rw [passed]
        exact ih.behind after hclose rounds enough
      | some rest =>
        rw [here] at hclose
        have stopped : walk tag attr true (item :: doc) = walkFrom tag attr rest doc := by
          rw [walk, visible, if_pos rfl, here]
          rfl
        have split : rest ++ render doc = after := Option.some.inj hclose
        rw [stopped, ← split]
        exact ih.piece ((piece_text item).suffix (closing_suffix here)) (split ▸ enough)

end Simulation

end TORdex.Crawler
