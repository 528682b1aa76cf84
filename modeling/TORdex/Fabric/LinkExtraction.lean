import TORdex.Fabric.LinkScan
import TORdex.Fabric.UrlSlices

/-!
# When link extraction is exact

The scan takes the first text that looks like the attribute, in the first item that it sees with `<tag`.  It is exact
when these are the links of the document.
-/

namespace TORdex.Crawler

open Html

/-- What is taken for the beginning of the attribute. -/
def lookalike (attr : Name) (q : Quote) : Text := attr.string.toList ++ ['=', q.char]

/-- The text behind the first lookalike: with a double quote, or if there is none, with a single one. -/
def Chosen (attr : Name) (seen : Text) : Quote → Text → Prop
  | .double, rest => (cut (lookalike attr .double) seen).map (·.2) = some rest
  | .single, rest => cut (lookalike attr .double) seen = none ∧
      (cut (lookalike attr .single) seen).map (·.2) = some rest

/-- What the scan sees of an item is right: the lookalike that it chooses is the linking attribute, and without a link
the quotes behind it have nothing between them, or do not close. -/
def SeenRight (tag attr : Name) (item : Item) (seen : Text) : Prop :=
  match item.link tag attr with
  | some (a, rest) => Chosen attr seen a.quote rest
  | none => ∀ q rest, Chosen attr seen q rest → q.char ∉ rest ∨ rest.head? = some q.char

/-- The scan sees every link of the document, and what it sees is right. -/
def Clear (tag attr : Name) : Bool → List Item → Prop
  | _, [] => True
  | passing, item :: doc =>
    match visible tag passing item with
    | none => item.link tag attr = none ∧ Clear tag attr true doc
    | some s =>
      match opening tag s with
      | none => item.link tag attr = none ∧ Clear tag attr false doc
      | some seen => SeenRight tag attr item seen ∧ Clear tag attr (closes tag doc) doc

section Found

variable {tag attr : Name} {seen rest after value : Text} {q q' : Quote} {item : Item} {doc : List Item}

theorem cut_char_eq_some {c : Char} {s t : Text} :
    cut [c] value = some (s, t) ↔ value = s ++ c :: t ∧ c ∉ s := by
  refine ⟨fun h => ?_, fun ⟨split, free⟩ => split ▸ cut_char free⟩
  refine ⟨by rw [cut_eq_some h]; simp, ?_⟩
  induction value generalizing s with
  | nil => exact nomatch h
  | cons d value ih =>
    rw [cut_cons] at h
    split_ifs at h with here
    · rw [← (Prod.mk.inj (Option.some.inj h)).1]
      exact List.not_mem_nil
    · obtain ⟨found, hcut, split⟩ := Option.map_eq_some_iff.1 h
      obtain ⟨rfl, rfl⟩ := Prod.mk.inj split
      have other : c ≠ d := by simpa using here
      simp [other, ih hcut]

/-- The value behind a lookalike ends at the next quote. -/
theorem map_cut_quote : ((cut [q.char] after).map fun found => (found.1, after)) = some (value, rest) ↔
    after = rest ∧ ∃ t, rest = value ++ q.char :: t ∧ q.char ∉ value := by
  rw [Option.map_eq_some_iff]
  constructor
  · rintro ⟨found, hcut, same⟩
    obtain ⟨rfl, rfl⟩ := Prod.mk.inj same
    exact ⟨rfl, found.2, cut_char_eq_some.1 hcut⟩
  · rintro ⟨rfl, t, split, free⟩
    exact ⟨(value, t), cut_char_eq_some.2 ⟨split, free⟩, rfl⟩

theorem chosen_of_double {found : Text × Text} (double : cut (lookalike attr .double) seen = some found) :
    Chosen attr seen q rest ↔ q = .double ∧ found.2 = rest := by
  cases q <;> simp [Chosen, double]

theorem chosen_of_single {found : Text × Text} (double : cut (lookalike attr .double) seen = none)
    (single : cut (lookalike attr .single) seen = some found) :
    Chosen attr seen q rest ↔ q = .single ∧ found.2 = rest := by
  cases q <;> simp [Chosen, double, single]

theorem not_chosen (double : cut (lookalike attr .double) seen = none)
    (single : cut (lookalike attr .single) seen = none) : ¬Chosen attr seen q rest := by
  cases q <;> simp [Chosen, double, single]

theorem attrFound_iff : attrFound attr.string seen = some (value, rest) ↔
    ∃ q, Chosen attr seen q rest ∧ ∃ t, rest = value ++ q.char :: t ∧ q.char ∉ value := by
  unfold attrFound
  cases double : cut (lookalike attr .double) seen with
  | some found =>
    rw [show attr.string.toList ++ ['=', '"'] = lookalike attr .double from rfl, double]
    refine (map_cut_quote (q := .double)).trans ⟨?_, ?_⟩
    · rintro ⟨same, ends⟩
      exact ⟨.double, (chosen_of_double double).2 ⟨rfl, same⟩, ends⟩
    · rintro ⟨q, choice, ends⟩
      obtain ⟨rfl, same⟩ := (chosen_of_double double).1 choice
      exact ⟨same, ends⟩
  | none =>
    rw [show attr.string.toList ++ ['=', '"'] = lookalike attr .double from rfl, double,
      show attr.string.toList ++ ['=', '\''] = lookalike attr .single from rfl]
    cases single : cut (lookalike attr .single) seen with
    | some found =>
      refine (map_cut_quote (q := .single)).trans ⟨?_, ?_⟩
      · rintro ⟨same, ends⟩
        exact ⟨.single, (chosen_of_single double single).2 ⟨rfl, same⟩, ends⟩
      · rintro ⟨q, choice, ends⟩
        obtain ⟨rfl, same⟩ := (chosen_of_single double single).1 choice
        exact ⟨same, ends⟩
    | none => simp [not_chosen double single]

/-- A value that is taken for a link is not empty. -/
theorem linkFound_iff {found : Text × Text} : linkFound attr.string seen after = some found ↔
    found.1 ≠ [] ∧ ∃ q rest, Chosen attr seen q rest ∧ found.2 = rest ++ after ∧
      ∃ t, rest = found.1 ++ q.char :: t ∧ q.char ∉ found.1 := by
  obtain ⟨value, place⟩ := found
  unfold linkFound
  rw [Option.map_eq_some_iff]
  constructor
  · rintro ⟨⟨v, rest⟩, kept, same⟩
    obtain ⟨rfl, rfl⟩ := Prod.mk.inj same
    obtain ⟨hf, nonempty⟩ := Option.filter_eq_some_iff.1 kept
    obtain ⟨q, choice, ends⟩ := attrFound_iff.1 hf
    exact ⟨of_decide_eq_true nonempty, q, rest, choice, rfl, ends⟩
  · rintro ⟨nonempty, q, rest, choice, rfl, ends⟩
    refine ⟨(value, rest), Option.filter_eq_some_iff.2 ⟨attrFound_iff.2 ⟨q, choice, ends⟩, ?_⟩, rfl⟩
    exact decide_eq_true nonempty

theorem char_injective {q q' : Quote} (h : q.char = q'.char) : q = q' := by
  cases q <;> cases q' <;> first | rfl | exact absurd h (by decide)

theorem linkIn_spec {attributes : List Attribute} {tail : Text} {a : Attribute}
    (h : linkIn attr attributes tail = some (a, rest)) :
    a.value ≠ [] ∧ (∃ t, rest = a.rest t) ∧ rest <:+ attributes.flatMap Attribute.text ++ tail := by
  induction attributes with
  | nil => exact nomatch h
  | cons b attributes ih =>
    unfold linkIn at h
    split_ifs at h with links
    · obtain ⟨rfl, rfl⟩ := Prod.mk.inj (Option.some.inj h)
      refine ⟨links.2, ⟨_, rfl⟩,
        b.space ++ b.name.string.toList ++ b.beforeEq ++ '=' :: (b.afterEq ++ [b.quote.char]), ?_⟩
      simp [Attribute.text, Attribute.rest]
    · obtain ⟨nonempty, ends, suffix⟩ := ih h
      refine ⟨nonempty, ends, suffix.trans ?_⟩
      rw [List.flatMap_cons, List.append_assoc]
      exact List.suffix_append _ _

theorem link_spec {a : Attribute} (h : item.link tag attr = some (a, rest)) :
    a.value ≠ [] ∧ (∃ t, rest = a.rest t) ∧ rest <:+ item.text := by
  cases item with
  | startTag t =>
    rw [Item.link] at h
    split_ifs at h
    obtain ⟨nonempty, ends, suffix⟩ := linkIn_spec h
    refine ⟨nonempty, ends, suffix.trans ⟨'<' :: t.name.string.toList, ?_⟩⟩
    simp [Item.text, StartTag.text]
  | endTag => exact nomatch h
  | charData => exact nomatch h

/-- The scan is right about an item exactly when it finds its link, at its place, or none when it has none. -/
theorem linkFound_eq_iff (after : Text) : linkFound attr.string seen after =
    (item.link tag attr).map (fun l => (l.1.value, l.2 ++ after)) ↔ SeenRight tag attr item seen := by
  unfold SeenRight
  cases link : item.link tag attr with
  | some l =>
    obtain ⟨a, place⟩ := l
    obtain ⟨nonempty, ⟨t, rfl⟩, -⟩ := link_spec link
    rw [Option.map_some, linkFound_iff]
    constructor
    · rintro ⟨-, q, rest, choice, same, t', split, -⟩
      obtain rfl : rest = a.rest t := (List.append_cancel_right same).symm
      have quote : q = a.quote := by
        have tails := List.append_cancel_left
          (show a.value ++ a.quote.char :: t = a.value ++ q.char :: t' from split)
        exact char_injective (List.cons.inj tails).1.symm
      rw [quote] at choice
      exact choice
    · exact fun choice => ⟨nonempty, a.quote, _, choice, rfl, t, rfl, a.quoted⟩
  | none =>
    rw [Option.map_none]
    constructor
    · intro missing q rest choice
      by_contra both
      rw [not_or, not_not] at both
      obtain ⟨value, t, rfl, free⟩ := List.eq_append_cons_of_mem both.1
      have nonempty : value ≠ [] := by
        rintro rfl
        exact both.2 rfl
      have found : linkFound attr.string seen after = some (value, value ++ q.char :: t ++ after) :=
        linkFound_iff.2 ⟨nonempty, q, _, choice, rfl, t, rfl, free⟩
      rw [missing] at found
      exact nomatch found
    · intro silent
      cases hf : linkFound attr.string seen after with
      | none => rfl
      | some found =>
        obtain ⟨nonempty, q, rest, choice, -, t, rfl, free⟩ := linkFound_iff.1 hf
        obtain ⟨c, value, split⟩ := List.exists_cons_of_ne_nil nonempty
        rw [split] at free
        rcases silent q _ choice with open' | closed
        · exact absurd (by simp) open'
        · rw [split] at closed
          exact absurd (Option.some.inj closed ▸ List.mem_cons_self) free

end Found

section Lists

/-- Elements that are longer than those after them are told apart from them. -/
theorem toList_append_inj {x y : Option (Text × Text)} {l l' : List (Text × Text)} {n : ℕ}
    (hx : ∀ f ∈ x, n < f.2.length) (hy : ∀ f ∈ y, n < f.2.length) (hl : ∀ f ∈ l, f.2.length ≤ n)
    (hl' : ∀ f ∈ l', f.2.length ≤ n) : x.toList ++ l = y.toList ++ l' ↔ x = y ∧ l = l' := by
  cases x with
  | none =>
    cases y with
    | none => simp
    | some f =>
      refine ⟨fun same => ?_, fun h => nomatch h.1⟩
      have mem : f ∈ l := by
        rw [show l = f :: l' from same]
        exact List.mem_cons_self
      exact absurd (hl f mem) (not_le.2 (hy f rfl))
  | some f =>
    cases y with
    | none =>
      refine ⟨fun same => ?_, fun h => nomatch h.1⟩
      have mem : f ∈ l' := by
        rw [← show f :: l = l' from same]
        exact List.mem_cons_self
      exact absurd (hl' f mem) (not_le.2 (hx f rfl))
    | some f' => simp

end Lists

section Places

variable {tag attr : Name} {item : Item} {doc : List Item} {seen : Text}

theorem chosen_suffix {q : Quote} {rest : Text} (h : Chosen attr seen q rest) : rest <:+ seen := by
  have behind {pattern : Text} (h : (cut pattern seen).map (·.2) = some rest) : rest <:+ seen := by
    obtain ⟨⟨before, after⟩, hcut, rfl⟩ := Option.map_eq_some_iff.1 h
    exact ⟨before ++ pattern, (cut_eq_some hcut).symm⟩
  cases q with
  | double => exact behind h
  | single => exact behind h.2

theorem length_linkFound {after : Text} : ∀ f ∈ linkFound attr.string seen after,
    after.length < f.2.length ∧ f.2.length ≤ (seen ++ after).length := by
  intro f hf
  obtain ⟨-, q, rest, choice, place, t, split, -⟩ := linkFound_iff.1 hf
  have short := (chosen_suffix choice).length_le
  rw [place, List.length_append, List.length_append]
  rw [split, List.length_append, List.length_cons] at short ⊢
  omega

theorem length_link : ∀ f ∈ (item.link tag attr).map (fun l => (l.1.value, l.2 ++ render doc)),
    (render doc).length < f.2.length ∧ f.2.length ≤ (render (item :: doc)).length := by
  intro f hf
  obtain ⟨⟨a, rest⟩, link, rfl⟩ := Option.map_eq_some_iff.1 hf
  obtain ⟨-, ⟨t, split⟩, suffix⟩ := link_spec link
  have short := suffix.length_le
  show _ < (rest ++ render doc).length ∧ (rest ++ render doc).length ≤ (item.text ++ render doc).length
  rw [List.length_append, List.length_append]
  refine ⟨?_, by omega⟩
  rw [split, Attribute.rest, List.length_append, List.length_cons]
  omega

theorem length_links : ∀ f ∈ links tag attr doc, f.2.length ≤ (render doc).length := by
  induction doc with
  | nil => exact List.forall_mem_nil _
  | cons item doc ih =>
    intro f hf
    rcases List.mem_append.1 hf with here | later
    · exact (length_link f (Option.mem_toList.1 here)).2
    · refine (ih f later).trans ?_
      show _ ≤ (item.text ++ render doc).length
      rw [List.length_append]
      omega

theorem visible_suffix {passing : Bool} {s : Text} (h : visible tag passing item = some s) :
    s <:+ item.text := by
  unfold visible at h
  split_ifs at h
  · exact closing_suffix h
  · exact Option.some.inj h ▸ List.suffix_rfl

theorem length_walk {passing : Bool} : ∀ f ∈ walk tag attr passing doc, f.2.length ≤ (render doc).length := by
  induction doc generalizing passing with
  | nil => exact List.forall_mem_nil _
  | cons item doc ih =>
    have whole : (render (item :: doc)).length = item.text.length + (render doc).length := List.length_append
    intro f hf
    rw [walk] at hf
    cases hv : visible tag passing item with
    | none =>
      rw [hv] at hf
      have := ih f hf
      omega
    | some s =>
      rw [hv] at hf
      dsimp only at hf
      cases ho : opening tag s with
      | none =>
        rw [ho] at hf
        have := ih f hf
        omega
      | some seen =>
        rw [ho] at hf
        rcases List.mem_append.1 hf with here | later
        · have inside :=
            ((seen_eq ((piece_text item).suffix (visible_suffix hv)) ho).1.trans (visible_suffix hv)).length_le
          have short := (length_linkFound f (Option.mem_toList.1 here)).2
          rw [List.length_append] at short
          omega
        · have := ih f later
          omega

end Places

/-- The scan finds the links of the document, at their places, exactly when it is clear. -/
theorem walk_eq_links_iff (tag attr : Name) (passing : Bool) (doc : List Item) :
    walk tag attr passing doc = links tag attr doc ↔ Clear tag attr passing doc := by
  induction doc generalizing passing with
  | nil => exact iff_of_true rfl trivial
  | cons item doc ih =>
    have unseen {passing : Bool} : walk tag attr passing doc = links tag attr (item :: doc) ↔
        item.link tag attr = none ∧ Clear tag attr passing doc := by
      have split :
          (none : Option (Text × Text)).toList ++ walk tag attr passing doc = links tag attr (item :: doc) ↔ _ :=
        toList_append_inj nofun (fun f hf => (length_link f hf).1) length_walk length_links
      rw [← ih]
      refine split.trans (and_congr_left' ?_)
      rw [eq_comm, Option.map_eq_none_iff]
    rw [walk, Clear]
    cases visible tag passing item with
    | none => exact unseen
    | some s =>
      dsimp only
      cases opening tag s with
      | none => exact unseen
      | some seen =>
        dsimp only
        rw [← linkFound_eq_iff (render doc), ← ih]
        exact toList_append_inj (fun f hf => (length_linkFound f hf).1) (fun f hf => (length_link f hf).1)
          length_walk length_links

/-- Extraction is exact: it finds the links of the document, at their places, and makes one link of each. -/
structure ExtractsLinks (base : Text) (depth : ℕ) (tag attr : Name) (doc : List Item) : Prop where
  places : findLinks (render doc) tag.string attr.string = links tag attr doc
  extracted : ∃ found, extractAttr (render doc) base depth tag.string attr.string = some found ∧
    (links tag attr doc).map (fun l => linkOf base depth tag.string attr.string l.1) = found.map some

/-- `resolve_url` does not panic. -/
def Resolves (base href : Text) : Prop := startsWith href "../" = false ∨ HasDirectory base ∨ EndsInByte base

theorem linkOf_isSome_iff {base href : Text} {depth : ℕ} {tag attr : String} :
    (linkOf base depth tag attr href).isSome = true ↔ Resolves base href := by
  rw [linkOf, Option.isSome_map]
  exact isSome_resolveUrl base href

theorem mapM_eq_some_iff {α β : Type} {f : α → Option β} {l : List α} {l' : List β} :
    l.mapM f = some l' ↔ l.map f = l'.map some := by
  induction l generalizing l' with
  | nil =>
    cases l' with
    | nil => exact iff_of_true rfl rfl
    | cons b l' => exact ⟨fun h => (nomatch (Option.some.inj h : [] = b :: l')), nofun⟩
  | cons a l ih =>
    rw [List.mapM_cons, List.map_cons]
    cases here : f a with
    | none => exact ⟨nofun, fun h => by cases l' <;> exact nomatch h⟩
    | some b =>
      show ((l.mapM f).bind fun rest => some (b :: rest)) = some l' ↔ _
      rw [Option.bind_eq_some_iff]
      constructor
      · rintro ⟨rest, run, same⟩
        rw [← Option.some.inj same, ih.1 run]
        rfl
      · intro same
        cases l' with
        | nil => exact nomatch same
        | cons b' l' =>
          obtain ⟨first, rest⟩ := List.cons.inj same
          exact ⟨l', ih.2 rest, by rw [Option.some.inj first]⟩

theorem exists_mapM_some {α β : Type} {f : α → Option β} {l : List α} (h : ∀ a ∈ l, (f a).isSome = true) :
    ∃ l', l.mapM f = some l' := by
  induction l with
  | nil => exact ⟨[], rfl⟩
  | cons a l ih =>
    obtain ⟨here, rest⟩ := List.forall_mem_cons.1 h
    obtain ⟨b, hb⟩ := Option.isSome_iff_exists.1 here
    obtain ⟨l', hl'⟩ := ih rest
    exact ⟨b :: l', by rw [List.mapM_cons, hb, hl']; rfl⟩

/-- Link extraction is exact exactly when the scan is clear and no link panics. -/
theorem extractsLinks_iff (base : Text) (depth : ℕ) (tag attr : Name) (doc : List Item) :
    ExtractsLinks base depth tag attr doc ↔
      Clear tag attr false doc ∧ ∀ l ∈ links tag attr doc, Resolves base l.1 := by
  have found : findLinks (render doc) tag.string attr.string = walk tag attr false doc :=
    (agrees tag attr doc).start _ le_rfl
  constructor
  · intro exact
    refine ⟨(walk_eq_links_iff tag attr false doc).1 (found.symm.trans exact.places), fun l hl => ?_⟩
    obtain ⟨all, -, same⟩ := exact.extracted
    have made := List.mem_map_of_mem (f := fun l => linkOf base depth tag.string attr.string l.1) hl
    rw [same] at made
    obtain ⟨link, -, some⟩ := List.mem_map.1 made
    exact linkOf_isSome_iff.1 (Option.isSome_of_eq_some some.symm)
  · rintro ⟨clear, resolves⟩
    have places := found.trans ((walk_eq_links_iff tag attr false doc).2 clear)
    refine ⟨places, ?_⟩
    rw [extractAttr_eq, places]
    have each : ∀ l ∈ links tag attr doc, (linkOf base depth tag.string attr.string l.1).isSome = true :=
      fun l hl => linkOf_isSome_iff.2 (resolves l hl)
    obtain ⟨all, made⟩ := exists_mapM_some each
    exact ⟨all, made, mapM_eq_some_iff.1 made⟩

theorem plain_of_all {s : String} (h : s.toList.all (fun c => !isMarkup c) = true) :
    ∀ c ∈ s.toList, isMarkup c = false := by
  simpa using h

/-- `a`. -/
def anchor : Name := ⟨"a", by decide, plain_of_all (by decide)⟩

/-- `href`. -/
def href : Name := ⟨"href", by decide, plain_of_all (by decide)⟩

/-- `<a href="..">`. -/
def anchorTo (value : Text) (quoted : '"' ∉ value) (inside : '>' ∉ value) : Item :=
  .startTag ⟨anchor, [⟨[' '], href, [], [], .double, value, List.cons_ne_nil _ _, List.forall_mem_singleton.2 rfl,
    quoted, inside⟩], [], List.nodup_singleton _, List.forall_mem_nil _⟩

/-- `<a href="/x"><a href="/y"></a>`. -/
def oneClosed : List Item := [anchorTo "/x".toList (by decide) (by decide),
  anchorTo "/y".toList (by decide) (by decide), .endTag ⟨anchor, [], List.forall_mem_nil _⟩]

/-- The second of two links is passed over when only one of them is closed. -/
theorem not_extractsLinks : ¬ExtractsLinks "https://example.com/".toList 0 anchor href oneClosed := by
  rintro ⟨-, found, run, same⟩
  have one : (some found).map List.length = some 1 := by
    rw [← run]
    decide
  have two := congrArg List.length same
  rw [List.length_map, List.length_map, Option.some.inj one] at two
  revert two
  decide

end TORdex.Crawler
