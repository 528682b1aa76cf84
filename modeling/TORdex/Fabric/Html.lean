import TORdex.Fabric.Crawler

/-!
# Well-formed HTML

Start tags with quoted attributes, end tags, and character data.  The values of attributes have no `>`, but they
may have `<`.
-/

namespace TORdex.Html

open Crawler (Text)

/-- White space in tags. -/
def isBlank (c : Char) : Bool := c = ' ' || c = '\t' || c = '\n' || c = '\r' || c = Char.ofNat 12

/-- What stands in no name. -/
def isMarkup (c : Char) : Bool :=
  isBlank c || c = '<' || c = '>' || c = '/' || c = '=' || c = '"' || c = '\''

/-- The name of a tag or an attribute. -/
structure Name where
  string : String
  nonempty : string.toList ≠ []
  plain : ∀ c ∈ string.toList, isMarkup c = false

/-- The quotes of a value. -/
inductive Quote where
  | double
  | single
  deriving DecidableEq

/-- The character of a quote. -/
def Quote.char : Quote → Char
  | double => '"'
  | single => '\''

/-- White space, a name, an equals sign with white space around it, and a quoted value. -/
structure Attribute where
  space : Text
  name : Name
  beforeEq : Text
  afterEq : Text
  quote : Quote
  value : Text
  spaced : space ≠ []
  blank : ∀ c ∈ space ++ beforeEq ++ afterEq, isBlank c = true
  quoted : quote.char ∉ value
  inside : '>' ∉ value

/-- The value of an attribute and what follows it. -/
def Attribute.rest (a : Attribute) (after : Text) : Text := a.value ++ a.quote.char :: after

/-- An attribute as it is written. -/
def Attribute.text (a : Attribute) : Text :=
  a.space ++ a.name.string.toList ++ a.beforeEq ++ '=' :: (a.afterEq ++ a.quote.char :: a.rest [])

/-- No two attributes have the same name. -/
structure StartTag where
  name : Name
  attributes : List Attribute
  tail : Text
  distinct : (attributes.map fun a => a.name.string).Nodup
  ends : ∀ c ∈ tail, isBlank c = true ∨ c = '/'

/-- A start tag as it is written. -/
def StartTag.text (t : StartTag) : Text :=
  '<' :: (t.name.string.toList ++ (t.attributes.flatMap Attribute.text ++ t.tail)) ++ ['>']

/-- An end tag. -/
structure EndTag where
  name : Name
  tail : Text
  blank : ∀ c ∈ tail, isBlank c = true

/-- An end tag as it is written. -/
def EndTag.text (t : EndTag) : Text := '<' :: '/' :: (t.name.string.toList ++ t.tail) ++ ['>']

/-- Character data. -/
structure CharData where
  text : Text
  free : '<' ∉ text

/-- A tag or a text between tags. -/
inductive Item where
  | startTag (t : StartTag)
  | endTag (t : EndTag)
  | charData (d : CharData)

/-- An item as it is written. -/
def Item.text : Item → Text
  | startTag t => t.text
  | endTag t => t.text
  | charData d => d.text

/-- A document as it is written. -/
def render (doc : List Item) : Text := doc.flatMap Item.text

/-- The attribute named `attr` whose value is not empty, and the text from its value on. -/
def linkIn (attr : Name) : List Attribute → Text → Option (Attribute × Text)
  | [], _ => none
  | a :: attributes, tail =>
    if a.name.string = attr.string ∧ a.value ≠ [] then
      some (a, a.rest (attributes.flatMap Attribute.text ++ tail))
    else linkIn attr attributes tail

/-- The link of a start tag named `tag`: its attribute named `attr`, and the text of the tag from its value on. -/
def Item.link (tag attr : Name) : Item → Option (Attribute × Text)
  | startTag t => if t.name.string = tag.string then linkIn attr t.attributes (t.tail ++ ['>']) else none
  | _ => none

/-- The values that link the tags of a document, each with the text from it on. -/
def links (tag attr : Name) : List Item → List (Text × Text)
  | [] => []
  | item :: doc => ((item.link tag attr).map fun l => (l.1.value, l.2 ++ render doc)).toList ++ links tag attr doc

/-! ## Pieces -/

/-- Text in which a search for markup does not go on past the end: without `<`, or with one `>` at its end. -/
def Piece (s : Text) : Prop := '<' ∉ s ∨ ∃ inner, s = inner ++ ['>'] ∧ '>' ∉ inner

theorem Piece.suffix {s t : Text} (h : Piece s) (suffix : t <:+ s) : Piece t := by
  obtain ⟨front, rfl⟩ := suffix
  rcases h with free | ⟨inner, split, closed⟩
  · exact .inl fun mem => free (List.mem_append_right _ mem)
  · rcases List.eq_nil_or_concat t with rfl | ⟨init, c, rfl⟩
    · exact .inl List.not_mem_nil
    · rw [List.concat_eq_append, ← List.append_assoc] at split
      obtain ⟨rfl, last⟩ := List.append_inj' split rfl
      rw [List.concat_eq_append, last]
      exact .inr ⟨init, rfl, fun mem => closed (List.mem_append_right _ mem)⟩

theorem plain_of_name {name : Name} {c : Char} (h : isMarkup c = true) : c ∉ name.string.toList := by
  intro mem
  rw [name.plain c mem] at h
  exact nomatch h

theorem not_mem_blank {s : Text} {c : Char} (blank : ∀ d ∈ s, isBlank d = true)
    (h : isBlank c = false) : c ∉ s := by
  intro mem
  rw [blank c mem] at h
  exact nomatch h

theorem Attribute.not_mem_text (a : Attribute) : '>' ∉ a.text := by
  have space : '>' ∉ a.space ++ a.beforeEq ++ a.afterEq := not_mem_blank a.blank (by decide)
  have name : '>' ∉ a.name.string.toList := plain_of_name (by decide)
  have quote : '>' ≠ a.quote.char := by cases a.quote <;> decide
  simp only [List.mem_append, not_or] at space
  simp [Attribute.text, Attribute.rest, space, name, quote, a.inside]

theorem piece_text (item : Item) : Piece item.text := by
  cases item with
  | startTag t =>
    refine .inr ⟨_, rfl, ?_⟩
    have name : '>' ∉ t.name.string.toList := plain_of_name (by decide)
    have attributes : '>' ∉ t.attributes.flatMap Attribute.text := by
      intro mem
      obtain ⟨a, -, mem⟩ := List.mem_flatMap.1 mem
      exact a.not_mem_text mem
    have tail : '>' ∉ t.tail := by
      intro mem
      rcases t.ends _ mem with blank | slash
      · exact absurd blank (by decide)
      · exact absurd slash (by decide)
    simp [name, attributes, tail]
  | endTag t =>
    refine .inr ⟨_, rfl, ?_⟩
    have name : '>' ∉ t.name.string.toList := plain_of_name (by decide)
    have tail : '>' ∉ t.tail := not_mem_blank t.blank (by decide)
    simp [name, tail]
  | charData d => exact .inl d.free

end TORdex.Html
