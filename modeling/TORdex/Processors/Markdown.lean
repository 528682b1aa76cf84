import TORdex.Core.Primitives
import TORdex.Core.Processor
import TORdex.Fabric.Crawler

/-!
# The markdown processor

The loop over the parser's events, with its accumulators for headings, code blocks and text, and the headings that it
reports.
-/

namespace TORdex.MarkdownProcessor

/-! ## Events -/

/-- The level of a heading. -/
inductive HeadingLevel where
  | h1
  | h2
  | h3
  | h4
  | h5
  | h6
  deriving DecidableEq

/-- `level as u32`. -/
def HeadingLevel.toNat : HeadingLevel → ℕ
  | h1 => 1
  | h2 => 2
  | h3 => 3
  | h4 => 4
  | h5 => 5
  | h6 => 6

/-- What starts and ends, with what the loop reads of it: `Tag` and `TagEnd`. -/
inductive Tag where
  | heading (level : HeadingLevel)
  | codeBlock
  | other (kind : String)
  deriving DecidableEq

/-- What the parser of Markdown reports. -/
inductive Event where
  | start (tag : Tag)
  | stop (tag : Tag)
  | text (t : String)
  | code (t : String)
  | other (kind : String)
  deriving DecidableEq

/-! ## The loop -/

/-- What has been extracted so far. -/
structure Extraction where
  results : List ProcessedObservation
  headings : List (ℕ × String)
  textParts : List String
  codeBlocks : List String
  inCodeBlock : Bool
  headingLevel : ℕ
  inHeading : Bool

namespace Extraction

/-- `headings.last().map(|(_, t)| t.clone()).unwrap_or_default()`. -/
def lastHeading (s : Extraction) : String := (s.headings.getLast?.map Prod.snd).getD ""

/-- The text of an event, by where it stands. -/
def addText (s : Extraction) (text : String) : Extraction :=
  if s.inHeading then
    match s.headings.getLast? with
    | some (level, existing) => { s with headings := s.headings.dropLast ++ [(level, existing ++ text)] }
    | none => { s with headings := s.headings ++ [(s.headingLevel, text)] }
  else if s.inCodeBlock then
    match s.codeBlocks.getLast? with
    | some last => { s with codeBlocks := s.codeBlocks.dropLast ++ [last ++ text] }
    | none => s
  else { s with textParts := s.textParts ++ [text] }

/-- The observation at the end of a heading. -/
def headingObservation (id : String) (s : Extraction) : ProcessedObservation :=
  (ProcessedObservation.new (id ++ "_h" ++ toString s.headingLevel ++ "_" ++ toString s.headings.length)
    "markdown.heading" (textBytes s.lastHeading) "text/plain")
    |>.withMetadata "heading_level" (toString s.headingLevel)
    |>.withMetadata "source_observation" id

/-- The body of the loop over events. -/
def step (id : String) (s : Extraction) : Event → Extraction
  | .start (.heading level) => { s with headingLevel := level.toNat, inHeading := true }
  | .stop (.heading _) =>
    let results :=
      if s.inHeading && s.lastHeading ≠ "" then s.results ++ [s.headingObservation id] else s.results
    { s with results, inHeading := false }
  | .start .codeBlock => { s with inCodeBlock := true, codeBlocks := s.codeBlocks ++ [""] }
  | .stop .codeBlock => { s with inCodeBlock := false }
  | .text t => s.addText t
  | .code t => s.addText t
  | .start (.other _) => s
  | .stop (.other _) => s
  | .other _ => s

/-- What is extracted from a list of events. -/
def run (id : String) (s : Extraction) (events : List Event) : Extraction := events.foldl (step id) s

end Extraction

/-! ## The processor -/

open Crawler in
/-- The text between the first line of dashes and the next. -/
def extractFrontmatter (s : String) : Option String :=
  let s := trimText s.toList
  if startsWith s "---" then
    match cut "\n---".toList (s.drop 3) with
    | some (front, _) =>
      let fm := String.ofList (trimText front)
      if fm ≠ "" then some fm else none
    | none => none
  else none

/-- The observations for the code blocks, from the one with the given number on. -/
def codeObservations (id : String) : ℕ → List String → List ProcessedObservation
  | _, [] => []
  | i, code :: codes =>
    (if code ≠ "" then
      [(ProcessedObservation.new (id ++ "_code_" ++ toString i) "markdown.code_block" (textBytes code) "text/plain")
        |>.withMetadata "source_observation" id]
    else []) ++ codeObservations id (i + 1) codes

/-- `text_parts.join(" ")`. -/
def plainText (textParts : List String) : String := " ".intercalate textParts

/-- The processor, with the events that the parser makes of a text and the message for bytes that are not UTF-8. -/
def process (parse : String → List Event) (utf8Error : List UInt8 → String) (id : String) (data : List UInt8)
    (_contentType : Option String) (_metadata : HashMap String String) :
    Except ProcessorError (List ProcessedObservation) :=
  match fromUtf8 data with
  | none => .error (.invalidInput (utf8Error data))
  | some md =>
    let frontmatter :=
      match extractFrontmatter md with
      | some fm =>
        [(ProcessedObservation.new (id ++ "_frontmatter") "markdown.frontmatter" (textBytes fm) "text/yaml")
          |>.withMetadata "source_observation" id]
      | none => []
    let s := Extraction.run id ⟨frontmatter, [], [], [], false, 0, false⟩ (parse md)
    let text :=
      if plainText s.textParts ≠ "" then
        [(ProcessedObservation.new (id ++ "_text") "markdown.text" (textBytes (plainText s.textParts)) "text/plain")
          |>.withMetadata "source_observation" id]
      else []
    let results := s.results ++ text ++ codeObservations id 0 s.codeBlocks
    if results.isEmpty then .error (.processingFailed "no content extracted from Markdown") else .ok results

/-! ## Documents -/

/-- The text of an event, if it has one. -/
def Event.spoken : Event → Option String
  | text t => some t
  | code t => some t
  | _ => none

/-- The text and code of events in one. -/
def spokenText (events : List Event) : String := String.join (events.filterMap Event.spoken)

/-- Well-nested events with their headings, each with its level and its text.  No heading is inside another. -/
inductive Document : List Event → List (HeadingLevel × String) → Prop where
  | nil : Document [] []
  | leaf {e rest hs} (single : ∀ tag, e ≠ .start tag ∧ e ≠ .stop tag) (more : Document rest hs) :
    Document (e :: rest) hs
  | heading (level : HeadingLevel) {inner rest hs} (inside : Document inner []) (more : Document rest hs) :
    Document (.start (.heading level) :: (inner ++ .stop (.heading level) :: rest)) ((level, spokenText inner) :: hs)
  | element {tag inner rest hs hs'} (other : ∀ level, tag ≠ .heading level) (inside : Document inner hs)
    (more : Document rest hs') : Document (.start tag :: (inner ++ .stop tag :: rest)) (hs ++ hs')

/-- The levels and texts of the headings that are reported. -/
def headingReports (results : List ProcessedObservation) : List (Option String × List UInt8) :=
  (results.filter fun o => o.kind = "markdown.heading").map fun o => (o.metadata.lookup "heading_level", o.data)

/-- The reports of the headings in a result. -/
def reported (result : Except ProcessorError (List ProcessedObservation)) : List (Option String × List UInt8) :=
  headingReports (result.toOption.getD [])

/-- A heading as it is to be reported. -/
def report (h : HeadingLevel × String) : Option String × List UInt8 := (some (toString h.1.toNat), textBytes h.2)

theorem toString_level_injective : Function.Injective fun level : HeadingLevel => toString level.toNat := by
  intro level level'
  cases level <;> cases level' <;> decide

theorem report_injective : Function.Injective report := by
  rintro ⟨level, text⟩ ⟨level', text'⟩ same
  obtain ⟨levels, texts⟩ := Prod.mk.inj same
  have texts : text = text' := textBytes_injective texts
  have levels : level = level' := toString_level_injective (Option.some.inj levels)
  rw [texts, levels]

/-! ## What is heard -/

@[simp] theorem headingReports_append (results more : List ProcessedObservation) :
    headingReports (results ++ more) = headingReports results ++ headingReports more := by
  simp [headingReports]

/-- The loop never begins the text anew, so each heading comes with the text of all before it. -/
def heard : String → List (HeadingLevel × String) → List (HeadingLevel × String)
  | _, [] => []
  | before, (level, text) :: hs =>
    (if before ++ text ≠ "" then [(level, before ++ text)] else []) ++ heard (before ++ text) hs

/-- The text of all headings. -/
def allText (hs : List (HeadingLevel × String)) : String := String.join (hs.map Prod.snd)

theorem heard_append (before : String) (hs hs' : List (HeadingLevel × String)) :
    heard before (hs ++ hs') = heard before hs ++ heard (before ++ allText hs) hs' := by
  induction hs generalizing before with
  | nil => simp [heard, allText]
  | cons h hs ih =>
    rw [List.cons_append, heard, heard, ih, List.append_assoc, allText, allText, List.map_cons, String.join_cons,
      String.append_assoc]

theorem Document.no_heading {events : List Event} {hs : List (HeadingLevel × String)} (d : Document events hs)
    (none : hs = []) : ∀ e ∈ events, ∀ level, e ≠ .start (.heading level) ∧ e ≠ .stop (.heading level) := by
  induction d with
  | nil => simp
  | leaf single _ ih => exact List.forall_mem_cons.2 ⟨fun level => single _, ih none⟩
  | heading => cases none
  | element other _ _ ih ih' =>
    obtain ⟨none, none'⟩ := List.append_eq_nil_iff.1 none
    simp only [List.mem_cons, List.mem_append]
    rintro e (rfl | mem | rfl | mem) level
    · simp [other]
    · exact ih none e mem level
    · simp [other]
    · exact ih' none' e mem level

namespace Extraction

variable {id : String} {s : Extraction}

theorem lastHeading_addText (inside : s.inHeading = true) (text : String) :
    (s.addText text).lastHeading = s.lastHeading ++ text ∧ (s.addText text).results = s.results ∧
      (s.addText text).inHeading = true ∧ (s.addText text).headingLevel = s.headingLevel := by
  unfold addText lastHeading
  rw [if_pos inside]
  cases last : s.headings.getLast? with
  | none => simp [inside]
  | some h => simp [inside]

/-- Events inside a heading add their texts to the last heading. -/
theorem run_inside {events : List Event}
    (plain : ∀ e ∈ events, ∀ level, e ≠ .start (.heading level) ∧ e ≠ .stop (.heading level))
    (inside : s.inHeading = true) : (run id s events).lastHeading = s.lastHeading ++ spokenText events ∧
      (run id s events).results = s.results ∧ (run id s events).inHeading = true ∧
      (run id s events).headingLevel = s.headingLevel := by
  induction events generalizing s with
  | nil => simp [run, spokenText, inside]
  | cons e events ih =>
    obtain ⟨here, plain⟩ := List.forall_mem_cons.1 plain
    have one : (s.step id e).lastHeading = s.lastHeading ++ (e.spoken.getD "") ∧ (s.step id e).results = s.results ∧
        (s.step id e).inHeading = true ∧ (s.step id e).headingLevel = s.headingLevel := by
      cases e with
      | start tag =>
        cases tag with
        | heading level => exact absurd rfl (here level).1
        | codeBlock => simp [step, lastHeading, Event.spoken, inside]
        | other kind => simp [step, Event.spoken, inside]
      | stop tag =>
        cases tag with
        | heading level => exact absurd rfl (here level).2
        | codeBlock => simp [step, lastHeading, Event.spoken, inside]
        | other kind => simp [step, Event.spoken, inside]
      | text t => exact lastHeading_addText inside t
      | code t => exact lastHeading_addText inside t
      | other kind => simp [step, Event.spoken, inside]
    obtain ⟨text, results, inside, level⟩ := one
    obtain ⟨text', results', inside', level'⟩ := ih plain inside
    refine ⟨?_, results'.trans results, inside', level'.trans level⟩
    rw [run, List.foldl_cons, ← run, text', text, String.append_assoc]
    cases h : e.spoken <;> simp [spokenText, h]

/-- Text outside headings leaves them. -/
theorem lastHeading_addText_outside (outside : s.inHeading = false) (text : String) :
    (s.addText text).lastHeading = s.lastHeading ∧ (s.addText text).results = s.results ∧
      (s.addText text).inHeading = false := by
  unfold addText lastHeading
  rw [outside, if_neg Bool.false_ne_true]
  split_ifs
  · cases s.codeBlocks.getLast? <;> simp [outside]
  · simp

/-- The end of a heading reports what was heard, if that is anything. -/
theorem headingReports_stop (level : HeadingLevel) (inside : s.inHeading = true) :
    headingReports (s.step id (.stop (.heading level))).results = headingReports s.results ++
      if s.lastHeading ≠ "" then [(some (toString s.headingLevel), textBytes s.lastHeading)] else [] := by
  have observed : headingReports [s.headingObservation id] =
      [(some (toString s.headingLevel), textBytes s.lastHeading)] := by
    simp [headingReports, headingObservation, ProcessedObservation.new, ProcessedObservation.withMetadata]
  simp only [step, inside, Bool.true_and, decide_eq_true_eq]
  split_ifs
  · rw [headingReports_append, observed]
  · rw [List.append_nil]

theorem run_append (s : Extraction) (events more : List Event) :
    run id s (events ++ more) = run id (run id s events) more := List.foldl_append

theorem run_cons (s : Extraction) (e : Event) (events : List Event) :
    run id s (e :: events) = run id (s.step id e) events := rfl

/-- A document adds the observations of its headings. -/
theorem run_document {events : List Event} {hs : List (HeadingLevel × String)} (d : Document events hs)
    (outside : s.inHeading = false) : (run id s events).lastHeading = s.lastHeading ++ allText hs ∧
      headingReports (run id s events).results =
        headingReports s.results ++ (heard s.lastHeading hs).map report ∧
      (run id s events).inHeading = false := by
  induction d generalizing s with
  | nil => simp [run, allText, heard, outside]
  | @leaf e rest hs single more ih =>
    have one : (s.step id e).lastHeading = s.lastHeading ∧ (s.step id e).results = s.results ∧
        (s.step id e).inHeading = false := by
      cases e with
      | start tag => exact absurd rfl (single tag).1
      | stop tag => exact absurd rfl (single tag).2
      | text t => exact lastHeading_addText_outside outside t
      | code t => exact lastHeading_addText_outside outside t
      | other kind => exact ⟨rfl, rfl, outside⟩
    obtain ⟨text, results, outside⟩ := one
    obtain ⟨text', results', outside'⟩ := ih (s := s.step id e) outside
    rw [run, List.foldl_cons, ← run, text', results', text, results]
    exact ⟨rfl, rfl, outside'⟩
  | @heading level inner rest hs inside more _ ih =>
    obtain ⟨text, results, inHeading, atLevel⟩ :=
      run_inside (s := s.step id (.start (.heading level))) (inside.no_heading rfl) rfl
    rw [run_cons, run_append, run_cons]
    set s₁ := run id (s.step id (.start (.heading level))) inner
    have text : s₁.lastHeading = s.lastHeading ++ spokenText inner := text
    have stop := @headingReports_stop id s₁ level inHeading
    obtain ⟨text', results', outside'⟩ := ih (s := s₁.step id (.stop (.heading level))) rfl
    have kept : (s₁.step id (.stop (.heading level))).lastHeading = s₁.lastHeading := rfl
    refine ⟨?_, ?_, outside'⟩
    · rw [text', kept, text, allText, allText, List.map_cons, String.join_cons, String.append_assoc]
    · rw [results', kept, stop, results, atLevel, text, List.append_assoc, heard, List.map_append]
      congr 2
      split_ifs <;> rfl
  | @element tag inner rest hs hs' other inside more ih ih' =>
    have plain (s : Extraction) (outside : s.inHeading = false) (e : Event) (he : e = .start tag ∨ e = .stop tag) :
        (s.step id e).lastHeading = s.lastHeading ∧ (s.step id e).results = s.results ∧
          (s.step id e).inHeading = false := by
      cases tag with
      | heading level => exact absurd rfl (other level)
      | codeBlock => rcases he with rfl | rfl <;> exact ⟨rfl, rfl, outside⟩
      | other kind => rcases he with rfl | rfl <;> exact ⟨rfl, rfl, outside⟩
    obtain ⟨text, results, outside⟩ := plain s outside _ (.inl rfl)
    obtain ⟨text₁, results₁, outside₁⟩ := ih (s := s.step id (.start tag)) outside
    rw [run_cons, run_append, run_cons]
    set s₁ := run id (s.step id (.start tag)) inner
    obtain ⟨text₂, results₂, outside₂⟩ := plain s₁ outside₁ _ (.inr rfl)
    obtain ⟨text₃, results₃, outside₃⟩ := ih' (s := s₁.step id (.stop tag)) outside₂
    refine ⟨?_, ?_, outside₃⟩
    · rw [text₃, text₂, text₁, text, allText, allText, allText, List.map_append, String.join_append,
        String.append_assoc]
    · rw [results₃, results₂, results₁, results, text₂, text₁, text, heard_append, List.map_append,
        List.append_assoc]

end Extraction

/-! ## What is reported -/

theorem headingReports_codeObservations (id : String) (i : ℕ) (codes : List String) :
    headingReports (codeObservations id i codes) = [] := by
  induction codes generalizing i with
  | nil => rfl
  | cons code codes ih =>
    rw [codeObservations, headingReports_append, ih]
    split_ifs <;> rfl

theorem reported_process (parse : String → List Event) (utf8Error : List UInt8 → String) (id md : String)
    (contentType : Option String) (metadata : HashMap String String) {hs : List (HeadingLevel × String)}
    (d : Document (parse md) hs) :
    reported (process parse utf8Error id (textBytes md) contentType metadata) = (heard "" hs).map report := by
  have whole (results : List ProcessedObservation) : reported (if results.isEmpty then
      .error (.processingFailed "no content extracted from Markdown") else .ok results) = headingReports results := by
    cases results <;> rfl
  rw [process, fromUtf8_textBytes]
  dsimp only
  rw [whole, headingReports_append, headingReports_append, headingReports_codeObservations, List.append_nil]
  set frontmatter : List ProcessedObservation := match extractFrontmatter md with
    | some fm =>
      [(ProcessedObservation.new (id ++ "_frontmatter") "markdown.frontmatter" (textBytes fm) "text/yaml")
        |>.withMetadata "source_observation" id]
    | none => [] with hfrontmatter
  have noFront : headingReports frontmatter = [] := by
    rw [hfrontmatter]
    cases extractFrontmatter md <;> rfl
  obtain ⟨-, reports, -⟩ := Extraction.run_document
    (s := ⟨frontmatter, [], [], [], false, 0, false⟩) d rfl
  rw [reports, noFront, List.nil_append]
  split_ifs <;> simp [headingReports, ProcessedObservation.new, ProcessedObservation.withMetadata,
    Extraction.lastHeading]

/-- When a heading has been heard, what comes is right only if nothing comes. -/
theorem heard_eq_filter_iff_nil {before : String} (h : before ≠ "") (hs : List (HeadingLevel × String)) :
    heard before hs = hs.filter (fun h => h.2 ≠ "") ↔ hs = [] := by
  have more (before : String) (h : before ≠ "") (hs : List (HeadingLevel × String)) :
      (heard before hs).length = hs.length := by
    induction hs generalizing before with
    | nil => rfl
    | cons _ hs ih =>
      have full (text : String) : before ++ text ≠ "" := fun e => h (String.append_eq_empty_iff.1 e).1
      rw [heard, if_pos (full _), List.length_append, ih _ (full _), List.length_singleton, List.length_cons,
        Nat.add_comm]
  constructor
  · intro same
    cases hs with
    | nil => rfl
    | cons first hs =>
      obtain ⟨level, text⟩ := first
      have all : (((level, text) :: hs).filter fun h => h.2 ≠ "").length = ((level, text) :: hs).length := by
        rw [← same, more before h]
      rw [List.filter_eq_self.2 fun a mem => List.length_filter_eq_length_iff.1 all a mem] at same
      have full : before ++ text ≠ "" := fun e => h (String.append_eq_empty_iff.1 e).1
      rw [heard, if_pos full] at same
      have head : before ++ text = "" ++ text := by simpa using congrArg Prod.snd (List.cons.inj same).1
      exact absurd ((String.append_left_inj text).1 head) h
  · rintro rfl
    rfl

theorem heard_eq_filter_iff (hs : List (HeadingLevel × String)) :
    heard "" hs = hs.filter (fun h => h.2 ≠ "") ↔ ∀ h ∈ hs.dropLast, h.2 = "" := by
  induction hs with
  | nil => simp [heard]
  | cons h hs ih =>
    obtain ⟨level, text⟩ := h
    rw [heard, String.empty_append]
    by_cases empty : text = ""
    · subst empty
      cases hs with
      | nil => simp [heard]
      | cons h hs => simpa using ih
    · rw [if_pos empty, List.filter_cons_of_pos (by simpa using empty), List.singleton_append, List.cons.injEq,
        and_iff_right rfl, heard_eq_filter_iff_nil empty]
      cases hs with
      | nil => simp
      | cons h hs => simp [empty]

/-- The headings are reported with their own texts exactly if no heading but the last has a text. -/
theorem reported_iff (parse : String → List Event) (utf8Error : List UInt8 → String) (id md : String)
    (contentType : Option String) (metadata : HashMap String String) (hs : List (HeadingLevel × String))
    (d : Document (parse md) hs) :
    reported (process parse utf8Error id (textBytes md) contentType metadata) =
      (hs.filter fun h => h.2 ≠ "").map report ↔ ∀ h ∈ hs.dropLast, h.2 = "" := by
  rw [reported_process parse utf8Error id md contentType metadata d, report_injective.list_map.eq_iff,
    heard_eq_filter_iff]

/-- The events of a title and a subtitle. -/
def titleEvents : List Event :=
  [.start (.heading .h1), .text "Title", .stop (.heading .h1),
    .start (.heading .h2), .text "Subtitle", .stop (.heading .h2)]

theorem titleEvents_document : Document titleEvents [(.h1, "Title"), (.h2, "Subtitle")] := by
  have text (t : String) {rest hs} (more : Document rest hs) : Document (.text t :: rest) hs := .leaf (by simp) more
  exact .heading .h1 (text "Title" .nil) (.heading .h2 (text "Subtitle" .nil) .nil)

theorem reported_iff_title :
    reported (process (fun _ => titleEvents) (fun _ => "") "m" (textBytes "# Title\n\n## Subtitle") none ∅) =
      ([(.h1, "Title"), (.h2, "Subtitle")].filter fun h => h.2 ≠ "").map report ↔
    ∀ h ∈ [(HeadingLevel.h1, "Title"), (.h2, "Subtitle")].dropLast, h.2 = "" :=
  reported_iff _ _ _ _ _ _ _ titleEvents_document

/-- The subtitle is reported as the title and the subtitle. -/
theorem reported_subtitle :
    Document titleEvents [(.h1, "Title"), (.h2, "Subtitle")] ∧
    reported (process (fun _ => titleEvents) (fun _ => "") "m" (textBytes "# Title\n\n## Subtitle") none ∅) =
      [report (.h1, "Title"), report (.h2, "TitleSubtitle")] ∧
    [report (.h1, "Title"), report (.h2, "TitleSubtitle")] ≠
      ([(.h1, "Title"), (.h2, "Subtitle")].filter fun h => h.2 ≠ "").map report := by
  refine ⟨titleEvents_document, ?_, by decide⟩
  rw [reported_process _ _ _ _ _ _ titleEvents_document]
  decide

end TORdex.MarkdownProcessor
