import TORdex.Fabric.Fabric

/-!
# The adaptive crawler

Text is a list of characters.  A byte offset of the source stands for the characters before it: all
the offsets it computes are ends of ASCII patterns, so a split at an offset is a split of the list.
`none` is a panic.
-/

namespace TORdex

/-- What a crawler is allowed to do. -/
structure CrawlerConfig where
  maxDepth : ℕ
  maxUrlsPerCrawl : ℕ
  followExternal : Bool
  allowedDomains : List String
  skipExtensions : List String

/-- `CrawlerConfig::default`. -/
def CrawlerConfig.default : CrawlerConfig where
  maxDepth := 2
  maxUrlsPerCrawl := 50
  followExternal := false
  allowedDomains := []
  skipExtensions := [".pdf", ".zip", ".tar.gz", ".png", ".jpg", ".jpeg", ".gif", ".svg", ".mp4",
    ".mp3", ".exe", ".dmg"]

/-- Extracted link from a crawled page. -/
structure DiscoveredLink where
  url : String
  depth : ℕ
  sourceKind : String
  tag : String

namespace Crawler

/-- A text by its characters. -/
abbrev Text := List Char

/-- `s.find(pattern)`: the text before and after the first occurrence of a pattern. -/
def cut (pattern : Text) : Text → Option (Text × Text)
  | [] => if pattern = [] then some ([], []) else none
  | c :: rest =>
    if pattern.isPrefixOf (c :: rest) then some ([], (c :: rest).drop pattern.length)
    else (cut pattern rest).map fun found => (c :: found.1, found.2)

theorem cut_eq_some {pattern s before after : Text} (h : cut pattern s = some (before, after)) :
    s = before ++ pattern ++ after := by
  induction s generalizing before with
  | nil =>
    unfold cut at h
    split_ifs at h with hp
    cases h
    rw [hp]
    rfl
  | cons c rest ih =>
    unfold cut at h
    split_ifs at h with hp
    · cases h
      exact (List.prefix_iff_eq_append.1 (List.isPrefixOf_iff_prefix.1 hp)).symm
    · obtain ⟨found, hf, he⟩ := Option.map_eq_some_iff.1 h
      cases he
      rw [ih hf]
      rfl

/-- The text before the last slash, as `rfind('/')` gives it. -/
def beforeLastSlash (s : Text) : Option Text :=
  match s.reverse.dropWhile (· ≠ '/') with
  | [] => none
  | _ :: before => some before.reverse

/-- `str::len`. -/
def byteLength (s : Text) : ℕ := (s.map Char.utf8Size).sum

/-- `str::starts_with`. -/
def startsWith (s : Text) (pattern : String) : Bool := pattern.toList.isPrefixOf s

/-- `str::ends_with`. -/
def endsWith (s : Text) (pattern : String) : Bool := pattern.toList.isSuffixOf s

/-! ## URL resolution -/

/-- `while remaining.starts_with("../")`: each step takes the last segment off; it panics on an
empty base and on one that ends inside a multi-byte character. -/
def climb (resolved : Text) : Text → Option (Text × Text)
  | '.' :: '.' :: '/' :: remaining =>
    match resolved.getLast? with
    | none => none
    | some c =>
      if c.utf8Size = 1 then
        match beforeLastSlash resolved.dropLast with
        | some parent => climb (parent ++ ['/']) remaining
        | none => climb resolved remaining
      else none
  | remaining => some (resolved, remaining)

/-- Resolve a potentially relative URL against a base URL. -/
def resolveUrl (base href : Text) : Option Text :=
  if startsWith href "http://" || startsWith href "https://" then some href
  else if startsWith href "//" then
    match cut "://".toList base with
    | some (protocol, _) => some (protocol ++ ":".toList ++ href)
    | none => some ("https:".toList ++ href)
  else if startsWith href "/" then
    match cut "://".toList base with
    | some (protocol, rest) =>
      some (protocol ++ "://".toList ++ rest.takeWhile (· ≠ '/') ++ href)
    | none => some ("https://localhost".toList ++ href)
  else if (href.any fun c => c = '?' || c = '#') &&
      (href.takeWhile fun c => !(c = '?' || c = '#')).isEmpty then some base
  else
    let baseDir :=
      match beforeLastSlash base with
      | some before => if 8 < byteLength before then before ++ ['/'] else base
      | none => base
    if startsWith href "./" then some (baseDir ++ href.drop 2)
    else if startsWith href "../" then
      (climb baseDir href).map fun (resolved, remaining) => resolved ++ remaining
    else some (baseDir ++ href)

/-- Extract domain from a URL. -/
def extractDomain (url : Text) : Option Text :=
  if startsWith url "http://" || startsWith url "https://" then
    (cut "://".toList url).map fun (_, rest) =>
      rest.takeWhile fun c => !(c = '/' || c = '?' || c = '#')
  else none

/-! ## Link extraction -/

/-- The quoted value of an attribute in the text of a tag: double quotes are looked for first. -/
def attrValue (attr : String) (content : Text) : Option Text :=
  match cut (attr.toList ++ ['=', '"']) content with
  | some (_, value) => (cut ['"'] value).map (·.1)
  | none =>
    match cut (attr.toList ++ ['=', '\'']) content with
    | some (_, value) => (cut ['\''] value).map (·.1)
    | none => none

/-- The link of a tag, if it has one. -/
def tagLink (base : Text) (depth : ℕ) (tag attr : String) (content : Text) :
    Option (List DiscoveredLink) :=
  match attrValue attr content with
  | none | some [] => some []
  | some value =>
    (resolveUrl base value).map fun url =>
      [⟨String.ofList url, depth + 1, "html", tag ++ "_" ++ attr⟩]

/-- The loop of `extract_attr` on the text from `pos` on.  Every round passes a tag, so the length of
the text bounds the number of rounds. -/
def extractAttrLoop (base : Text) (depth : ℕ) (tag attr : String) :
    ℕ → Text → Option (List DiscoveredLink)
  | 0, _ => some []
  | rounds + 1, html =>
    match cut ("<" ++ tag).toList html with
    | none => some []
    | some (_, afterOpen) =>
      match cut ['>'] (("<" ++ tag).toList ++ afterOpen) with
      | none => some []
      | some (content, afterTag) => do
        let link ← tagLink base depth tag attr (content ++ ['>'])
        let next :=
          match cut ("</" ++ tag).toList ('>' :: afterTag) with
          | some (_, afterClose) => afterClose
          | none => afterTag
        let links ← extractAttrLoop base depth tag attr rounds next
        pure (link ++ links)

/-- A round leaves less text than it was given. -/
theorem length_afterTag {tag html before afterOpen content afterTag : Text}
    (hopen : cut ('<' :: tag) html = some (before, afterOpen))
    (htag : cut ['>'] ('<' :: tag ++ afterOpen) = some (content, afterTag)) :
    afterTag.length < html.length := by
  have whole := congrArg List.length (cut_eq_some hopen)
  have tagged := congrArg List.length (cut_eq_some htag)
  simp only [List.length_append, List.length_cons, List.length_nil] at whole tagged
  omega

/-- Extract a specific attribute from HTML tags (no parser, string search). -/
def extractAttr (html base : Text) (depth : ℕ) (tag attr : String) :
    Option (List DiscoveredLink) :=
  extractAttrLoop base depth tag attr html.length html

/-- Extract all links from HTML. -/
def extractFromHtml (base : Text) (depth : ℕ) (html : Text) : Option (List DiscoveredLink) := do
  let a ← extractAttr html base depth "a" "href"
  let img ← extractAttr html base depth "img" "src"
  let script ← extractAttr html base depth "script" "src"
  let link ← extractAttr html base depth "link" "href"
  let form ← extractAttr html base depth "form" "action"
  let iframe ← extractAttr html base depth "iframe" "src"
  let frame ← extractAttr html base depth "frame" "src"
  pure (a ++ img ++ script ++ link ++ form ++ iframe ++ frame)

/-- The links in a string value, if there is one. -/
def linksOf (base : Text) (depth : ℕ) (html : Option Json) : Option (List DiscoveredLink) :=
  match html.bind Json.asStr with
  | some text => extractFromHtml base depth text.toList
  | none => some []

/-- Extract links from a collection result. -/
def extractLinks (base : String) (depth : ℕ) (result : Json) : Option (List DiscoveredLink) := do
  let body ← linksOf base.toList depth (result.get "body")
  let html ← linksOf base.toList depth (result.get "html")
  let data ← linksOf base.toList depth ((result.get "data").bind (Json.get "html"))
  pure (body ++ html ++ data)

/-- Check if a URL should be crawled based on configuration. -/
def shouldCrawl (config : CrawlerConfig) (url : String) : Bool :=
  let text := url.toList
  if config.skipExtensions.any (endsWith text) then false
  else if startsWith text "mailto:" || startsWith text "javascript:" || startsWith text "tel:" ||
      startsWith text "#" || startsWith text "data:" then false
  else if !config.followExternal && !config.allowedDomains.isEmpty then
    match extractDomain text with
    | some d => config.allowedDomains.any fun ad => d = ad.toList || endsWith d ("." ++ ad)
    | none => true
  else true

/-- Deeper links get lower priority. -/
def adaptivePriority (link : DiscoveredLink) : Priority :=
  match link.depth with
  | 0 | 1 => .high
  | 2 => .medium
  | 3 => .low
  | _ => .background

example : resolveUrl "https://example.com/a/b/c".toList "../d".toList =
    some "https://example.com/a/d".toList := by decide

end Crawler

/-- The crawler: a fabric, a configuration, and the URLs it has seen with their depths. -/
structure AdaptiveCrawler where
  fabric : CollectionFabric
  config : CrawlerConfig
  seen : HashMap String ℕ

namespace AdaptiveCrawler

open Crawler

/-- A crawler that has seen nothing. -/
def new (fabric : CollectionFabric) (config : CrawlerConfig) : AdaptiveCrawler :=
  ⟨fabric, config, ∅⟩

/-- The fresh ULID of a discovered task, its creation time, and the readings of its submission. -/
structure LinkReadings where
  ulid : Ulid
  createdAt : OffsetDateTime
  submission : Readings

/-- `format!("crawl_{}", …to_lowercase())`. -/
def discoverId (u : Ulid) : String :=
  "crawl_" ++ String.ofList (u.toString.toList.map Char.toLower)

/-- The task of a discovered link. -/
def linkTask (taskId targetUrl : String) (link : DiscoveredLink) (r : LinkReadings) :
    CollectionTask where
  id := discoverId r.ulid
  target := .url link.url
  priority := adaptivePriority link
  driver := "http"
  capability := "fetch_html"
  params := .obj [("url", .str link.url)]
  maxRetries := 3
  createdAt := r.createdAt
  metadata := (((Finmap.insert "crawl_depth" (toString link.depth) ∅).insert "source_task"
    taskId).insert "source_url" targetUrl).insert "tag" link.tag

/-- Filter and submit; returns the number of tasks submitted. -/
def submitLinks (taskId targetUrl : String) (rs : ℕ → LinkReadings) :
    List DiscoveredLink → ℕ → AdaptiveCrawler → ℕ × AdaptiveCrawler
  | [], submitted, c => (submitted, c)
  | link :: links, submitted, c =>
    if c.config.maxUrlsPerCrawl ≤ submitted then (submitted, c)
    else if !shouldCrawl c.config link.url then submitLinks taskId targetUrl rs links submitted c
    else if (c.seen.lookup link.url).isSome then submitLinks taskId targetUrl rs links submitted c
    else
      let r := rs links.length
      let (result, fabric) := c.fabric.submit (linkTask taskId targetUrl link r) r.submission
      let c := { c with fabric, seen := c.seen.insert link.url link.depth }
      match result with
      | .ok _ => submitLinks taskId targetUrl rs links (submitted + 1) c
      | .error _ => submitLinks taskId targetUrl rs links submitted c

/-- Process a collection result and discover new URLs. -/
def processResult (c : AdaptiveCrawler) (taskId targetUrl : String) (depth : ℕ) (result : Json)
    (rs : ℕ → LinkReadings) : Option (ℕ × AdaptiveCrawler) :=
  if c.config.maxDepth ≤ depth then some (0, c)
  else (extractLinks targetUrl depth result).map fun links =>
    submitLinks taskId targetUrl rs links 0 c

end AdaptiveCrawler

end TORdex
