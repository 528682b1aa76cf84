import TORdex.Fabric.Crawler
import Mathlib.Data.List.DropRight

/-!
# The allowed domains of the crawler

`shouldCrawl` compares the text between `://` and the first of `/`, `?` and `#` with the allowed domains,
and lets a URL pass that it cannot parse.  The host of a URL ends earlier, at a backslash, and has no user
info and no port.
-/

namespace TORdex

namespace Crawler

/-- The URL is on the web. -/
def isWeb (url : Text) : Bool := startsWith url "http://" || startsWith url "https://"

/-- The text without a port.  An address in brackets has colons of its own. -/
def withoutPort (s : Text) : Text :=
  match s with
  | '[' :: _ => s.takeWhile (· ≠ ']') ++ (s.dropWhile (· ≠ ']')).take 1
  | _ => s.takeWhile (· ≠ ':')

/-- The text after `://` up to the path, the query or the fragment. -/
def authorityOf (rest : Text) : Text :=
  rest.takeWhile fun c => !(c = '/' || c = '\\' || c = '?' || c = '#')

/-- The host in the text after `://`. -/
def hostOf (rest : Text) : Text := withoutPort ((authorityOf rest).rtakeWhile (· ≠ '@'))

/-- An allowed domain or a subdomain of one. -/
def allowedHost (config : CrawlerConfig) (host : Text) : Bool :=
  config.allowedDomains.any fun ad => host = ad.toList || endsWith host ("." ++ ad)

/-- The URL is on the web and on an allowed host. -/
def inDomain (config : CrawlerConfig) (url : Text) : Bool :=
  isWeb url && ((cut "://".toList url).any fun found => allowedHost config (hostOf found.2))

/-- The characters that make the domain of `extractDomain` differ from the host. -/
def plainDomain (d : Text) : Bool := d.all fun c => !(c = '\\' || c = '@' || c = ':' || c = '[')

/-- A character that ends the domain of `extractDomain`. -/
def endsDomain (c : Char) : Bool := c = '/' || c = '?' || c = '#'

/-- What `extractDomain` finds in the text after `://`. -/
def domainOf (rest : Text) : Text := rest.takeWhile fun c => !endsDomain c

/-- The domain in the text after `://` is the host, or has an allowed host in it. -/
def showsHost (config : CrawlerConfig) (rest : Text) : Bool :=
  plainDomain (domainOf rest) || allowedHost config (hostOf rest)

section Hosts

variable {d : Text}

theorem withoutPort_plain (h : ∀ c ∈ d, c ≠ ':' ∧ c ≠ '[') : withoutPort d = d := by
  unfold withoutPort
  split
  · exact absurd rfl (h '[' List.mem_cons_self).2
  · exact List.takeWhile_eq_self_iff.2 fun c hc => by simpa using (h c hc).1

/-- The host depends on the domain alone. -/
theorem hostOf_domainOf (rest : Text) : hostOf (domainOf rest) = hostOf rest := by
  have same : authorityOf (domainOf rest) = authorityOf rest := by
    unfold authorityOf domainOf endsDomain
    rw [List.takeWhile_takeWhile]
    congr 1
    funext c
    grind
  rw [hostOf, same, hostOf]

theorem hostOf_plain (h : plainDomain d = true) (hd : ∀ c ∈ d, endsDomain c = false) : hostOf d = d := by
  rw [plainDomain, List.all_eq_true] at h
  simp only [endsDomain] at hd
  have authority : authorityOf d = d := by
    refine List.takeWhile_eq_self_iff.2 fun c hc => ?_
    have plain := h c hc
    have inside := hd c hc
    grind
  have noUser : d.rtakeWhile (· ≠ '@') = d := by
    refine List.rtakeWhile_eq_self_iff.2 fun c hc => ?_
    have plain := h c hc
    grind
  rw [hostOf, authority, noUser]
  refine withoutPort_plain fun c hc => ?_
  have plain := h c hc
  grind

end Hosts

/-! ## URLs on the web -/

section Web

variable {s base : Text}

theorem isWeb_iff : isWeb s = true ↔
    ∃ scheme ∈ ["http".toList, "https".toList], scheme ++ "://".toList <+: s := by
  simp [isWeb, startsWith, List.isPrefixOf_iff_prefix]

theorem cut_protocol {scheme : Text} (web : scheme = "http".toList ∨ scheme = "https".toList) (rest : Text) :
    cut "://".toList (scheme ++ "://".toList ++ rest) = some (scheme, rest) := by
  rcases web with rfl | rfl <;> rfl

theorem isWeb_protocol {scheme : Text} (web : scheme = "http".toList ∨ scheme = "https".toList) (rest : Text) :
    isWeb (scheme ++ "://".toList ++ rest) = true :=
  isWeb_iff.2 ⟨scheme, by simpa using web, List.prefix_append _ rest⟩

theorem beforeLastSlash_eq_some {before : Text} (h : beforeLastSlash base = some before) :
    ∃ after, base = before ++ ['/'] ++ after ∧ '/' ∉ after := by
  unfold beforeLastSlash at h
  have whole := List.takeWhile_append_dropWhile (p := fun c => decide (c ≠ '/')) (l := base.reverse)
  have last := List.head?_dropWhile_not (fun c => decide (c ≠ '/')) base.reverse
  split at h
  next => cases h
  next c rest hd =>
    obtain rfl := Option.some_inj.1 h
    rw [hd] at whole last
    have slash : c = '/' := by simpa using last
    refine ⟨(base.reverse.takeWhile fun c => decide (c ≠ '/')).reverse, ?_, fun hm => ?_⟩
    · have reversed := congrArg List.reverse whole
      simpa [slash] using reversed.symm
    · simpa using List.mem_takeWhile_imp (List.mem_reverse.1 hm)

end Web

section Filter

variable {config : CrawlerConfig} {url : String}

/-- The domain that the filter has compared. -/
theorem shouldCrawl_domain (internal : config.followExternal = false) (restricted : config.allowedDomains ≠ [])
    (h : shouldCrawl config url = true) {d : Text} (hd : extractDomain url.toList = some d) :
    allowedHost config d = true := by
  unfold shouldCrawl at h
  simp only [internal, hd] at h
  split_ifs at h with _ _ hr
  · exact h
  · exact absurd (by simpa using restricted) hr

theorem inDomain_protocol {scheme : Text} (web : scheme = "http".toList ∨ scheme = "https".toList) (rest : Text) :
    inDomain config (scheme ++ "://".toList ++ rest) = allowedHost config (hostOf rest) := by
  rw [inDomain, isWeb_protocol web, cut_protocol web, Option.any_some, Bool.true_and]

/-- A URL that passes the filter is in the domain when its text after `://` shows its host. -/
theorem inDomain_iff (internal : config.followExternal = false) (restricted : config.allowedDomains ≠ [])
    (h : shouldCrawl config url = true) {scheme rest : Text}
    (web : scheme = "http".toList ∨ scheme = "https".toList) (split : url.toList = scheme ++ "://".toList ++ rest) :
    inDomain config url.toList = true ↔ showsHost config rest = true := by
  have domain : extractDomain url.toList = some (domainOf rest) := by
    have onWeb := isWeb_protocol web rest
    rw [isWeb] at onWeb
    rw [extractDomain, split, cut_protocol web, if_pos onWeb]
    rfl
  have allowed := shouldCrawl_domain internal restricted h domain
  rw [split, inDomain_protocol web, showsHost, Bool.or_eq_true]
  refine (or_iff_right_of_imp fun plain => ?_).symm
  have host := hostOf_plain plain fun c mem => by simpa using List.mem_takeWhile_imp mem
  rw [hostOf_domainOf] at host
  rwa [host]

end Filter

end Crawler

namespace AdaptiveCrawler

open Crawler

/-! ## What the loop submits -/

section Loop

variable (taskId targetUrl : String) (rs : ℕ → LinkReadings)

/-- The tasks that the loop of `submitLinks` gives to the fabric, with the readings of each. -/
def submissions : List DiscoveredLink → ℕ → AdaptiveCrawler → List (CollectionTask × Readings)
  | [], _, _ => []
  | link :: links, submitted, c =>
    if c.config.maxUrlsPerCrawl ≤ submitted then []
    else if !shouldCrawl c.config link.url then submissions links submitted c
    else if (c.seen.lookup link.url).isSome then submissions links submitted c
    else
      let r := rs links.length
      let task := linkTask taskId targetUrl link r
      let (result, fabric) := c.fabric.submit task r.submission
      let c := { c with fabric, seen := c.seen.insert link.url link.depth }
      match result with
      | .ok _ => (task, r.submission) :: submissions links (submitted + 1) c
      | .error _ => (task, r.submission) :: submissions links submitted c

attribute [grind =] submitLinks submissions

/-- The state of the loop in which it takes the link up: it has room for another URL, the link passes the
filter, and its URL has not been seen. -/
def TakesUp (link : DiscoveredLink) (state : ℕ × AdaptiveCrawler) : Prop :=
  state.1 < state.2.config.maxUrlsPerCrawl ∧ shouldCrawl state.2.config link.url = true ∧
    state.2.seen.lookup link.url = none

/-- The state of the loop after a submission. -/
def taken (r : LinkReadings) (link : DiscoveredLink) (submitted : ℕ) (c : AdaptiveCrawler) :
    ℕ × AdaptiveCrawler :=
  let (result, fabric) := c.fabric.submit (linkTask taskId targetUrl link r) r.submission
  (match result with
    | .ok _ => submitted + 1
    | .error _ => submitted,
    { c with fabric, seen := c.seen.insert link.url link.depth })

variable {link : DiscoveredLink} (links : List DiscoveredLink) {submitted : ℕ} {c : AdaptiveCrawler}

/-- Without room the loop stops. -/
theorem submitLinks_full (h : c.config.maxUrlsPerCrawl ≤ submitted) :
    submitLinks taskId targetUrl rs links submitted c = (submitted, c) ∧
      submissions taskId targetUrl rs links submitted c = [] := by
  cases links with
  | nil => exact ⟨rfl, rfl⟩
  | cons link links => exact ⟨if_pos h, if_pos h⟩

theorem submitLinks_pass (room : submitted < c.config.maxUrlsPerCrawl)
    (h : ¬ TakesUp link (submitted, c)) :
    submitLinks taskId targetUrl rs (link :: links) submitted c =
        submitLinks taskId targetUrl rs links submitted c ∧
      submissions taskId targetUrl rs (link :: links) submitted c =
        submissions taskId targetUrl rs links submitted c := by
  simp only [submitLinks, submissions, if_neg (Nat.not_le.2 room)]
  split_ifs with crawl seen
  · exact ⟨rfl, rfl⟩
  · exact ⟨rfl, rfl⟩
  · exact absurd ⟨room, by simpa using crawl, by simpa using seen⟩ h

theorem submitLinks_take (h : TakesUp link (submitted, c)) :
    submitLinks taskId targetUrl rs (link :: links) submitted c =
        submitLinks taskId targetUrl rs links (taken taskId targetUrl (rs links.length) link submitted c).1
          (taken taskId targetUrl (rs links.length) link submitted c).2 ∧
      submissions taskId targetUrl rs (link :: links) submitted c =
        (linkTask taskId targetUrl link (rs links.length), (rs links.length).submission) ::
          submissions taskId targetUrl rs links
            (taken taskId targetUrl (rs links.length) link submitted c).1
            (taken taskId targetUrl (rs links.length) link submitted c).2 := by
  obtain ⟨room, crawl, unseen⟩ := h
  simp only [submitLinks, submissions, taken, if_neg (Nat.not_le.2 room), crawl, unseen]
  cases (c.fabric.submit (linkTask taskId targetUrl link (rs links.length))
    (rs links.length).submission).1 <;> exact ⟨rfl, rfl⟩

variable (submitted c)

/-- They are all that reaches the fabric. -/
theorem submitLinks_fabric : (submitLinks taskId targetUrl rs links submitted c).2.fabric =
    (submissions taskId targetUrl rs links submitted c).foldl (fun f s => (f.submit s.1 s.2).2)
      c.fabric := by
  induction links generalizing submitted c with
  | nil => rfl
  | cons link links ih =>
    rcases Nat.lt_or_ge submitted c.config.maxUrlsPerCrawl with room | full
    · by_cases up : TakesUp link (submitted, c)
      · obtain ⟨run, tasks⟩ := submitLinks_take taskId targetUrl rs links up
        rw [run, tasks, ih]
        rfl
      · obtain ⟨run, tasks⟩ := submitLinks_pass taskId targetUrl rs links room up
        rw [run, tasks, ih]
    · obtain ⟨run, tasks⟩ := submitLinks_full taskId targetUrl rs (link :: links) full
      rw [run, tasks]
      rfl

theorem submitLinks_config :
    (submitLinks taskId targetUrl rs links submitted c).2.config = c.config := by
  induction links generalizing submitted c with
  | nil => rfl
  | cons link links ih =>
    rcases Nat.lt_or_ge submitted c.config.maxUrlsPerCrawl with room | full
    · by_cases up : TakesUp link (submitted, c)
      · rw [(submitLinks_take taskId targetUrl rs links up).1, ih]
        rfl
      · rw [(submitLinks_pass taskId targetUrl rs links room up).1, ih]
    · rw [(submitLinks_full taskId targetUrl rs (link :: links) full).1]

variable {links submitted c}

theorem exists_split_cons {α : Type} {x : α} {xs : List α} {P : List α → α → List α → Prop} :
    (∃ before y after, x :: xs = before ++ y :: after ∧ P before y after) ↔
      P [] x xs ∨ ∃ before y after, xs = before ++ y :: after ∧ P (x :: before) y after := by
  constructor
  · rintro ⟨before, y, after, split, h⟩
    cases before with
    | nil =>
      cases split
      exact .inl h
    | cons z before =>
      cases split
      exact .inr ⟨before, y, after, rfl, h⟩
  · rintro (h | ⟨before, y, after, rfl, h⟩)
    · exact ⟨[], x, xs, rfl, h⟩
    · exact ⟨x :: before, y, after, rfl, h⟩

/-- A link is submitted when the loop takes it up after the links before it. -/
theorem mem_submissions {s : CollectionTask × Readings} :
    s ∈ submissions taskId targetUrl rs links submitted c ↔
      ∃ before link after, links = before ++ link :: after ∧
        TakesUp link (submitLinks taskId targetUrl (fun i => rs (i + (after.length + 1))) before submitted c) ∧
        s = (linkTask taskId targetUrl link (rs after.length), (rs after.length).submission) := by
  induction links generalizing submitted c with
  | nil => simp [submissions]
  | cons link links ih =>
    rw [exists_split_cons]
    rcases Nat.lt_or_ge submitted c.config.maxUrlsPerCrawl with room | full
    · by_cases up : TakesUp link (submitted, c)
      · rw [(submitLinks_take taskId targetUrl rs links up).2, List.mem_cons, ih]
        refine or_congr (iff_and_self.2 fun _ => up) (exists_congr fun before => exists_congr fun l =>
          exists_congr fun after => and_congr_right fun split => ?_)
        have readings : rs (before.length + (after.length + 1)) = rs links.length := by simp [split]
        rw [(submitLinks_take taskId targetUrl (fun i => rs (i + (after.length + 1))) before up).1, readings]
      · rw [(submitLinks_pass taskId targetUrl rs links room up).2, ih, or_iff_right (fun h => up h.1)]
        refine exists_congr fun before => exists_congr fun l => exists_congr fun after => ?_
        rw [(submitLinks_pass taskId targetUrl (fun i => rs (i + (after.length + 1))) before room up).1]
    · rw [(submitLinks_full taskId targetUrl rs (link :: links) full).2]
      refine iff_of_false List.not_mem_nil ?_
      rintro (⟨up, -⟩ | ⟨before, l, after, -, up, -⟩)
      · exact absurd up.1 (Nat.not_lt.2 full)
      · rw [(submitLinks_full taskId targetUrl _ (link :: before) full).1] at up
        exact absurd up.1 (Nat.not_lt.2 full)

end Loop

/-! ## The domain of a crawler -/

/-- What `processResult` submits: nothing beyond the depth limit, and nothing when the extraction of the links
panics. -/
def resultSubmissions (c : AdaptiveCrawler) (taskId targetUrl : String) (depth : ℕ) (result : Json)
    (rs : ℕ → LinkReadings) : List (CollectionTask × Readings) :=
  if c.config.maxDepth ≤ depth then []
  else
    match extractLinks targetUrl depth result with
    | some links => submissions taskId targetUrl rs links 0 c
    | none => []

theorem processResult_fabric {c c' : AdaptiveCrawler} {taskId targetUrl : String} {depth n : ℕ}
    {result : Json} {rs : ℕ → LinkReadings}
    (h : c.processResult taskId targetUrl depth result rs = some (n, c')) :
    c'.fabric = (c.resultSubmissions taskId targetUrl depth result rs).foldl
      (fun f s => (f.submit s.1 s.2).2) c.fabric := by
  unfold processResult at h
  unfold resultSubmissions
  split_ifs at h ⊢ with deep
  · cases h
    rfl
  · obtain ⟨links, found, eq⟩ := Option.map_eq_some_iff.1 h
    rw [found]
    dsimp only
    rw [← submitLinks_fabric, eq]

end AdaptiveCrawler

end TORdex
