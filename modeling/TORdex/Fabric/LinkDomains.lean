import TORdex.Fabric.LinkExtraction
import TORdex.Fabric.SameSite

/-!
# Where the links of a page lead

A link with a host of its own is compared with the allowed domains as it is written, and so is one that is joined to
a bare host.  One that climbs above the directories of its target names a host again, or comes out of the web.  All
others have the host of the target.
-/

namespace TORdex

namespace Crawler

/-- The text after `://`. -/
def afterProtocol (url : Text) : Text := ((cut "://".toList url).map (·.2)).getD []

/-- The number of `../` with which an href leaves the directories of the target: with one less it climbs to the
host, with as many to the protocol, with more past it. -/
def levels (target : Text) : ℕ := (directory target).dropLast.count '/' - 1

/-- The href of a target in the domain leads to a URL in the domain, if to one that passes the filter. -/
def staysInDomain (config : CrawlerConfig) (target href : Text) : Bool :=
  if startsWith href "http://" then showsHost config (href.drop 7)
  else if startsWith href "https://" then showsHost config (href.drop 8)
  else if startsWith href "//" then showsHost config (href.drop 2)
  else
    match ups href with
    | (0, _) =>
      isRooted href || (afterProtocol target).any endsDomain ||
        showsHost config (afterProtocol target ++ if startsWith href "./" then href.drop 2 else href)
    | (n + 1, rest) =>
      n + 1 < levels target || n + 1 = levels target && showsHost config rest ||
        levels target < n + 1 && rest.head? = some '/' && showsHost config (rest.drop 1)

section Domains

variable {r rest tail : Text}

theorem takeWhile_append_of_mem {p : Char → Bool} (h : ∃ c ∈ r, p c = false) (tail : Text) :
    (r ++ tail).takeWhile p = r.takeWhile p := by
  obtain ⟨c, mem, stops⟩ := h
  rw [List.takeWhile_append, if_neg]
  intro whole
  have all := List.takeWhile_eq_self_iff.1 ((List.takeWhile_prefix p).eq_of_length whole)
  rw [all c mem] at stops
  cases stops

/-- What comes after the end of the domain does not change the host. -/
theorem hostOf_append (inside : r <+: rest) (ends : ∃ c ∈ r, endsDomain c = true) (tail : Text) :
    hostOf (r ++ tail) = hostOf rest := by
  obtain ⟨t, rfl⟩ := inside
  have stops : ∃ c ∈ r, (!endsDomain c) = false := ends.imp fun c h => ⟨h.1, by simp [h.2]⟩
  rw [← hostOf_domainOf (r ++ tail), ← hostOf_domainOf (r ++ t), domainOf, domainOf, takeWhile_append_of_mem stops,
    takeWhile_append_of_mem stops]

/-- The host of the target before a path of its own. -/
theorem hostOf_rooted (rest tail : Text) : hostOf (rest.takeWhile (· ≠ '/') ++ '/' :: tail) = hostOf rest := by
  have same : domainOf (rest.takeWhile (· ≠ '/') ++ '/' :: tail) = domainOf rest := by
    have stop : ('/' :: tail).takeWhile (fun c => !endsDomain c) = [] := rfl
    have inner : (rest.takeWhile (· ≠ '/')).takeWhile (fun c => !endsDomain c) = domainOf rest := by
      rw [List.takeWhile_takeWhile, domainOf]
      congr 1
      funext c
      simp only [endsDomain]
      grind
    rw [domainOf, List.takeWhile_append, stop, List.append_nil, inner]
    split_ifs with whole
    · rw [← inner] at whole ⊢
      exact ((List.takeWhile_prefix _).eq_of_length whole).symm
    · rfl
  rw [← hostOf_domainOf, same, hostOf_domainOf]

end Domains

section Target

variable {scheme rest : Text} (web : scheme = "http".toList ∨ scheme = "https".toList)

include web in
theorem afterProtocol_protocol (rest : Text) : afterProtocol (scheme ++ "://".toList ++ rest) = rest := by
  rw [afterProtocol, cut_protocol web]
  rfl

include web in
/-- A relative href is joined to the target up to its host at least. -/
theorem directory_protocol (rest : Text) : ∃ r, directory (scheme ++ "://".toList ++ rest) =
    scheme ++ "://".toList ++ r ∧ r <+: rest ∧
      (rest.any endsDomain = true → ∃ c ∈ r, endsDomain c = true) ∧ (rest.any endsDomain = false → r = rest) := by
  have whole : ∀ {r}, r = rest → r <+: rest ∧
      (rest.any endsDomain = true → ∃ c ∈ r, endsDomain c = true) ∧ (rest.any endsDomain = false → r = rest) := by
    rintro _ rfl
    exact ⟨List.prefix_rfl, List.any_eq_true.1, fun _ => rfl⟩
  cases found : beforeLastSlash rest with
  | none =>
    have noSlash := beforeLastSlash_eq_none_iff.1 found
    have near : ¬ 8 < byteLength (scheme ++ ":/".toList) := by
      rcases web with rfl | rfl <;> decide
    have split : scheme ++ "://".toList ++ rest = scheme ++ ":/".toList ++ ['/'] ++ rest := by simp
    refine ⟨rest, ?_, whole rfl⟩
    unfold directory
    rw [split, beforeLastSlash_append noSlash]
    exact if_neg near
  | some dir =>
    obtain ⟨file, rfl, noSlash⟩ := beforeLastSlash_eq_some found
    have split : scheme ++ "://".toList ++ (dir ++ ['/'] ++ file) =
        scheme ++ "://".toList ++ dir ++ ['/'] ++ file := by simp
    unfold directory
    rw [split, beforeLastSlash_append noSlash]
    dsimp only
    split_ifs with far
    · refine ⟨dir ++ ['/'], by simp, List.prefix_append _ file, fun _ => ⟨'/', by simp, rfl⟩, fun bare => ?_⟩
      simp [endsDomain] at bare
    · exact ⟨_, split.symm, whole rfl⟩

include web in
/-- Where `n + 1` times `../` lead: into the directories of the target, to its protocol, or past that. -/
theorem iterate_directory (rest : Text) (n : ℕ) :
    let target := scheme ++ "://".toList ++ rest
    (n + 1 < levels target → ∃ r, parent^[n + 1] (directory target) = scheme ++ "://".toList ++ r ∧ r <+: rest ∧
        ∃ c ∈ r, endsDomain c = true) ∧
      (n + 1 = levels target → parent^[n + 1] (directory target) = scheme ++ "://".toList) ∧
      (levels target < n + 1 → parent^[n + 1] (directory target) = scheme ++ ":/".toList) := by
  intro target
  obtain ⟨r, eq, inside, -⟩ := directory_protocol web rest
  have eq : directory target = scheme ++ "://".toList ++ r := eq
  have slashes : (scheme ++ ":/".toList).count '/' = 1 ∧ (scheme ++ ":".toList).count '/' = 0 := by
    rcases web with rfl | rfl <;> decide
  have count : (directory target).dropLast.count '/' = levels target + 1 := by
    have split : scheme ++ "://".toList ++ r = scheme ++ ":/".toList ++ ('/' :: r) := by simp
    rw [levels, Nat.sub_add_cancel]
    rw [eq, split, List.dropLast_append_of_ne_nil (List.cons_ne_nil _ r), List.count_append, slashes.1]
    exact Nat.le_add_right _ _
  obtain ⟨before, climbed, within, height⟩ := iterate_parent count n
  have protocol : scheme ++ ":/".toList ++ ['/'] <+: directory target := ⟨r, by rw [eq]; simp⟩
  refine ⟨fun inner => ?_, fun top => ?_, fun above => ?_⟩
  · have deep : 3 ≤ (before ++ ['/']).count '/' := by
      rw [List.count_append, height]
      show 3 ≤ levels target - n + 1
      omega
    have two : (scheme ++ ":/".toList ++ ['/']).count '/' = 2 := by
      rw [List.count_append, slashes.1]
      rfl
    obtain ⟨t, past⟩ := (List.prefix_or_prefix_of_prefix protocol within).resolve_right fun short => by
      have fewer := short.sublist.count_le '/'
      omega
    have slash : 0 < t.count '/' := by
      rw [← past, List.count_append, two] at deep
      omega
    refine ⟨t, by rw [climbed, ← past]; simp, List.IsPrefix.trans ?_ inside, '/', List.count_pos_iff.1 slash, rfl⟩
    have ends : scheme ++ ":/".toList ++ ['/'] = scheme ++ "://".toList := by simp
    rw [eq, ← past, ends] at within
    exact (List.prefix_append_right_inj _).1 within
  · rw [climbed, slashPrefix_unique within protocol (by rw [height, slashes.1]; omega)]
    simp
  · have colon : scheme ++ ":".toList ++ ['/'] <+: directory target :=
      List.IsPrefix.trans ⟨['/'], by simp⟩ protocol
    rw [climbed, slashPrefix_unique within colon (by rw [height, slashes.2]; omega)]
    simp

end Target

section Links

variable {config : CrawlerConfig} {target href : Text} {url : String}

/-- The targets of the domain. -/
theorem exists_protocol (allowed : inDomain config target = true) : ∃ scheme rest,
    (scheme = "http".toList ∨ scheme = "https".toList) ∧ target = scheme ++ "://".toList ++ rest ∧
      allowedHost config (hostOf rest) = true := by
  obtain ⟨scheme, web, rest, rfl⟩ := isWeb_iff.1 (Bool.and_eq_true_iff.1 allowed).1
  have web : scheme = "http".toList ∨ scheme = "https".toList := by simpa using web
  exact ⟨scheme, rest, web, rfl, inDomain_protocol web rest ▸ allowed⟩

/-- Past the protocol there is no web without another slash. -/
theorem isWeb_colon {scheme : Text} (web : scheme = "http".toList ∨ scheme = "https".toList) {rest : Text}
    (other : rest.head? ≠ some '/') : isWeb (scheme ++ ":/".toList ++ rest) = false := by
  refine Bool.eq_false_iff.2 fun onWeb => other ?_
  rcases rest with - | ⟨c, rest⟩
  · rcases web with rfl | rfl <;> simp [isWeb, startsWith] at onWeb
  · rcases web with rfl | rfl
    all_goals
      simp [isWeb, startsWith] at onWeb
      exact congrArg some onWeb.symm

/-- A link that climbs is joined to where it climbs to. -/
theorem resolveUrl_ups {target resolved tail : Text} {n : ℕ} (count : ups href = (n + 1, tail))
    (found : resolveUrl target href = some resolved) : resolved = parent^[n + 1] (directory target) ++ tail := by
  have climbs : startsWith href "../" = true := by
    refine Bool.not_eq_false _ ▸ fun level => ?_
    rw [Page.ups_level level] at count
    cases count
  obtain ⟨rest, rfl⟩ := Bytes.startsWith_eq_true climbs
  rw [resolveUrl_climb] at found
  have ends : EndsInByte (directory target) := by
    refine (climb_isSome_iff rest).1 ?_
    obtain ⟨_, climbed, -⟩ := Option.map_eq_some_iff.1 found
    exact climbed ▸ rfl
  rw [climb_eq ends, count] at found
  exact (Option.some.inj found).symm

section Resolved

variable (internal : config.followExternal = false) (restricted : config.allowedDomains ≠ [])
  (passes : shouldCrawl config url = true) {scheme rest : Text}
  (web : scheme = "http".toList ∨ scheme = "https".toList) (host : allowedHost config (hostOf rest) = true)

include web host

theorem inDomain_sameHost {r : Text} (same : hostOf r = hostOf rest)
    (split : url.toList = scheme ++ "://".toList ++ r) : inDomain config url.toList = true := by
  rw [split, inDomain_protocol web, same, host]

include internal restricted passes

/-- A link without a host that does not climb. -/
theorem inDomain_level_iff (relative : (startsWith href "http://" || startsWith href "https://") = false)
    (noHost : startsWith href "//" = false) (level : startsWith href "../" = false)
    (resolved : resolveUrl (scheme ++ "://".toList ++ rest) href = some url.toList) :
    inDomain config url.toList = true ↔ isRooted href = true ∨ rest.any endsDomain = true ∨
      showsHost config (rest ++ if startsWith href "./" then href.drop 2 else href) = true := by
  cases inner : isRooted href with
  | true =>
    refine iff_of_true ?_ (.inl rfl)
    cases path : startsWith href "/" with
    | true =>
      rw [resolveUrl_path relative noHost web rest path, List.append_assoc] at resolved
      obtain ⟨rest', rfl⟩ := Bytes.startsWith_eq_true path
      exact inDomain_sameHost web host (hostOf_rooted rest rest') (Option.some.inj resolved).symm
    | false =>
      rw [resolveUrl_query relative noHost inner path] at resolved
      exact inDomain_sameHost web host rfl (Option.some.inj resolved).symm
  | false =>
    obtain ⟨r, joined, inside, ends, bare⟩ := directory_protocol web rest
    rw [resolveUrl_joined relative noHost inner level, joined, List.append_assoc] at resolved
    have split := (Option.some.inj resolved).symm
    rw [or_iff_right Bool.false_ne_true]
    cases delimited : rest.any endsDomain with
    | true =>
      exact iff_of_true (inDomain_sameHost web host (hostOf_append inside (ends delimited) _) split) (.inl rfl)
    | false =>
      rw [bare delimited] at split
      rw [inDomain_iff internal restricted passes web split, or_iff_right Bool.false_ne_true]

/-- A link that climbs. -/
theorem inDomain_climbing_iff {n : ℕ} {tail : Text} (count : ups href = (n + 1, tail))
    (resolved : resolveUrl (scheme ++ "://".toList ++ rest) href = some url.toList) :
    inDomain config url.toList = true ↔ n + 1 < levels (scheme ++ "://".toList ++ rest) ∨
      n + 1 = levels (scheme ++ "://".toList ++ rest) ∧ showsHost config tail = true ∨
      levels (scheme ++ "://".toList ++ rest) < n + 1 ∧ tail.head? = some '/' ∧
        showsHost config (tail.drop 1) = true := by
  have climbed := resolveUrl_ups count resolved
  obtain ⟨inner, top, above⟩ := iterate_directory web rest n
  rcases Nat.lt_trichotomy (n + 1) (levels (scheme ++ "://".toList ++ rest)) with below | here | past
  · obtain ⟨r, at_r, inside, ends⟩ := inner below
    rw [at_r, List.append_assoc] at climbed
    exact iff_of_true (inDomain_sameHost web host (hostOf_append inside ends tail) climbed) (.inl below)
  · rw [top here] at climbed
    rw [inDomain_iff internal restricted passes web climbed]
    simp [here]
  · rw [above past] at climbed
    simp only [past, past.not_gt, past.ne', false_or, true_and, false_and]
    by_cases slash : tail.head? = some '/'
    · obtain ⟨tail', rfl⟩ := List.head?_eq_some_iff.1 slash
      have split : url.toList = scheme ++ "://".toList ++ tail' := by rw [climbed]; simp
      rw [inDomain_iff internal restricted passes web split]
      simp
    · refine iff_of_false ?_ fun h => slash h.1
      rw [climbed, inDomain, isWeb_colon web slash]
      simp

end Resolved

/-- **Whether a link that passes the filter leads out of the domain is decided by how it is written.** -/
theorem inDomain_resolved_iff (internal : config.followExternal = false) (restricted : config.allowedDomains ≠ [])
    (allowed : inDomain config target = true) (resolved : resolveUrl target href = some url.toList)
    (passes : shouldCrawl config url = true) :
    inDomain config url.toList = true ↔ staysInDomain config target href = true := by
  obtain ⟨scheme, rest, web, rfl, host⟩ := exists_protocol allowed
  have shown := @inDomain_iff config url internal restricted passes
  unfold staysInDomain
  rw [afterProtocol_protocol web]
  by_cases http : startsWith href "http://" = true
  · rw [if_pos http]
    rw [resolveUrl, if_pos (by rw [http, Bool.true_or])] at resolved
    obtain ⟨rest', rfl⟩ := Bytes.startsWith_eq_true http
    exact shown (.inl rfl) (Option.some.inj resolved).symm
  by_cases https : startsWith href "https://" = true
  · rw [if_neg http, if_pos https]
    rw [resolveUrl, if_pos (by rw [https, Bool.or_true])] at resolved
    obtain ⟨rest', rfl⟩ := Bytes.startsWith_eq_true https
    exact shown (.inr rfl) (Option.some.inj resolved).symm
  have relative : (startsWith href "http://" || startsWith href "https://") = false := by simp [http, https]
  by_cases hosted : startsWith href "//" = true
  · rw [if_neg http, if_neg https, if_pos hosted]
    rw [resolveUrl, if_neg (by simp [relative]), if_pos hosted, cut_protocol web] at resolved
    obtain ⟨rest', rfl⟩ := Bytes.startsWith_eq_true hosted
    exact shown web (by simpa using (Option.some.inj resolved).symm)
  rw [if_neg http, if_neg https, if_neg hosted]
  cases climbs : startsWith href "../" with
  | false =>
    rw [Page.ups_level climbs, inDomain_level_iff internal restricted passes web host relative
      (Bool.eq_false_iff.2 hosted) climbs resolved]
    simp only [Bool.or_eq_true, or_assoc]
  | true =>
    obtain ⟨rest', rfl⟩ := Bytes.startsWith_eq_true climbs
    have count : ups ("../".toList ++ rest') = ((ups rest').1 + 1, (ups rest').2) := rfl
    rw [inDomain_climbing_iff internal restricted passes web host count resolved, count]
    simp only [Bool.or_eq_true, Bool.and_eq_true, decide_eq_true_eq, or_assoc, and_assoc]

end Links

/-! ## The hrefs of a result -/

/-- The elements and attributes in which `extract_from_html` looks for links, in its order. -/
def linkAttributes : List (String × String) :=
  [("a", "href"), ("img", "src"), ("script", "src"), ("link", "href"), ("form", "action"), ("iframe", "src"),
    ("frame", "src")]

/-- The values that it takes for links. -/
def htmlHrefs (html : Text) : List Text :=
  linkAttributes.flatMap fun (tag, attr) => (findLinks html tag attr).map (·.1)

/-- The hrefs in a string value, if there is one. -/
def hrefsOf (html : Option Json) : List Text :=
  match html.bind Json.asStr with
  | some text => htmlHrefs text.toList
  | none => []

/-- The hrefs of a collection result, in the order of its links. -/
def resultHrefs (result : Json) : List Text :=
  hrefsOf (result.get "body") ++ hrefsOf (result.get "html") ++ hrefsOf ((result.get "data").bind (Json.get "html"))

/-- The links are the hrefs, resolved. -/
def Resolved (base : Text) (hrefs : List Text) (links : List DiscoveredLink) : Prop :=
  hrefs.map (resolveUrl base) = links.map fun link => some link.url.toList

section Hrefs

variable {base : Text} {depth : ℕ} {links links' : List DiscoveredLink} {hrefs hrefs' : List Text}

theorem Resolved.append (h : Resolved base hrefs links) (h' : Resolved base hrefs' links') :
    Resolved base (hrefs ++ hrefs') (links ++ links') := by
  rw [Resolved, List.map_append, List.map_append, h, h']

theorem resolved_extractAttr {html : Text} {tag attr : String}
    (h : extractAttr html base depth tag attr = some links) :
    Resolved base ((findLinks html tag attr).map (·.1)) links := by
  rw [extractAttr_eq, mapM_eq_some_iff] at h
  have urls := congrArg (List.map (Option.map fun link : DiscoveredLink => link.url.toList)) h
  rw [List.map_map, List.map_map] at urls
  rw [Resolved, List.map_map]
  refine Eq.trans (List.map_congr_left fun found _ => ?_) urls
  simp [linkOf, Function.comp_def]

theorem resolved_extractFromHtml {html : Text} (h : extractFromHtml base depth html = some links) :
    Resolved base (htmlHrefs html) links := by
  simp only [extractFromHtml, Option.bind_eq_bind, Option.bind_eq_some_iff, Option.pure_def, Option.some_inj] at h
  obtain ⟨a, ha, img, himg, script, hscript, link, hlink, form, hform, iframe, hiframe, frame, hframe, rfl⟩ := h
  have all := (((((resolved_extractAttr ha).append (resolved_extractAttr himg)).append
    (resolved_extractAttr hscript)).append (resolved_extractAttr hlink)).append
    (resolved_extractAttr hform)).append (resolved_extractAttr hiframe) |>.append (resolved_extractAttr hframe)
  simpa [htmlHrefs, linkAttributes] using all

theorem resolved_linksOf {html : Option Json} (h : linksOf base depth html = some links) :
    Resolved base (hrefsOf html) links := by
  rw [linksOf] at h
  rw [hrefsOf]
  cases read : html.bind Json.asStr with
  | none =>
    rw [read] at h
    cases h
    rfl
  | some text =>
    rw [read] at h
    exact resolved_extractFromHtml h

/-- The links of a result are its hrefs, resolved against the target. -/
theorem resolved_extractLinks {target : String} {result : Json} (h : extractLinks target depth result = some links) :
    Resolved target.toList (resultHrefs result) links := by
  simp only [extractLinks, Option.bind_eq_bind, Option.bind_eq_some_iff, Option.pure_def, Option.some_inj] at h
  obtain ⟨body, hbody, html, hhtml, data, hdata, rfl⟩ := h
  exact ((resolved_linksOf hbody).append (resolved_linksOf hhtml)).append (resolved_linksOf hdata)

theorem Resolved.exists_href {before after : List DiscoveredLink} {link : DiscoveredLink}
    (h : Resolved base hrefs (before ++ link :: after)) :
    ∃ href, hrefs[before.length]? = some href ∧ resolveUrl base href = some link.url.toList := by
  have place := congrArg (·[before.length]?) h
  simpa using place

end Hrefs

end Crawler

namespace AdaptiveCrawler

open Crawler

/-- What `processResult` gives to the fabric of a crawler of a target in the domain stays there exactly as long as
every href whose link the loop takes up leads to the domain by the way it is written. -/
theorem resultSubmissions_inDomain_iff (c : AdaptiveCrawler) (taskId targetUrl : String) (depth : ℕ)
    (result : Json) (rs : ℕ → LinkReadings) (internal : c.config.followExternal = false)
    (restricted : c.config.allowedDomains ≠ []) (allowed : inDomain c.config targetUrl.toList = true) :
    (∀ n c', c.processResult taskId targetUrl depth result rs = some (n, c') → c'.fabric =
      (c.resultSubmissions taskId targetUrl depth result rs).foldl (fun f s => (f.submit s.1 s.2).2) c.fabric) ∧
    ((∀ s ∈ c.resultSubmissions taskId targetUrl depth result rs, ∀ url, s.1.target = .url url →
      inDomain c.config url.toList = true) ↔
    (depth < c.config.maxDepth → ∀ links, extractLinks targetUrl depth result = some links →
      ∀ before link after, links = before ++ link :: after →
        TakesUp link (submitLinks taskId targetUrl (fun i => rs (i + (after.length + 1))) before 0 c) →
        ∀ href, (resultHrefs result)[before.length]? = some href →
          staysInDomain c.config targetUrl.toList href = true)) := by
  refine ⟨fun n c' => processResult_fabric, ?_⟩
  unfold resultSubmissions
  split_ifs with deep
  · exact iff_of_true (fun s hs => absurd hs List.not_mem_nil) fun shallow =>
      absurd shallow (Nat.not_lt.2 deep)
  rw [forall_prop_of_true (Nat.lt_of_not_le deep)]
  cases found : extractLinks targetUrl depth result with
  | none => exact iff_of_true (fun s hs => absurd hs List.not_mem_nil) fun links h => nomatch h
  | some links =>
    have resolved := resolved_extractLinks found
    have decides : ∀ {before link} {after : List DiscoveredLink} {href}, links = before ++ link :: after →
        TakesUp link (submitLinks taskId targetUrl (fun i => rs (i + (after.length + 1))) before 0 c) →
        (resultHrefs result)[before.length]? = some href →
        (inDomain c.config link.url.toList = true ↔ staysInDomain c.config targetUrl.toList href = true) := by
      intro before link after href split up place
      obtain ⟨_, place', leads⟩ := (split ▸ resolved).exists_href
      obtain rfl := Option.some.inj (place.symm.trans place')
      have crawl := up.2.1
      rw [submitLinks_config] at crawl
      exact inDomain_resolved_iff internal restricted allowed leads crawl
    constructor
    · rintro h _ ⟨⟩ before link after split up href place
      exact (decides split up place).1
        (h _ ((mem_submissions taskId targetUrl rs).2 ⟨before, link, after, split, up, rfl⟩) _ rfl)
    · intro h s hs url target
      obtain ⟨before, link, after, split, up, rfl⟩ := (mem_submissions taskId targetUrl rs).1 hs
      cases target
      obtain ⟨href, place, -⟩ := (split ▸ resolved).exists_href
      exact (decides split up place).2 (h links rfl before link after split up href place)

/-- A crawler of one domain. -/
def exampleCrawler : AdaptiveCrawler :=
  .new (.new .new) { CrawlerConfig.default with allowedDomains := ["example.com"] }

/-- The same readings for every link. -/
def sampleLinkReadings (_ : ℕ) : LinkReadings := ⟨Ulid.ofNat 0, 0, CollectionFabric.sampleReadings⟩

/-- A page with links to its parent, to a host of the domain with a port like one, and to a host outside. -/
def examplePage : Json :=
  .obj [("html", .str ("<a href=\"../x\">x</a><a href=\"//example.com:80.example.com/y\">y</a>" ++
    "<img src=\"https://other.com/z\">"))]

theorem resultHrefs_examplePage : resultHrefs examplePage =
    ["../x".toList, "//example.com:80.example.com/y".toList, "https://other.com/z".toList] := by
  decide +kernel

/-- The links of that page are submitted and stay in the domain; the image is not. -/
theorem resultSubmissions_inDomain_example :
    let submitted := exampleCrawler.resultSubmissions "t" "https://example.com/a/b" 0 examplePage sampleLinkReadings
    submitted.map (·.1.target) = [.url "https://example.com/x", .url "https://example.com:80.example.com/y"] ∧
      ∀ s ∈ submitted, ∀ url, s.1.target = .url url → inDomain exampleCrawler.config url.toList = true := by
  refine ⟨by decide +kernel, ?_⟩
  refine (resultSubmissions_inDomain_iff exampleCrawler "t" "https://example.com/a/b" 0 examplePage sampleLinkReadings
    rfl (by decide) (by decide)).2.2 fun _ _ _ before _ _ _ _ href place => ?_
  have mem := List.mem_of_getElem? place
  rw [resultHrefs_examplePage] at mem
  simp only [List.mem_cons, List.not_mem_nil, or_false] at mem
  rcases mem with rfl | rfl | rfl <;> decide

/-- A link that climbs out of the path turns a host into a path, and the filter lets it pass. -/
theorem climbing_link_leaves : inDomain exampleCrawler.config "https://example.com/".toList = true ∧
    ∃ s ∈ exampleCrawler.resultSubmissions "t" "https://example.com/" 0
      (.obj [("html", .str "<a href=\"../../evil.com/x\">")]) sampleLinkReadings,
    s.1.target = .url "https:/evil.com/x" ∧
      inDomain exampleCrawler.config "https:/evil.com/x".toList = false := by
  refine ⟨by decide, _, (mem_submissions "t" "https://example.com/" sampleLinkReadings).2
    ⟨[], ⟨"https:/evil.com/x", 1, "html", "a_href"⟩, [], by rfl, ⟨by decide, by decide, rfl⟩, rfl⟩, rfl, by decide⟩

end AdaptiveCrawler

end TORdex
