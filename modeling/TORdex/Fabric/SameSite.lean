import TORdex.Fabric.UrlSlices

/-!
# Relative links and their site

A page is a URL `scheme://host` or `scheme://host/path`.  A relative link of the page stays on the site when it
resolves to the page itself or to a URL that goes on with a slash after the host.
-/

namespace TORdex.Crawler

open ByteOffsets

/-! ## Slashes of a prefix -/

section Slashes

variable {s t l : Text}

/-- Prefixes that end in a slash and have equally many are the same. -/
theorem slashPrefix_unique (hs : s ++ ['/'] <+: l) (ht : t ++ ['/'] <+: l)
    (h : s.count '/' = t.count '/') : s = t := by
  have inside : ∀ {s t : Text}, s ++ ['/'] <+: t ++ ['/'] → s.count '/' = t.count '/' → s = t := by
    rintro s t ⟨rest, eq⟩ h
    rcases List.eq_nil_or_concat rest with rfl | ⟨init, last, rfl⟩
    · rw [List.append_nil] at eq
      exact List.append_cancel_right eq
    · -- another slash would be counted
      rw [List.concat_eq_append, ← List.append_assoc] at eq
      obtain ⟨front, -⟩ := List.append_inj' eq rfl
      rw [← front] at h
      simp at h
  rcases List.prefix_or_prefix_of_prefix hs ht with short | long
  · exact inside short h
  · exact (inside long h.symm).symm

theorem beforeLastSlash_append {before after : Text} (h : '/' ∉ after) :
    beforeLastSlash (before ++ ['/'] ++ after) = some before := by
  have skipped : (before ++ ['/'] ++ after).reverse.dropWhile (fun c => decide (c ≠ '/')) =
      '/' :: before.reverse := by
    rw [List.reverse_append, List.reverse_append, List.dropWhile_append_of_pos]
    · rfl
    · intro c hc
      have other : c ≠ '/' := fun eq => h (eq ▸ List.mem_reverse.1 hc)
      simpa using other
  unfold beforeLastSlash
  rw [skipped]
  exact congrArg some (List.reverse_reverse before)

theorem beforeLastSlash_eq_none_iff : beforeLastSlash s = none ↔ '/' ∉ s := by
  constructor
  · intro h slash
    unfold beforeLastSlash at h
    split at h
    · next nothing =>
      have other := List.dropWhile_eq_nil_iff.1 nothing '/' (List.mem_reverse.2 slash)
      simp at other
    · cases h
  · intro h
    cases found : beforeLastSlash s with
    | none => rfl
    | some before =>
      obtain ⟨after, rfl, -⟩ := beforeLastSlash_eq_some found
      simp at h

end Slashes

/-! ## Climbing -/

/-- The number of `../` at the front of an href and the rest of it. -/
def ups : Text → ℕ × Text
  | '.' :: '.' :: '/' :: rest => ((ups rest).1 + 1, (ups rest).2)
  | rest => (0, rest)

/-- One round of `climb` on a text that ends in a byte. -/
def parent (s : Text) : Text :=
  match beforeLastSlash s.dropLast with
  | some before => before ++ ['/']
  | none => s

section Climbing

variable {s : Text}

theorem endsInByte_parent (h : EndsInByte s) : EndsInByte (parent s) := by
  unfold parent
  cases beforeLastSlash s.dropLast with
  | none => exact h
  | some before => exact endsInByte_slash before

theorem climb_eq (h : EndsInByte s) (href : Text) :
    climb s href = some (parent^[(ups href).1] s, (ups href).2) := by
  fun_induction ups href generalizing s with
  | case1 rest ih =>
    obtain ⟨c, last, single⟩ := h
    have round : climb s ('.' :: '.' :: '/' :: rest) = climb (parent s) rest := by
      rw [climb, Option.mem_def.1 last]
      simp only [single, if_true]
      unfold parent
      cases beforeLastSlash s.dropLast <;> rfl
    rw [round, ih (endsInByte_parent ⟨c, last, single⟩), Function.iterate_succ_apply]
  | case2 rest level =>
    rw [climb]
    · rfl
    · exact level

/-- A round takes a prefix with one slash less. -/
theorem parent_eq {n : ℕ} (h : s.dropLast.count '/' = n + 1) :
    ∃ before, parent s = before ++ ['/'] ∧ before ++ ['/'] <+: s ∧ before.count '/' = n := by
  unfold parent
  cases found : beforeLastSlash s.dropLast with
  | none =>
    rw [beforeLastSlash_eq_none_iff, ← List.count_eq_zero] at found
    omega
  | some before =>
    obtain ⟨after, split, noSlash⟩ := beforeLastSlash_eq_some found
    refine ⟨before, rfl, ?_, ?_⟩
    · exact (split ▸ List.prefix_append _ after).trans (List.dropLast_prefix s)
    · rw [split, List.count_append, List.count_append, List.count_eq_zero.2 noSlash] at h
      simpa using h

theorem parent_top (h : '/' ∉ s) : parent (s ++ ['/']) = s ++ ['/'] := by
  unfold parent
  rw [List.dropLast_concat, beforeLastSlash_eq_none_iff.2 h]

/-- The rounds go from slash to slash, and stay at the first. -/
theorem iterate_parent {depth : ℕ} (h : s.dropLast.count '/' = depth + 1) (n : ℕ) :
    ∃ before, parent^[n + 1] s = before ++ ['/'] ∧ before ++ ['/'] <+: s ∧ before.count '/' = depth - n := by
  induction n with
  | zero => exact parent_eq h
  | succ n ih =>
    obtain ⟨before, eq, inside, slashes⟩ := ih
    rw [Function.iterate_succ_apply', eq]
    rcases Nat.eq_zero_or_pos (depth - n) with top | deeper
    · refine ⟨before, parent_top (List.count_eq_zero.1 (slashes.trans top)), inside, ?_⟩
      omega
    · have next : ((before ++ ['/']).dropLast).count '/' = depth - (n + 1) + 1 := by
        rw [List.dropLast_concat]
        omega
      obtain ⟨up, eq', inside', slashes'⟩ := parent_eq next
      exact ⟨up, eq', inside'.trans inside, slashes'⟩

end Climbing

/-! ## Pages -/

/-- A base of the form `scheme://host` or `scheme://host/path`. -/
structure Page where
  scheme : Text
  host : Text
  /-- Empty, or from the slash on. -/
  path : Text
  web : scheme = "http".toList ∨ scheme = "https".toList
  named : host ≠ []
  noSlash : '/' ∉ host
  rooted : path = [] ∨ ['/'] <+: path

namespace Page

variable (page : Page)

/-- `scheme://host`. -/
def origin : Text := page.scheme ++ "://".toList ++ page.host

/-- The URL of the page. -/
def url : Text := page.origin ++ page.path

/-- The URL starts with `scheme://host` and is the page itself or continues with a slash. -/
def OnSite (url : Text) : Prop :=
  ∃ rest, url = page.origin ++ rest ∧ (url = page.url ∨ ['/'] <+: rest)

/-- After an `http` host of one byte a path with one slash is no longer than `https://`. -/
def Short : Prop := size page.origin ≤ 8 ∧ page.path.count '/' ≤ 1

instance : Decidable page.Short := inferInstanceAs (Decidable (_ ∧ _))

/-- The number of `../` that lead to a directory of the site.  The file name in a short URL counts as one. -/
def depth : ℕ := if page.Short then page.path.dropLast.count '/' else page.path.count '/' - 1

/-- The rest of an href that has climbed to the scheme names the host again. -/
def Returns (rest : Text) : Prop := rest = page.host ++ page.path ∨ page.host ++ ['/'] <+: rest

theorem count_origin : page.origin.count '/' = 2 := by
  have host := List.count_eq_zero.2 page.noSlash
  rcases page.web with web | web <;> simp [origin, web, host]

theorem size_origin : 8 ≤ size page.origin := by
  have host : 0 < size page.host := Nat.pos_of_ne_zero fun h => page.named (size_eq_zero_iff.1 h)
  have protocol : 7 ≤ size (page.scheme ++ "://".toList) := by
    rcases page.web with web | web <;> rw [web] <;> decide
  rw [origin, size_append]
  omega

/-- A path has a last slash. -/
theorem exists_file (h : page.path ≠ []) : ∃ dir file, page.path = dir ++ ['/'] ++ file ∧ '/' ∉ file ∧
    (dir = [] ∨ 0 < dir.count '/') := by
  obtain ⟨rest, path⟩ := page.rooted.resolve_left h
  cases found : beforeLastSlash page.path with
  | none =>
    rw [beforeLastSlash_eq_none_iff, ← path] at found
    simp at found
  | some dir =>
    obtain ⟨file, split, noSlash⟩ := beforeLastSlash_eq_some found
    refine ⟨dir, file, split, noSlash, ?_⟩
    cases dir with
    | nil => exact .inl rfl
    | cons c dir =>
      rw [split] at path
      obtain ⟨rfl, -⟩ := List.cons_eq_cons.1 path
      exact .inr (by simp)

theorem directory_origin (h : page.path = []) : directory page.url = page.origin := by
  have split : page.url = page.scheme ++ ":/".toList ++ ['/'] ++ page.host := by
    simp [url, origin, h]
  have near : ¬ 8 < byteLength (page.scheme ++ ":/".toList) := by
    rcases page.web with web | web <;> rw [web] <;> decide
  unfold directory
  rw [split, beforeLastSlash_append page.noSlash]
  simp only [near, if_false]
  simp [origin]

theorem directory_path {dir file : Text} (split : page.path = dir ++ ['/'] ++ file) (noSlash : '/' ∉ file)
    (top : dir = [] ∨ 0 < dir.count '/') :
    directory page.url = if page.Short then page.url else page.origin ++ dir ++ ['/'] := by
  have whole : page.url = page.origin ++ dir ++ ['/'] ++ file := by
    rw [url, split]
    simp only [List.append_assoc]
  have slashes : page.path.count '/' = dir.count '/' + 1 := by
    rw [split, List.count_append, List.count_append, List.count_eq_zero.2 noSlash]
    rfl
  have far : 8 < byteLength (page.origin ++ dir) ↔ ¬ page.Short := by
    show 8 < size (page.origin ++ dir) ↔ _
    have least := page.size_origin
    rw [size_append, Short, slashes]
    rcases top with rfl | deep
    · simp
    · have bytes : 0 < size dir := Nat.pos_of_ne_zero fun h => by simp [size_eq_zero_iff.1 h] at deep
      omega
  have found : beforeLastSlash page.url = some (page.origin ++ dir) := by
    rw [whole, beforeLastSlash_append noSlash]
  unfold directory
  rw [found]
  by_cases short : page.Short
  · rw [if_pos short]
    exact if_neg fun h => far.1 h short
  · rw [if_neg short]
    exact if_pos (far.2 short)

/-- What a relative link is joined to begins with the origin, and with the root unless the page has
no path. -/
theorem directory_eq_append : ∃ rest, directory page.url = page.origin ++ rest ∧ rest <+: page.path ∧
    (page.path = [] ∨ ['/'] <+: rest) ∧ rest.dropLast.count '/' = page.depth := by
  by_cases bare : page.path = []
  · refine ⟨[], ?_, List.nil_prefix, .inl bare, ?_⟩
    · rw [directory_origin page bare, List.append_nil]
    · simp [depth, bare]
  · obtain ⟨dir, file, split, noSlash, top⟩ := page.exists_file bare
    rw [directory_path page split noSlash top, depth]
    by_cases short : page.Short
    · rw [if_pos short, if_pos short]
      exact ⟨page.path, rfl, List.prefix_rfl, page.rooted, rfl⟩
    · rw [if_neg short, if_neg short]
      refine ⟨dir ++ ['/'], List.append_assoc .., split ▸ List.prefix_append _ file, .inr ?_, ?_⟩
      · have first := page.rooted.resolve_left bare
        have dirFirst : dir ++ ['/'] <+: page.path := split ▸ List.prefix_append _ file
        refine List.prefix_of_prefix_length_le first dirFirst ?_
        rw [List.length_append]
        exact Nat.le_add_left _ _
      · rw [List.dropLast_concat, split, List.count_append, List.count_append, List.count_eq_zero.2 noSlash]
        rfl

theorem count_dropLast (rest : Text) :
    (page.origin ++ rest).dropLast.count '/' = rest.dropLast.count '/' + 2 := by
  cases rest with
  | nil =>
    -- the last character is one of the host
    have host : '/' ∉ page.host.dropLast := fun h => page.noSlash ((List.dropLast_subset _) h)
    have slashes := List.count_eq_zero.2 host
    rw [List.append_nil, origin, List.dropLast_append_of_ne_nil page.named, List.count_append, slashes]
    rcases page.web with web | web <;> rw [web] <;> decide
  | cons c rest =>
    rw [List.dropLast_append_of_ne_nil (List.cons_ne_nil c rest), List.count_append, count_origin,
      Nat.add_comm]

/-! ## Where the links of a page lead -/

variable {page}

theorem onSite_origin {rest : Text} :
    page.OnSite (page.origin ++ rest) ↔ rest = page.path ∨ ['/'] <+: rest := by
  constructor
  · rintro ⟨rest', eq, h⟩
    obtain rfl := List.append_cancel_left eq
    exact h.imp_left List.append_cancel_left
  · intro h
    exact ⟨rest, rfl, h.imp_left (congrArg _)⟩

/-- A link that has climbed to the scheme. -/
theorem onSite_protocol {rest : Text} :
    page.OnSite (page.scheme ++ "://".toList ++ rest) ↔ page.Returns rest := by
  constructor
  · rintro ⟨rest', eq, h⟩
    rw [origin, List.append_assoc _ page.host] at eq
    obtain rfl := List.append_cancel_left eq
    rcases h with same | ⟨tail, rfl⟩
    · refine .inl ?_
      rw [url, origin, List.append_assoc _ page.host] at same
      exact List.append_cancel_left same
    · exact .inr ⟨tail, List.append_assoc ..⟩
  · rintro (rfl | ⟨tail, rfl⟩)
    · rw [← List.append_assoc]
      exact onSite_origin.2 (.inl rfl)
    · rw [List.append_assoc page.host, ← List.append_assoc (page.scheme ++ _)]
      exact onSite_origin.2 (.inr (List.prefix_append _ _))

/-- A link that has climbed past it. -/
theorem onSite_colon {rest : Text} : page.OnSite (page.scheme ++ ":/".toList ++ rest) ↔
    ∃ rest', rest = '/' :: rest' ∧ page.Returns rest' := by
  have split : page.scheme ++ "://".toList = page.scheme ++ ":/".toList ++ ['/'] := by simp
  constructor
  · intro h
    have slash : ∃ rest', rest = '/' :: rest' := by
      obtain ⟨rest', eq, -⟩ := h
      rw [origin, split, List.append_assoc _ ['/'], List.append_assoc _ (['/'] ++ _)] at eq
      exact ⟨page.host ++ rest', List.append_cancel_left eq⟩
    obtain ⟨rest', rfl⟩ := slash
    refine ⟨rest', rfl, onSite_protocol.1 ?_⟩
    rwa [split, List.append_assoc]
  · rintro ⟨rest', rfl, h⟩
    have := onSite_protocol.2 h
    rwa [split, List.append_assoc] at this

/-- The place that `n + 1` times `../` lead to. -/
theorem climbed (page : Page) (n : ℕ) : ∃ before, parent^[n + 1] (directory page.url) = before ++ ['/'] ∧
    before ++ ['/'] <+: directory page.url ∧ before.count '/' = page.depth + 1 - n := by
  obtain ⟨rest, eq, -, -, slashes⟩ := page.directory_eq_append
  refine iterate_parent ?_ n
  rw [eq, count_dropLast, slashes]

theorem protocol_prefix_directory (page : Page) : page.scheme ++ "://".toList <+: directory page.url := by
  obtain ⟨rest, eq, -⟩ := page.directory_eq_append
  rw [eq, origin, List.append_assoc _ page.host]
  exact List.prefix_append _ _

theorem climbed_inside {n : ℕ} (h : n < page.depth) (tail : Text) :
    page.OnSite (parent^[n + 1] (directory page.url) ++ tail) := by
  obtain ⟨before, eq, inside, slashes⟩ := climbed page n
  obtain ⟨rest, dir, ofPath, rooted, deep⟩ := page.directory_eq_append
  have more : 2 < (before ++ ['/']).count '/' := by
    rw [List.count_append, slashes]
    show 2 < page.depth + 1 - n + 1
    omega
  have first : ['/'] <+: rest := by
    refine rooted.resolve_left fun bare => ?_
    rw [bare, List.prefix_nil] at ofPath
    rw [ofPath] at deep
    exact absurd deep (by simp; omega)
  have origin : page.origin <+: before ++ ['/'] := by
    refine (List.prefix_or_prefix_of_prefix inside (dir ▸ List.prefix_append _ rest)).resolve_left
      fun short => ?_
    have fewer := short.sublist.count_le '/'
    rw [count_origin] at fewer
    omega
  obtain ⟨t, split⟩ := origin
  rw [dir, ← split, List.prefix_append_right_inj] at inside
  have nonempty : t ≠ [] := by
    rintro rfl
    rw [← split, List.append_nil, count_origin] at more
    omega
  rw [eq, ← split, List.append_assoc]
  refine onSite_origin.2 (.inr (List.IsPrefix.trans ?_ (List.prefix_append t tail)))
  exact List.prefix_of_prefix_length_le first inside (List.length_pos_iff.2 nonempty)

theorem climbed_protocol : parent^[page.depth + 1] (directory page.url) = page.scheme ++ "://".toList := by
  obtain ⟨before, eq, inside, slashes⟩ := climbed page page.depth
  have split : page.scheme ++ "://".toList = page.scheme ++ ":/".toList ++ ['/'] := by simp
  have top := protocol_prefix_directory page
  rw [split] at top ⊢
  rw [eq, slashPrefix_unique inside top ?_]
  rw [slashes]
  rcases page.web with web | web <;> simp [web]

theorem climbed_colon {n : ℕ} (h : page.depth < n) :
    parent^[n + 1] (directory page.url) = page.scheme ++ ":/".toList := by
  obtain ⟨before, eq, inside, slashes⟩ := climbed page n
  have split : page.scheme ++ ":/".toList = page.scheme ++ ":".toList ++ ['/'] := by simp
  have top : page.scheme ++ ":".toList ++ ['/'] <+: directory page.url :=
    List.IsPrefix.trans ⟨['/'], by simp⟩ (protocol_prefix_directory page)
  rw [split, eq, slashPrefix_unique inside top ?_]
  rw [slashes]
  have none : page.depth + 1 - n = 0 := by omega
  rcases page.web with web | web <;> simp [web, none]

end Page

/-! ## Links without a scheme -/

/-- A letter and then letters, digits, `+`, `-` and `.` up to a colon. -/
def hasScheme (href : Text) : Bool :=
  match href with
  | [] => false
  | c :: rest => c.isAlpha &&
      (rest.dropWhile fun c => c.isAlphanum || c = '+' || c = '-' || c = '.').head? = some ':'

/-- A link that is not empty and has no scheme and no host. -/
structure IsRelative (href : Text) : Prop where
  nonempty : href ≠ []
  noScheme : hasScheme href = false
  noHost : startsWith href "//" = false

section Relative

variable {base href : Text}

theorem IsRelative.not_absolute (h : IsRelative href) :
    (startsWith href "http://" || startsWith href "https://") = false := by
  rw [Bool.or_eq_false_iff]
  constructor
  · refine Bool.eq_false_iff.2 fun absolute => ?_
    obtain ⟨rest, rfl⟩ := Bytes.startsWith_eq_true absolute
    exact absurd h.noScheme (by simp [hasScheme])
  · refine Bool.eq_false_iff.2 fun absolute => ?_
    obtain ⟨rest, rfl⟩ := Bytes.startsWith_eq_true absolute
    exact absurd h.noScheme (by simp [hasScheme])

/-- A link of the first branches of `resolveUrl` that a relative link reaches: a path, a query or a
fragment. -/
def isRooted (href : Text) : Bool := href.head?.any fun c => c = '/' || c = '?' || c = '#'

variable (relative : (startsWith href "http://" || startsWith href "https://") = false)
  (noHost : startsWith href "//" = false)

include relative noHost

theorem resolveUrl_joined (inner : isRooted href = false) (level : startsWith href "../" = false) :
    resolveUrl base href = some (directory base ++ if startsWith href "./" then href.drop 2 else href) := by
  have noPath : startsWith href "/" = false := by
    refine Bool.eq_false_iff.2 fun path => ?_
    obtain ⟨rest, rfl⟩ := Bytes.startsWith_eq_true path
    exact absurd inner (by simp [isRooted])
  have clean : ((href.any fun c => c = '?' || c = '#') &&
      (href.takeWhile fun c => !(c = '?' || c = '#')).isEmpty) = false := by
    cases href with
    | nil => rfl
    | cons c rest =>
      simp only [isRooted, List.head?_cons, Option.any_some, Bool.or_eq_false_iff, decide_eq_false_iff_not] at inner
      simp [inner.1.2, inner.2]
  unfold resolveUrl
  simp only [relative, noHost, noPath, clean, level, Bool.false_eq_true, if_false]
  split_ifs <;> rfl

theorem resolveUrl_query (inner : isRooted href = true) (noPath : startsWith href "/" = false) :
    resolveUrl base href = some base := by
  cases href with
  | nil => exact absurd inner (by decide)
  | cons c rest =>
    have mark : c = '?' ∨ c = '#' := by
      have slash : c ≠ '/' := by
        rintro rfl
        exact absurd noPath (by simp [startsWith])
      simpa [isRooted, slash] using inner
    have clean : ((c :: rest).takeWhile fun c => !(c = '?' || c = '#')).isEmpty = true := by
      rcases mark with rfl | rfl <;> rfl
    have marked : ((c :: rest).any fun c => c = '?' || c = '#') = true := by
      rcases mark with rfl | rfl <;> rfl
    unfold resolveUrl
    simp only [relative, noHost, noPath, clean, marked, Bool.and_true, Bool.false_eq_true, if_false, if_true]

theorem resolveUrl_path {scheme : Text} (web : scheme = "http".toList ∨ scheme = "https".toList) (rest : Text)
    (path : startsWith href "/" = true) :
    resolveUrl (scheme ++ "://".toList ++ rest) href =
      some (scheme ++ "://".toList ++ rest.takeWhile (· ≠ '/') ++ href) := by
  unfold resolveUrl
  simp only [relative, noHost, path, cut_protocol web, Bool.false_eq_true, if_false, if_true]

end Relative

namespace Page

variable {page : Page} {href : Text}

/-- When a relative link of the page stays on its site. -/
def Keeps (page : Page) (href : Text) : Prop :=
  match ups href with
  | (0, _) => isRooted href = true ∨ page.path ≠ [] ∨ href = "./".toList ∨ ".//".toList <+: href
  | (n + 1, rest) =>
    (HasDirectory page.url ∨ EndsInByte page.url) ∧
      (n < page.depth ∨ n = page.depth ∧ page.Returns rest ∨
        page.depth < n ∧ ∃ rest', rest = '/' :: rest' ∧ page.Returns rest')

theorem ups_level (h : startsWith href "../" = false) : ups href = (0, href) := by
  rw [ups]
  rintro rest rfl
  exact absurd h (by simp [startsWith])

theorem joined_iff (tail : Text) : page.OnSite (directory page.url ++ tail) ↔
    page.path ≠ [] ∨ tail = [] ∨ ['/'] <+: tail := by
  obtain ⟨rest, dir, ofPath, rooted, -⟩ := page.directory_eq_append
  rw [dir, List.append_assoc, onSite_origin]
  by_cases bare : page.path = []
  · rw [bare, List.prefix_nil] at ofPath
    rw [ofPath, bare, or_iff_right (not_not_intro rfl)]
    rfl
  · exact iff_of_true (.inr ((rooted.resolve_left bare).trans (List.prefix_append rest tail))) (.inl bare)

theorem resolveUrl_path (page : Page) (h : IsRelative href) (path : startsWith href "/" = true) :
    resolveUrl page.url href = some (page.origin ++ href) := by
  have split : page.url = page.scheme ++ "://".toList ++ (page.host ++ page.path) := List.append_assoc ..
  have host : (page.host ++ page.path).takeWhile (· ≠ '/') = page.host := by
    rw [List.takeWhile_append_of_pos]
    · rcases page.rooted with bare | ⟨rest, eq⟩
      · simp [bare]
      · simp [← eq]
    · intro c hc
      have other : c ≠ '/' := fun eq => page.noSlash (eq ▸ hc)
      simpa using other
  rw [split, Crawler.resolveUrl_path h.not_absolute h.noHost page.web _ path, host]
  rfl

theorem level_iff (h : IsRelative href) (level : startsWith href "../" = false) :
    (∃ url, resolveUrl page.url href = some url ∧ page.OnSite url) ↔ page.Keeps href := by
  rw [Keeps, ups_level level]
  cases inner : isRooted href with
  | true =>
    refine iff_of_true ?_ (.inl rfl)
    cases path : startsWith href "/" with
    | true =>
      exact ⟨_, resolveUrl_path page h path, onSite_origin.2 (.inr (List.isPrefixOf_iff_prefix.1 path))⟩
    | false =>
      exact ⟨_, resolveUrl_query h.not_absolute h.noHost inner path, onSite_origin.2 (.inl rfl)⟩
  | false =>
    simp only [resolveUrl_joined h.not_absolute h.noHost inner level, Option.some_inj, exists_eq_left', joined_iff,
      Bool.false_eq_true, false_or]
    refine or_congr_right ?_
    cases dot : startsWith href "./" with
    | true =>
      obtain ⟨rest, rfl⟩ := Bytes.startsWith_eq_true dot
      exact or_congr (by simp) (by simp)
    | false =>
      have noSlash : ¬ ['/'] <+: href := by
        rintro ⟨rest, rfl⟩
        exact absurd inner (by simp [isRooted])
      refine iff_of_false ?_ ?_
      · rintro (empty | slash)
        · exact h.nonempty empty
        · exact noSlash slash
      · rintro (rfl | ⟨rest, rfl⟩)
        · exact absurd dot (by decide)
        · exact absurd dot (by simp [startsWith])

theorem climbing_iff (rest : Text) :
    (∃ url, resolveUrl page.url ("../".toList ++ rest) = some url ∧ page.OnSite url) ↔
    page.Keeps ("../".toList ++ rest) := by
  have count : ups ("../".toList ++ rest) = ((ups rest).1 + 1, (ups rest).2) := rfl
  rw [resolveUrl_climb, Keeps, count]
  dsimp only
  rw [← endsInByte_directory_iff]
  by_cases ends : EndsInByte (directory page.url)
  · rw [climb_eq ends, count]
    simp only [Option.map_some, Option.some_inj, exists_eq_left', ends, true_and]
    rcases Nat.lt_trichotomy (ups rest).1 page.depth with inside | top | above
    · exact iff_of_true (climbed_inside inside _) (.inl inside)
    · rw [top, climbed_protocol, onSite_protocol]
      simp
    · rw [climbed_colon above, onSite_colon]
      simp [above, above.not_gt, above.ne']
  · have none : climb (directory page.url) ("../".toList ++ rest) = none :=
      Option.not_isSome_iff_eq_none.1 fun h => ends ((climb_isSome_iff rest).1 h)
    rw [none]
    refine iff_of_false ?_ fun h => ends h.1
    rintro ⟨url, resolved, -⟩
    cases resolved

/-- A relative link stays on the site of its page exactly when the page keeps it. -/
theorem resolveUrl_onSite_iff (page : Page) (href : Text) (h : IsRelative href) :
    (∃ url, Bytes.resolveUrl page.url href = some url ∧ page.OnSite url) ↔ page.Keeps href := by
  rw [Bytes.resolveUrl_eq]
  by_cases climbs : startsWith href "../" = true
  · obtain ⟨rest, rfl⟩ := Bytes.startsWith_eq_true climbs
    exact climbing_iff rest
  · exact level_iff h (Bool.eq_false_iff.2 climbs)

/-- `https://example.com`. -/
def exampleHost : Page where
  scheme := "https".toList
  host := "example.com".toList
  path := []
  web := .inr rfl
  named := by decide
  noSlash := by decide
  rooted := .inl rfl

theorem resolveUrl_onSite_sample :
    (∃ url, Bytes.resolveUrl exampleHost.url "?page=2".toList = some url ∧ exampleHost.OnSite url) ↔
      exampleHost.Keeps "?page=2".toList :=
  resolveUrl_onSite_iff exampleHost "?page=2".toList ⟨by decide, by decide, by decide⟩

/-- On a host without a path the name of a page becomes a part of the host's name. -/
theorem not_resolveUrl_onSite : ¬ ∀ (page : Page) (href : Text), IsRelative href →
    ∃ url, Bytes.resolveUrl page.url href = some url ∧ page.OnSite url := by
  intro h
  obtain ⟨url, resolved, rest, eq, onSite⟩ := h exampleHost "contact".toList ⟨by decide, by decide, by decide⟩
  have joined :
      Bytes.resolveUrl exampleHost.url "contact".toList = some "https://example.comcontact".toList := by
    decide
  obtain rfl := Option.some_inj.1 (joined.symm.trans resolved)
  have split : exampleHost.origin ++ "contact".toList = exampleHost.origin ++ rest := eq
  obtain rfl := List.append_cancel_left split
  rcases onSite with same | slash
  · exact absurd same (by decide)
  · exact absurd slash (by decide)

end Page

end TORdex.Crawler
