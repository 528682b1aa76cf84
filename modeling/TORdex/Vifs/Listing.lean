import TORdex.Vifs.Files

/-!
# Finding files by listing

A listing has the first component of what follows the directory in a key.  A component that is empty
is passed over, so a walk from the root finds exactly the keys without one.
-/

namespace TORdex

/-! ## Components -/

/-- No component is empty. -/
def PlainText (s : List Char) : Prop := ∀ part ∈ s.splitOn '/', part ≠ []

/-- A component that is not empty. -/
structure IsName (n : List Char) : Prop where
  ne : n ≠ []
  free : '/' ∉ n

/-- A text is one component, or the first of several. -/
theorem splitOn_cases (s : List Char) :
    ('/' ∉ s ∧ s.splitOn '/' = [s]) ∨
      ∃ n rest, '/' ∉ n ∧ s = n ++ '/' :: rest ∧ s.splitOn '/' = n :: rest.splitOn '/' := by
  by_cases h : '/' ∈ s
  · obtain ⟨n, rest, rfl, free⟩ := List.eq_append_cons_of_mem h
    exact .inr ⟨n, rest, free, rfl, List.splitOn_append_cons_self_of_not_mem free rest⟩
  · exact .inl ⟨h, List.splitOn_eq_singleton h⟩

theorem IsName.plain {n : List Char} (h : IsName n) : PlainText n := by
  intro part hpart
  rw [List.splitOn_eq_singleton h.free, List.mem_singleton] at hpart
  exact hpart ▸ h.ne

theorem IsName.plain_append {n s : List Char} (h : IsName n) (plain : PlainText s) :
    PlainText (n ++ '/' :: s) := by
  intro part hpart
  rw [List.splitOn_append_cons_self_of_not_mem h.free] at hpart
  rcases List.mem_cons.1 hpart with rfl | hpart
  · exact h.ne
  · exact plain part hpart

/-- A plain text is a name, or a name before another plain text. -/
theorem PlainText.cases {s : List Char} (h : PlainText s) :
    IsName s ∨ ∃ n rest, IsName n ∧ PlainText rest ∧ s = n ++ '/' :: rest := by
  rcases splitOn_cases s with ⟨free, parts⟩ | ⟨n, rest, free, hs, parts⟩
  · exact .inl ⟨h s (by simp [parts]), free⟩
  · refine .inr ⟨n, rest, ⟨h n (by simp [parts]), free⟩, fun part hpart => ?_, hs⟩
    exact h part (by simp [parts, hpart])

/-- What the rest of a key after the directory adds to a listing. -/
def childOf (suffix : List Char) : Option (List Char × Bool) :=
  match suffix.splitOn '/' with
  | [] => none
  | first :: others => if first = [] then none else some (first, !others.isEmpty)

theorem childOf_file {n : List Char} (h : IsName n) : childOf n = some (n, false) := by
  simp [childOf, List.splitOn_eq_singleton h.free, h.ne]

theorem childOf_dir {n : List Char} (h : IsName n) (rest : List Char) :
    childOf (n ++ '/' :: rest) = some (n, true) := by
  simp [childOf, List.splitOn_append_cons_self_of_not_mem h.free, h.ne]

theorem childOf_some {suffix n : List Char} {isDir : Bool} (h : childOf suffix = some (n, isDir)) :
    IsName n ∧ (isDir = false ∧ suffix = n ∨ isDir = true ∧ ∃ rest, suffix = n ++ '/' :: rest) := by
  unfold childOf at h
  rcases splitOn_cases suffix with ⟨free, parts⟩ | ⟨first, rest, free, hs, parts⟩
  · rw [parts] at h
    dsimp only at h
    split_ifs at h with empty
    cases h
    exact ⟨⟨empty, free⟩, .inl ⟨rfl, rfl⟩⟩
  · rw [parts] at h
    dsimp only at h
    split_ifs at h with empty
    cases h
    exact ⟨⟨empty, free⟩, .inr ⟨by simp, rest, hs⟩⟩

/-- A key below `start` adds a name to a listing. -/
def Sees (start key : String) (n : String) (isDir : Bool) : Prop :=
  ∃ suffix, key.toList = start.toList ++ suffix ∧ childOf suffix = some (n.toList, isDir)

theorem seeKey_eq {start key : String} {suffix : List Char} (hkey : start.toList ++ suffix = key.toList)
    (seen : HashMap String Bool) :
    seeKey start seen key = match childOf suffix with
      | none => seen
      | some (first, isDir) =>
        match seen.lookup (String.ofList first) with
        | some e => seen.insert (String.ofList first) (e || isDir)
        | none => seen.insert (String.ofList first) isDir := by
  have drop : key.toList.drop start.length = suffix := by
    rw [← hkey, ← String.length_toList, List.drop_left]
  have prefixed : start.toList <+: key.toList := ⟨suffix, hkey⟩
  simp only [seeKey, childOf, if_pos prefixed, drop]
  by_cases empty : suffix = []
  · simp [empty]
  · rw [if_neg empty]
    cases suffix.splitOn '/' with
    | nil => rfl
    | cons first others =>
      dsimp only
      split_ifs <;> rfl

theorem lookup_seeKey {start key : String} (below : start.toList <+: key.toList)
    (seen : HashMap String Bool) (n : String) :
    (((seeKey start seen key).lookup n).isSome ↔
        (seen.lookup n).isSome ∨ ∃ isDir, Sees start key n isDir) ∧
      ((seeKey start seen key).lookup n = some true ↔
        seen.lookup n = some true ∨ Sees start key n true) := by
  obtain ⟨suffix, hkey⟩ := below
  have sees : ∀ isDir, Sees start key n isDir ↔ childOf suffix = some (n.toList, isDir) := by
    intro isDir
    constructor
    · rintro ⟨suffix', hkey', h⟩
      rw [← hkey] at hkey'
      rwa [List.append_cancel_left hkey']
    · exact fun h => ⟨suffix, hkey.symm, h⟩
  simp only [sees, seeKey_eq hkey]
  cases hc : childOf suffix with
  | none => simp
  | some child =>
    obtain ⟨first, isDir⟩ := child
    by_cases same : n = String.ofList first
    · subst same
      dsimp only
      cases hseen : seen.lookup (String.ofList first) <;> simp [String.toList_ofList]
    · have other : first ≠ n.toList := fun e => same (by rw [e, String.ofList_toList])
      dsimp only
      cases hseen : seen.lookup (String.ofList first) <;>
        simp [Finmap.lookup_insert_of_ne _ same, other]

theorem lookup_foldl_seeKey {start : String} (keys : List String)
    (below : ∀ key ∈ keys, start.toList <+: key.toList) (seen : HashMap String Bool) (n : String) :
    (((keys.foldl (seeKey start) seen).lookup n).isSome ↔
        (seen.lookup n).isSome ∨ ∃ key ∈ keys, ∃ isDir, Sees start key n isDir) ∧
      ((keys.foldl (seeKey start) seen).lookup n = some true ↔
        seen.lookup n = some true ∨ ∃ key ∈ keys, Sees start key n true) := by
  induction keys generalizing seen with
  | nil => simp
  | cons key keys ih =>
    obtain ⟨known, dir⟩ := ih (fun k hk => below k (List.mem_cons_of_mem _ hk)) (seeKey start seen key)
    obtain ⟨known', dir'⟩ := lookup_seeKey (below key List.mem_cons_self) seen n
    rw [List.foldl_cons]
    constructor
    · rw [known, known', List.exists_mem_cons_iff, or_assoc]
    · rw [dir, dir', List.exists_mem_cons_iff, or_assoc]

/-! ## Keys of paths -/

theorem toList_stripLeading (s : String) :
    (stripLeading s).toList = match s.toList with
      | '/' :: rest => rest
      | l => l := by
  unfold stripLeading
  split <;> simp_all

/-- Only the first slash goes. -/
theorem stripLeading_append {s : String} (h : s ≠ "") (t : String) :
    stripLeading (s ++ t) = stripLeading s ++ t := by
  rw [← String.toList_inj, String.toList_append, toList_stripLeading, toList_stripLeading,
    String.toList_append]
  cases hs : s.toList with
  | nil => exact absurd (String.toList_inj.1 (hs.trans String.toList_empty.symm)) h
  | cons c rest => by_cases hc : c = '/' <;> simp [hc]

theorem stripLeading_free {s : String} (h : '/' ∉ s.toList) : stripLeading s = s := by
  rw [← String.toList_inj, toList_stripLeading]
  split
  · rename_i rest hs
    simp [hs] at h
  · rfl

namespace VifsPath

/-- A path whose key has no empty component. -/
def Plain (path : VifsPath) : Prop := PlainText (stripLeading path.raw).toList

/-- A path strictly below another one. -/
def Below (path dir : VifsPath) : Prop := ∃ rest, path.toKey = dir.toKey ++ "/" ++ rest

theorem toKey_of_ne {path : VifsPath} (h : stripLeading path.raw ≠ "") :
    path.toKey = "vifs/" ++ stripLeading path.raw := by
  unfold toKey
  rw [if_neg h]
  rfl

theorem toKey_eq_vifs_iff {path : VifsPath} : path.toKey = "vifs" ↔ stripLeading path.raw = "" := by
  by_cases h : stripLeading path.raw = ""
  · simp [toKey, h]
  · refine iff_of_false (fun same => ?_) h
    rw [toKey_of_ne h, ← String.toList_inj, String.toList_append] at same
    simp at same

theorem stripLeading_eq_of_toKey {p q : VifsPath} (h : p.toKey = q.toKey) :
    stripLeading p.raw = stripLeading q.raw := by
  by_cases hp : stripLeading p.raw = ""
  · rw [hp, toKey_eq_vifs_iff.1 (h ▸ toKey_eq_vifs_iff.2 hp)]
  · have hq : stripLeading q.raw ≠ "" := fun hq =>
      hp (toKey_eq_vifs_iff.1 (h.trans (toKey_eq_vifs_iff.2 hq)))
    rw [toKey_of_ne hp, toKey_of_ne hq, ← String.toList_inj] at h
    exact String.toList_inj.1 (by simpa using h)

/-- What follows `vifs/` in the text in front of the keys in a directory. -/
def inside (path : VifsPath) : String :=
  if (stripLeading path.raw).toList.getLast?.all (· == '/') then stripLeading path.raw
  else stripLeading path.raw ++ "/"

theorem getLast?_stripLeading {s : String} (h : stripLeading s ≠ "") :
    (stripLeading s).toList.getLast? = s.toList.getLast? := by
  have strip : (stripLeading s).toList ≠ [] := fun e =>
    h (String.toList_inj.1 (e.trans String.toList_empty.symm))
  rw [toList_stripLeading] at strip ⊢
  split at strip
  · rename_i rest hs
    rw [hs, List.getLast?_cons_of_ne_nil strip]
  · rfl

theorem dirPrefix_eq (path : VifsPath) :
    VirtualIntelligenceFilesystem.dirPrefix path = "vifs/" ++ path.inside := by
  unfold VirtualIntelligenceFilesystem.dirPrefix inside
  by_cases h : stripLeading path.raw = ""
  · rw [toKey_eq_vifs_iff.2 h, h]
    rfl
  · rw [toKey_of_ne h, String.toList_append, List.getLast?_append]
    cases hl : (stripLeading path.raw).toList.getLast? with
    | none => exact absurd (String.toList_inj.1 (List.getLast?_eq_none_iff.1 hl)) h
    | some last =>
      by_cases slash : last = '/'
      · simp [slash]
      · simp [slash, String.append_assoc]

/-- An entry of a directory is named by the directory's text and its own name. -/
theorem stripLeading_join (path : VifsPath) {name : String} (h : IsName name.toList) :
    stripLeading (join path.raw name).raw = path.inside ++ name := by
  unfold join
  rw [stripLeading_free h.free]
  by_cases empty : path.raw = ""
  · rw [inside, empty]
    simp [stripLeading, stripTrailing]
  by_cases slash : path.raw.toList.getLast? = some '/'
  · have whole : stripTrailing path.raw ++ "/" = path.raw := by
      obtain ⟨init, hinit⟩ := List.getLast?_eq_some_iff.1 slash
      rw [stripTrailing, if_pos slash, ← String.toList_inj]
      simp [hinit]
    have closed : path.inside = stripLeading path.raw := by
      unfold inside
      by_cases strip : stripLeading path.raw = ""
      · simp [strip]
      · simp [getLast?_stripLeading strip, slash]
    rw [whole, stripLeading_append empty, closed]
  · have strip : stripLeading path.raw ≠ "" := by
      intro strip
      rw [← String.toList_inj, toList_stripLeading] at strip
      split at strip
      · rename_i rest hs
        simp [hs, show rest = [] from strip] at slash
      · exact empty (String.toList_inj.1 strip)
    have opened : path.inside = stripLeading path.raw ++ "/" := by
      unfold inside
      cases hl : path.raw.toList.getLast? with
      | none => exact absurd (String.toList_inj.1 (List.getLast?_eq_none_iff.1 hl)) empty
      | some last =>
        have other : last ≠ '/' := fun e => slash (by rw [hl, e])
        simp [getLast?_stripLeading strip, hl, other]
    rw [stripTrailing, if_neg slash, String.append_assoc, stripLeading_append empty, opened,
      String.append_assoc]

theorem append_ne_empty (s : String) {name : String} (h : IsName name.toList) : s ++ name ≠ "" := by
  intro e
  have := congrArg String.toList e
  rw [String.toList_append, String.toList_empty, List.append_eq_nil_iff] at this
  exact h.ne this.2

/-- The key of an entry. -/
theorem toKey_entry (path : VifsPath) {name : String} (h : IsName name.toList) :
    (join path.raw name).toKey = "vifs/" ++ (path.inside ++ name) := by
  have strip := path.stripLeading_join h
  rw [toKey_of_ne (by rw [strip]; exact append_ne_empty _ h), strip]

/-- The text in front of the keys in a directory that is an entry. -/
theorem inside_join (path : VifsPath) {name : String} (h : IsName name.toList) :
    (join path.raw name).inside = path.inside ++ name ++ "/" := by
  rw [inside, stripLeading_join path h, String.toList_append, List.getLast?_append]
  cases hl : name.toList.getLast? with
  | none => exact absurd (List.getLast?_eq_none_iff.1 hl) h.ne
  | some last =>
    have other : last ≠ '/' := fun e => h.free (e ▸ List.mem_of_getLast? hl)
    simp [other]

end VifsPath

namespace VirtualIntelligenceFilesystem

/-! ## Listings -/

section Listing

variable {fs : VirtualIntelligenceFilesystem} {path : VifsPath}

/-- The key of an entry is there. -/
def HasFile (fs : VirtualIntelligenceFilesystem) (key : String) : Prop :=
  fs.storage.existsAt key = true

/-- Some key below an entry is there. -/
def HasBelow (fs : VirtualIntelligenceFilesystem) (key : String) : Prop :=
  ∃ rest, fs.storage.existsAt (key ++ "/" ++ rest) = true

/-- A name is seen as a file when its own key is there. -/
theorem sees_file_iff {name : String} :
    (∃ key ∈ fs.storage.list (dirPrefix path), Sees (dirPrefix path) key name false) ↔
      IsName name.toList ∧ fs.HasFile (dirPrefix path ++ name) := by
  constructor
  · rintro ⟨key, hkey, suffix, below, child⟩
    obtain ⟨hname, ⟨-, rfl⟩ | ⟨absurd', -⟩⟩ := childOf_some child
    · have same : key = dirPrefix path ++ name := by
        rw [← String.toList_inj, below, String.toList_append]
      exact ⟨hname, same ▸ (InMemoryStorage.mem_list.1 hkey).1⟩
    · cases absurd'
  · rintro ⟨hname, live⟩
    refine ⟨_, InMemoryStorage.mem_list.2 ⟨live, ?_⟩, name.toList, String.toList_append,
      childOf_file hname⟩
    exact ⟨name.toList, String.toList_append.symm⟩

/-- A name is seen as a directory when some key below it is there. -/
theorem sees_dir_iff {name : String} :
    (∃ key ∈ fs.storage.list (dirPrefix path), Sees (dirPrefix path) key name true) ↔
      IsName name.toList ∧ fs.HasBelow (dirPrefix path ++ name) := by
  constructor
  · rintro ⟨key, hkey, suffix, below, child⟩
    obtain ⟨hname, ⟨absurd', -⟩ | ⟨-, rest, rfl⟩⟩ := childOf_some child
    · cases absurd'
    · have same : key = dirPrefix path ++ name ++ "/" ++ String.ofList rest := by
        rw [← String.toList_inj, below]
        simp
      exact ⟨hname, String.ofList rest, same ▸ (InMemoryStorage.mem_list.1 hkey).1⟩
  · rintro ⟨hname, rest, live⟩
    refine ⟨_, InMemoryStorage.mem_list.2 ⟨live, ?_⟩, name.toList ++ '/' :: rest.toList, by simp,
      childOf_dir hname _⟩
    exact ⟨name.toList ++ '/' :: rest.toList, by simp⟩

/-- What a listing has. -/
theorem mem_list_iff {entries : List VifsEntry} (h : fs.list path = .ok entries) (e : VifsEntry) :
    e ∈ entries ↔ IsName e.name.toList ∧
      (fs.HasFile (dirPrefix path ++ e.name) ∨ fs.HasBelow (dirPrefix path ++ e.name)) ∧
      (e.kind = .directory ↔ fs.HasBelow (dirPrefix path ++ e.name)) := by
  cases h
  obtain ⟨name, kind⟩ := e
  obtain ⟨known, dir⟩ := lookup_foldl_seeKey (fs.storage.list (dirPrefix path))
    (fun key hkey => (InMemoryStorage.mem_list.1 hkey).2) ∅ name
  have seen_iff : (∃ key ∈ fs.storage.list (dirPrefix path), ∃ isDir,
      Sees (dirPrefix path) key name isDir) ↔ IsName name.toList ∧
        (fs.HasFile (dirPrefix path ++ name) ∨ fs.HasBelow (dirPrefix path ++ name)) := by
    rw [and_or_left, ← sees_file_iff, ← sees_dir_iff]
    constructor
    · rintro ⟨key, hkey, _ | _, sees⟩
      · exact .inl ⟨key, hkey, sees⟩
      · exact .inr ⟨key, hkey, sees⟩
    · rintro (⟨key, hkey, sees⟩ | ⟨key, hkey, sees⟩) <;> exact ⟨key, hkey, _, sees⟩
  rw [seen_iff] at known
  rw [sees_dir_iff] at dir
  simp only [Finmap.lookup_empty, Option.isSome_none, Bool.false_eq_true, reduceCtorEq,
    false_or] at known dir
  rw [List.mem_map]
  constructor
  · rintro ⟨name', hmem, same⟩
    obtain ⟨rfl, rfl⟩ := VifsEntry.mk.inj same
    rw [mem_sortTexts, Finmap.mem_keys, ← Finmap.lookup_isSome, known] at hmem
    refine ⟨hmem.1, hmem.2, ?_⟩
    dsimp only
    split_ifs with hdir
    · exact iff_of_true rfl (dir.1 hdir).2
    · exact iff_of_false (by simp) fun below => hdir (dir.2 ⟨hmem.1, below⟩)
  · rintro ⟨hname, live, hkind⟩
    refine ⟨name, ?_, ?_⟩
    · rw [mem_sortTexts, Finmap.mem_keys, ← Finmap.lookup_isSome, known]
      exact ⟨hname, live⟩
    · dsimp only at hkind ⊢
      split_ifs with hdir
      · rw [hkind.2 (dir.1 hdir).2]
      · cases kind with
        | file => rfl
        | directory => exact absurd (dir.2 ⟨hname, hkind.1 rfl⟩) hdir

end Listing

/-! ## The walk -/

/-- What a walk from the root comes to, entering every directory. -/
inductive Walk (fs : VirtualIntelligenceFilesystem) : VifsPath → EntryKind → Prop
  | root : Walk fs .root .directory
  | entry {dir : VifsPath} {entries : List VifsEntry} {e : VifsEntry} :
    Walk fs dir .directory → fs.list dir = .ok entries → e ∈ entries →
      Walk fs (.join dir.raw e.name) e.kind

/-- Every file is found by the walk, listings are in order, and a directory is what has a file below. -/
structure Listable (fs : VirtualIntelligenceFilesystem) : Prop where
  reached : ∀ path data, fs.read path = .ok data → ∃ p kind, fs.Walk p kind ∧ p.toKey = path.toKey
  increasing : ∀ path entries, fs.list path = .ok entries →
    entries.Pairwise fun a b => a.name < b.name
  directories : ∀ path entries, fs.list path = .ok entries → ∀ e ∈ entries,
    e.kind = .directory ↔ ∃ p data, fs.read p = .ok data ∧ p.Below (.join path.raw e.name)

/-- Only keys below `vifs/` are used. -/
def Rooted (fs : VirtualIntelligenceFilesystem) : Prop :=
  ∀ key, fs.HasFile key → ∃ s, s ≠ "" ∧ key = "vifs/" ++ s

section Walk

variable {fs : VirtualIntelligenceFilesystem} {path : VifsPath} {data : List UInt8}

theorem hasFile_toKey : fs.HasFile path.toKey ↔ ∃ data, fs.read path = .ok data := existsAt_iff

theorem list_increasing {entries : List VifsEntry} (h : fs.list path = .ok entries) :
    entries.Pairwise fun a b => a.name < b.name := by
  cases h
  rw [List.pairwise_map]
  exact sortTexts_increasing _

theorem hasBelow_iff (rooted : fs.Rooted) {name : String} (h : IsName name.toList) :
    fs.HasBelow (dirPrefix path ++ name) ↔
      ∃ p data, fs.read p = .ok data ∧ p.Below (.join path.raw name) := by
  have key : (VifsPath.join path.raw name).toKey = dirPrefix path ++ name := by
    rw [path.toKey_entry h, path.dirPrefix_eq, String.append_assoc]
  unfold VifsPath.Below
  rw [key]
  constructor
  · rintro ⟨rest, live⟩
    obtain ⟨s, ne, hs⟩ := rooted _ live
    have hkey := VifsPath.toKey_slash ne
    obtain ⟨data, read⟩ := hasFile_toKey.1 (show fs.HasFile (VifsPath.toKey ⟨"/" ++ s⟩) by
      rw [hkey, ← hs]
      exact live)
    exact ⟨_, data, read, rest, hkey.trans hs.symm⟩
  · rintro ⟨p, data, read, rest, below⟩
    exact ⟨rest, below ▸ hasFile_toKey.2 ⟨data, read⟩⟩

/-- What the walk comes to is the root, or has a plain key; what it enters keeps plain keys plain. -/
theorem Walk.plain {p : VifsPath} {kind : EntryKind} (h : fs.Walk p kind) :
    (p = .root ∨ p.Plain ∧ p.toKey ≠ "vifs") ∧
      ∀ s, PlainText s → PlainText (p.inside.toList ++ s) := by
  induction h with
  | root => exact ⟨.inl rfl, fun s hs => by simpa [VifsPath.inside, VifsPath.root, stripLeading]⟩
  | @entry dir entries e walk listed member ih =>
    have hname := ((mem_list_iff listed e).1 member).1
    refine ⟨.inr ⟨?_, ?_⟩, fun s hs => ?_⟩
    · unfold VifsPath.Plain
      rw [dir.stripLeading_join hname, String.toList_append]
      exact ih.2 _ hname.plain
    · rw [Ne, VifsPath.toKey_eq_vifs_iff, dir.stripLeading_join hname]
      exact VifsPath.append_ne_empty _ hname
    · rw [dir.inside_join hname]
      simpa using ih.2 _ (hname.plain_append hs)

/-- From a directory that the walk enters it comes to every plain key below. -/
theorem Walk.reaches {dir : VifsPath} (walk : fs.Walk dir .directory) {s : List Char}
    (plain : PlainText s) (live : fs.HasFile (dirPrefix dir ++ String.ofList s)) :
    ∃ p kind, fs.Walk p kind ∧ p.toKey = dirPrefix dir ++ String.ofList s := by
  induction hlen : s.length using Nat.strongRecOn generalizing s dir with
  | ind len ih =>
    subst hlen
    obtain ⟨entries, listed⟩ : ∃ entries, fs.list dir = .ok entries := ⟨_, rfl⟩
    rcases plain.cases with name | ⟨n, rest, name, plain', rfl⟩
    · have hname : IsName (String.ofList s).toList := by rwa [String.toList_ofList]
      obtain ⟨kind, hkind⟩ : ∃ kind : EntryKind, kind = .directory ↔
          fs.HasBelow (dirPrefix dir ++ String.ofList s) := by
        by_cases below : fs.HasBelow (dirPrefix dir ++ String.ofList s)
        · exact ⟨.directory, iff_of_true rfl below⟩
        · exact ⟨.file, iff_of_false (by simp) below⟩
      have member := (mem_list_iff listed ⟨String.ofList s, kind⟩).2 ⟨hname, .inl live, hkind⟩
      refine ⟨_, _, walk.entry listed member, ?_⟩
      rw [dir.toKey_entry hname, dir.dirPrefix_eq, String.append_assoc]
    · have hname : IsName (String.ofList n).toList := by rwa [String.toList_ofList]
      have whole : dirPrefix dir ++ String.ofList (n ++ '/' :: rest) =
          dirPrefix dir ++ String.ofList n ++ "/" ++ String.ofList rest := by
        rw [← String.toList_inj]
        simp
      have below : fs.HasBelow (dirPrefix dir ++ String.ofList n) := ⟨_, whole ▸ live⟩
      have member := (mem_list_iff listed ⟨String.ofList n, .directory⟩).2
        ⟨hname, .inr below, iff_of_true rfl below⟩
      have opened : dirPrefix (.join dir.raw (String.ofList n)) =
          dirPrefix dir ++ String.ofList n ++ "/" := by
        rw [VifsPath.dirPrefix_eq, dir.inside_join hname, dir.dirPrefix_eq]
        simp only [String.append_assoc]
      rw [whole, ← opened] at live ⊢
      exact ih rest.length (by simp only [List.length_append, List.length_cons]; omega)
        (walk.entry listed member) plain' live rfl

/-- A filesystem is listable exactly when all its files have plain paths. -/
theorem listable_iff (rooted : fs.Rooted) :
    fs.Listable ↔ ∀ path data, fs.read path = .ok data → path.Plain := by
  constructor
  · intro listable path data read
    obtain ⟨p, kind, walk, same⟩ := listable.reached path data read
    obtain ⟨s, ne, hs⟩ := rooted _ (hasFile_toKey.2 ⟨data, read⟩)
    rcases walk.plain.1 with rfl | ⟨plain, -⟩
    · rw [← same, ← String.toList_inj, String.toList_append] at hs
      exact absurd hs (by simp [VifsPath.root, VifsPath.toKey, stripLeading])
    · unfold VifsPath.Plain at plain ⊢
      rwa [← VifsPath.stripLeading_eq_of_toKey same]
  · intro plain
    refine ⟨fun path data read => ?_, fun path entries => list_increasing,
      fun path entries listed e member => ?_⟩
    · have live := hasFile_toKey.2 ⟨data, read⟩
      obtain ⟨s, ne, hs⟩ := rooted _ live
      have strip : stripLeading path.raw ≠ "" := by
        intro strip
        rw [VifsPath.toKey_eq_vifs_iff.2 strip, ← String.toList_inj, String.toList_append] at hs
        simp at hs
      have hkey : path.toKey = dirPrefix .root ++ String.ofList (stripLeading path.raw).toList := by
        rw [VifsPath.toKey_of_ne strip, String.ofList_toList]
        rfl
      rw [hkey] at live ⊢
      exact Walk.root.reaches (plain path data read) live
    · obtain ⟨hname, -, hkind⟩ := (mem_list_iff listed e).1 member
      rw [hkind, hasBelow_iff rooted hname]

end Walk

/-! ## Runs -/

/-- A call that writes. -/
inductive Call where
  | write (path : VifsPath) (data : List UInt8) (now : ℤ)
  | delete (path : VifsPath)

/-- The effect of a call. -/
def perform (fs : VirtualIntelligenceFilesystem) : Call → VirtualIntelligenceFilesystem
  | .write path data now => (fs.write path data now).2
  | .delete path => (fs.delete path).2

/-- The call writes no file under a path with an empty component. -/
def Call.Plain : Call → Prop
  | .write path _ _ => path.toKey ≠ "vifs" → path.Plain
  | .delete _ => True

section Run

variable {fs : VirtualIntelligenceFilesystem}

/-- The files after a call are old ones, but for the one it writes. -/
theorem hasFile_perform {call : Call} {key : String} (h : (fs.perform call).HasFile key) :
    fs.HasFile key ∨ ∃ path data now, call = .write path data now ∧ path.toKey ≠ "vifs" ∧
      key = path.toKey := by
  cases call with
  | write path data now =>
    simp only [perform, write] at h
    split_ifs at h with root
    · exact .inl h
    · by_cases same : key = path.toKey
      · exact .inr ⟨path, data, now, rfl, root, same⟩
      · left
        simpa only [HasFile, InMemoryStorage.existsAt, InMemoryStorage.store,
          Finmap.lookup_insert_of_ne _ same] using h
  | delete path =>
    left
    rw [perform, delete_snd] at h
    by_cases same : key = path.toKey
    · subst same
      simp [HasFile, InMemoryStorage.existsAt] at h
    · simpa only [HasFile, InMemoryStorage.existsAt, Finmap.lookup_erase_ne same] using h

theorem Rooted.perform (rooted : fs.Rooted) (call : Call) : (fs.perform call).Rooted := by
  intro key live
  rcases hasFile_perform live with old | ⟨path, data, now, -, proper, rfl⟩
  · exact rooted key old
  · have strip := fun e => proper (VifsPath.toKey_eq_vifs_iff.2 e)
    exact ⟨_, strip, VifsPath.toKey_of_ne strip⟩

/-- Plain calls leave plain files. -/
theorem plain_perform (plain : ∀ path data, fs.read path = .ok data → path.Plain) {call : Call}
    (h : call.Plain) : ∀ path data, (fs.perform call).read path = .ok data → path.Plain := by
  intro path data read
  rcases hasFile_perform (hasFile_toKey.2 ⟨data, read⟩) with old | ⟨p, d, now, rfl, proper, same⟩
  · obtain ⟨data', read'⟩ := hasFile_toKey.1 old
    exact plain path data' read'
  · unfold VifsPath.Plain
    rw [VifsPath.stripLeading_eq_of_toKey same]
    exact h proper

theorem rooted_run (calls : List Call) : (calls.foldl perform new).Rooted := by
  induction calls using List.reverseRecOn with
  | nil =>
    intro key live
    exact absurd live (by simp [HasFile, InMemoryStorage.existsAt, new, InMemoryStorage.new])
  | append_singleton calls call ih =>
    rw [List.foldl_concat]
    exact ih.perform call

/-- A run that writes plain paths only leaves a listable filesystem behind. -/
theorem listable_run {calls : List Call} (plain : ∀ call ∈ calls, call.Plain) :
    (calls.foldl perform new).Listable := by
  rw [listable_iff (rooted_run calls)]
  induction calls using List.reverseRecOn with
  | nil =>
    intro path data read
    have live := hasFile_toKey.2 ⟨data, read⟩
    exact absurd live (by simp [HasFile, InMemoryStorage.existsAt, new, InMemoryStorage.new])
  | append_singleton calls call ih =>
    rw [List.foldl_concat]
    exact plain_perform (ih fun c hc => plain c (List.mem_append_left _ hc))
      (plain call (List.mem_append_right _ List.mem_cons_self))

/-- Every state of a run is listable exactly when the run writes plain paths only. -/
theorem listable_runs_iff (calls : List Call) :
    (∀ done, done <+: calls → (done.foldl perform new).Listable) ↔ ∀ call ∈ calls, call.Plain := by
  constructor
  · intro listable call hcall
    cases call with
    | delete path => trivial
    | write path data now =>
      intro proper
      obtain ⟨before, after, rfl⟩ := List.append_of_mem hcall
      have state := listable (before ++ [.write path data now]) ⟨after, by simp⟩
      rw [listable_iff (rooted_run _)] at state
      apply state path data
      rw [List.foldl_concat, perform, write_ok proper, read_eq_ok_iff]
      exact ⟨_, Finmap.lookup_insert _, rfl⟩
  · rintro plain done ⟨rest, rfl⟩
    exact listable_run fun call hcall => plain call (List.mem_append_left _ hcall)

/-- A file is written under the name of a directory with its slash, and read back; no listing has it. -/
theorem trailing_slash_lost :
    ([Call.write ⟨"/entities/"⟩ [120] 0].foldl perform new).read ⟨"/entities/"⟩ = .ok [120] ∧
      ¬([Call.write ⟨"/entities/"⟩ [120] 0].foldl perform new).Listable := by
  have read : ([Call.write ⟨"/entities/"⟩ [120] 0].foldl perform new).read ⟨"/entities/"⟩ =
      .ok [120] := by rfl
  refine ⟨read, fun listable => ?_⟩
  have plain := (listable_iff (rooted_run _)).1 listable _ _ read
  exact plain [] (by decide) rfl

end Run

end VirtualIntelligenceFilesystem

end TORdex
