import TORdex.Kernel.FileStorage

/-!
# The storages in memory and in files

The storage in files mirrors the one in memory when its files are the live keys with their values.  A call
keeps the mirror and gives the same answer as long as the path of its key stands for no other live key, for
no directory and not for something below a file, and a list asks for what is in neither.
-/

namespace TORdex

open StorageManagerWrapper

/-- The files are the live keys, each at its own path. -/
structure Mirrors (m : InMemoryStorage) (f : FileBasedStorage) : Prop where
  live : ∀ key e, m.lookup key = some e → e.key = key ∧ hasNul key = false ∧ endsInSlash key = false ∧
    f.tree.node (components key) = some (.file e.value)
  files : ∀ path value, f.tree.node path = some (.file value) →
    ∃ key, m.existsAt key = true ∧ components key = path
  own : ∀ key other, m.existsAt key = true → m.existsAt other = true →
    components key = components other → key = other

/-- No other live key has the path of the key. -/
def Unaliased (m : InMemoryStorage) (key : String) : Prop :=
  ∀ other, m.existsAt other = true → components other = components key →
    endsInSlash key = true ∨ other = key

/-- The calls that both storages answer alike. -/
def Meets (m : InMemoryStorage) (f : FileBasedStorage) : Operation → Prop
  | .store key _ _ _ => hasNul key.text = false ∧ endsInSlash key.text = false ∧
    (∀ other, m.existsAt other = true → components other <+: components key.text → other = key.text) ∧
    f.tree.node (components key.text) ≠ some .dir
  | .load key _ | .delete key => Unaliased m key.text
  | .existsAt key => Unaliased m key.text ∧ f.stat key.text ≠ some .dir
  | .list start => f.dir ≠ "" ∧ start.text.toList.head? ≠ some '/' ∧
    (∀ key, m.existsAt key = true → ¬ start.text.toList <+: key.toList) ∧
    f.tree.children (components start.text) = ∅

/-- Every call of the run is one of these in the state before it. -/
def MeetsAll (outside : String → Finset String) (m : InMemoryStorage) (f : FileBasedStorage) :
    List Operation → Prop
  | [] => True
  | op :: ops => Meets m f op ∧ MeetsAll outside (m.call op).2 (f.call outside op).2 ops

theorem mirrors_new (dir : String) : Mirrors .new (.newFileBased dir) where
  live key e h := by simp [InMemoryStorage.new] at h
  files path value h := by
    simp only [FileBasedStorage.newFileBased, FileTree.node_empty] at h
    split_ifs at h
    cases h
  own key other h := by simp [InMemoryStorage.new, InMemoryStorage.existsAt] at h

/-- Without a piece there is nothing but separators. -/
theorem eq_of_splitOn_nil {l : List Char} {a : Char} (h : ∀ piece ∈ l.splitOn a, piece = []) :
    ∀ c ∈ l, c = a := by
  induction l with
  | nil => exact fun c hc => absurd hc List.not_mem_nil
  | cons x xs ih =>
    rw [List.splitOn_cons_eq_if_modifyHead] at h
    obtain ⟨first, rest, hs⟩ := List.exists_cons_of_ne_nil (List.splitOn_ne_nil a xs)
    rw [hs] at ih h
    split_ifs at h with same
    · intro c hc
      rcases List.mem_cons.1 hc with rfl | hc
      · exact eq_of_beq same
      · exact ih (fun piece hp => h piece (List.mem_cons_of_mem _ hp)) c hc
    · exact absurd (h _ List.mem_cons_self) (List.cons_ne_nil _ _)

theorem mem_of_splitOn {l piece : List Char} {a c : Char} (hp : piece ∈ l.splitOn a) (hc : c ∈ piece) :
    c ∈ l := by
  induction l generalizing piece with
  | nil =>
    rw [List.splitOn_nil, List.mem_singleton] at hp
    exact hp ▸ hc
  | cons x xs ih =>
    rw [List.splitOn_cons_eq_if_modifyHead] at hp
    obtain ⟨first, rest, hs⟩ := List.exists_cons_of_ne_nil (List.splitOn_ne_nil a xs)
    rw [hs] at ih hp
    split_ifs at hp with same
    · rcases List.mem_cons.1 hp with rfl | hp
      · exact absurd hc List.not_mem_nil
      · exact List.mem_cons_of_mem _ (ih hp hc)
    · rcases List.mem_cons.1 hp with rfl | hp
      · rcases List.mem_cons.1 hc with rfl | hc
        · exact List.mem_cons_self
        · exact List.mem_cons_of_mem _ (ih List.mem_cons_self hc)
      · exact List.mem_cons_of_mem _ (ih (List.mem_cons_of_mem _ hp) hc)

/-- A key without trailing slash has a last component. -/
theorem components_ne_nil {key : String} (hne : key ≠ "") (h : endsInSlash key = false) :
    components key ≠ [] := by
  intro none
  have pieces : ∀ piece ∈ key.toList.splitOn '/', piece = [] := fun piece hp => by
    by_contra named
    have kept : piece ∈ components key := List.mem_filter.2 ⟨hp, by simpa using named⟩
    rw [none] at kept
    exact List.not_mem_nil kept
  have slashes := eq_of_splitOn_nil pieces
  rcases List.eq_nil_or_concat key.toList with empty | ⟨init, last, eq⟩
  · exact hne (String.toList_eq_nil_iff.1 empty)
  · have slash : last = '/' := slashes last (by simp [eq])
    simp [endsInSlash, eq, slash] at h

section Mirrors

variable {m : InMemoryStorage} {f : FileBasedStorage} {key : String}

theorem existsAt_iff : m.existsAt key = true ↔ ∃ e, m.lookup key = some e := Option.isSome_iff_exists

theorem existsAt_store {value : List UInt8} {contentType : Option String} {now : ℤ} {other : String} :
    (m.store key value contentType now).existsAt other = true ↔ other = key ∨ m.existsAt other = true := by
  unfold InMemoryStorage.existsAt InMemoryStorage.store
  rcases eq_or_ne other key with rfl | hne
  · simp [Finmap.lookup_insert]
  · rw [Finmap.lookup_insert_of_ne _ hne]
    simp [hne]

theorem lookup_erase_some {other : String} {e : Entry} (h : Finmap.lookup other (m.erase key) = some e) :
    other ≠ key ∧ m.lookup other = some e := by
  rcases eq_or_ne other key with rfl | hne
  · rw [Finmap.lookup_erase] at h
    cases h
  · exact ⟨hne, by rwa [Finmap.lookup_erase_ne hne] at h⟩

theorem Mirrors.stat_live (h : Mirrors m f) {e : Entry} (he : m.lookup key = some e) :
    f.stat key = some (.file e.value) := by
  obtain ⟨-, nul, slash, node⟩ := h.live key e he
  exact FileBasedStorage.stat_eq_file.2 ⟨nul, slash, node⟩

/-- Only a live key leads to a file. -/
theorem Mirrors.stat_dead (h : Mirrors m f) (alone : Unaliased m key) (dead : m.lookup key = none)
    (value : List UInt8) : f.stat key ≠ some (.file value) := by
  intro hs
  obtain ⟨-, slash, node⟩ := FileBasedStorage.stat_eq_file.1 hs
  obtain ⟨other, live, path⟩ := h.files _ _ node
  rcases alone other live path with trailing | rfl
  · rw [slash] at trailing
    cases trailing
  · rw [InMemoryStorage.existsAt, dead] at live
    cases live

theorem Mirrors.load (h : Mirrors m f) (alone : Unaliased m key) (now : ℤ) :
    (f.load key now).map Entry.content = (m.load key).map Entry.content := by
  unfold FileBasedStorage.load InMemoryStorage.load
  cases hm : m.lookup key with
  | some e =>
    rw [h.stat_live hm]
    simp [Entry.content, (h.live key e hm).1]
  | none =>
    have dead := h.stat_dead alone hm
    split
    next value hs => exact absurd hs (dead value)
    next => rfl

theorem Mirrors.existsAt (h : Mirrors m f) (alone : Unaliased m key) (noDir : f.stat key ≠ some .dir) :
    f.existsAt key = m.existsAt key := by
  unfold FileBasedStorage.existsAt InMemoryStorage.existsAt
  cases hm : m.lookup key with
  | some e => rw [h.stat_live hm]; rfl
  | none =>
    have dead := h.stat_dead alone hm
    cases hs : f.stat key with
    | none => rfl
    | some found =>
      cases found with
      | file value => exact absurd hs (dead value)
      | dir => exact absurd hs noDir

theorem list_empty {outside : String → Finset String} {start : String}
    (named : f.dir ≠ "") (relative : start.toList.head? ≠ some '/')
    (unused : ∀ key, m.existsAt key = true → ¬ start.toList <+: key.toList)
    (empty : f.tree.children (components start) = ∅) :
    f.list outside start = (m.list start).toFinset := by
  have memory : (m.list start).toFinset = ∅ := by
    refine Finset.eq_empty_of_forall_notMem fun key hk => ?_
    rw [List.mem_toFinset, InMemoryStorage.mem_list] at hk
    exact unused key hk.1 hk.2
  unfold FileBasedStorage.list
  rw [memory, if_neg (not_or.2 ⟨named, relative⟩)]
  split_ifs
  · rfl
  · split
    · rw [empty, Finset.image_empty]
    · rfl

/-- A store writes one file, when it meets no file above its path and no directory there. -/
theorem node_store (value : List UInt8) (hne : key ≠ "") (nul : hasNul key = false)
    (slash : endsInSlash key = false)
    (above : ∀ q content, q <+: (components key).dropLast → f.tree.node q ≠ some (.file content))
    (free : f.tree.node (components key) ≠ some .dir) (p : List FileName) (content : List UInt8) :
    (f.store key value).tree.node p = some (.file content) ↔
      if p = components key then value = content else f.tree.node p = some (.file content) := by
  have named := components_ne_nil hne slash
  have clean : ((components key).dropLast.any fun name => name.contains '\x00') = false := by
    refine List.any_eq_false.2 fun name hm zero => ?_
    have piece := (List.mem_filter.1 (List.mem_of_mem_dropLast hm)).1
    rw [hasNul, List.contains_eq_mem, decide_eq_false_iff_not] at nul
    exact nul (mem_of_splitOn piece (by simpa using zero))
  have parent := FileTree.node_mkdirAll above
  have beyond : ¬ components key <+: (components key).dropLast := fun h => by
    have short := h.length_le
    have positive := List.length_pos_of_ne_nil named
    rw [List.length_dropLast] at short
    omega
  have still := FileTree.node_mkdirAll_of_not_prefix (t := f.tree) beyond
  have free' : (f.tree.mkdirAll (components key).dropLast).node (components key) ≠ some .dir := by
    rwa [still]
  simp only [FileBasedStorage.store, clean, nul, slash, Bool.or_self, Bool.false_eq_true, if_false,
    FileTree.writeFile_eq named parent free', Option.getD_some, FileTree.node_put]
  split_ifs with here
  · simp
  · exact FileTree.mkdirAll_file

theorem Mirrors.store (h : Mirrors m f) (value : List UInt8) (contentType : Option String) (now : ℤ)
    (hne : key ≠ "") (nul : hasNul key = false) (slash : endsInSlash key = false)
    (apart : ∀ other, m.existsAt other = true → components other <+: components key → other = key)
    (free : f.tree.node (components key) ≠ some .dir) :
    Mirrors (m.store key value contentType now) (f.store key value) := by
  have named := components_ne_nil hne slash
  have above : ∀ q content, q <+: (components key).dropLast → f.tree.node q ≠ some (.file content) := by
    intro q content hq hn
    obtain ⟨other, live, rfl⟩ := h.files q content hn
    obtain rfl := apart other live (hq.trans (List.dropLast_prefix _))
    have short := hq.length_le
    have positive := List.length_pos_of_ne_nil named
    rw [List.length_dropLast] at short
    omega
  have node := fun {p content} => node_store value hne nul slash above free p content
  have other_path : ∀ other, m.existsAt other = true → other ≠ key → components other ≠ components key :=
    fun other live other_ne same => other_ne (apart other live (same ▸ List.prefix_rfl))
  refine ⟨fun other e he => ?_, fun path content hp => ?_, fun a b ha hb same => ?_⟩
  · rcases eq_or_ne other key with rfl | other_ne
    · rw [InMemoryStorage.store, Finmap.lookup_insert] at he
      obtain rfl := Option.some_inj.1 he
      exact ⟨rfl, nul, slash, node.2 (by rw [if_pos rfl])⟩
    · rw [InMemoryStorage.store, Finmap.lookup_insert_of_ne _ other_ne] at he
      obtain ⟨key_eq, nul', slash', found⟩ := h.live other e he
      have path_ne := other_path other (existsAt_iff.2 ⟨e, he⟩) other_ne
      exact ⟨key_eq, nul', slash', node.2 (by rwa [if_neg path_ne])⟩
  · have written := node.1 hp
    split_ifs at written with here
    · exact ⟨key, existsAt_store.2 (.inl rfl), here.symm⟩
    · obtain ⟨other, live, path_eq⟩ := h.files path content written
      exact ⟨other, existsAt_store.2 (.inr live), path_eq⟩
  · rcases existsAt_store.1 ha with rfl | live_a
    · rcases existsAt_store.1 hb with rfl | live_b
      · rfl
      · exact (apart b live_b (same ▸ List.prefix_rfl)).symm
    · rcases existsAt_store.1 hb with rfl | live_b
      · exact apart a live_a (same ▸ List.prefix_rfl)
      · exact h.own a b live_a live_b same

theorem Mirrors.delete (h : Mirrors m f) (alone : Unaliased m key) :
    (f.delete key).1 = (m.delete key).1 ∧ Mirrors (m.delete key).2 (f.delete key).2 := by
  cases hm : m.lookup key with
  | some e =>
    obtain ⟨-, nul, slash, node⟩ := h.live key e hm
    obtain ⟨tree, removed⟩ := Option.isSome_iff_exists.1 (FileTree.removeFile_isSome.2 ⟨_, node⟩)
    have after := (FileTree.removeFile_eq_some removed).2
    have files : f.delete key = (true, { f with tree }) := by
      simp [FileBasedStorage.delete, nul, slash, removed]
    have memory : m.delete key = (true, m.erase key) := by simp [InMemoryStorage.delete, hm]
    rw [files, memory]
    refine ⟨rfl, fun other e' he => ?_, fun path content hp => ?_, fun a b ha hb => ?_⟩
    · obtain ⟨other_ne, he⟩ := lookup_erase_some he
      obtain ⟨key_eq, nul', slash', found⟩ := h.live other e' he
      have path_ne : components other ≠ components key := fun same =>
        other_ne (h.own other key (existsAt_iff.2 ⟨e', he⟩) (existsAt_iff.2 ⟨e, hm⟩) same)
      exact ⟨key_eq, nul', slash', by rw [after, if_neg path_ne, found]⟩
    · rw [after] at hp
      split_ifs at hp with here
      obtain ⟨other, live, rfl⟩ := h.files path content hp
      have other_ne : other ≠ key := fun same => here (by rw [same])
      refine ⟨other, ?_, rfl⟩
      rw [InMemoryStorage.existsAt, Finmap.lookup_erase_ne other_ne]
      exact live
    · obtain ⟨ea, ha⟩ := existsAt_iff.1 ha
      obtain ⟨eb, hb⟩ := existsAt_iff.1 hb
      exact h.own a b (existsAt_iff.2 ⟨ea, (lookup_erase_some ha).2⟩)
        (existsAt_iff.2 ⟨eb, (lookup_erase_some hb).2⟩)
  | none =>
    have kept : m.erase key = m := by
      refine Finmap.ext_lookup fun other => ?_
      rcases eq_or_ne other key with rfl | other_ne
      · rw [Finmap.lookup_erase, hm]
      · rw [Finmap.lookup_erase_ne other_ne]
    have memory : m.delete key = (false, m) := by simp [InMemoryStorage.delete, hm, kept]
    have files : f.delete key = (false, f) := by
      unfold FileBasedStorage.delete
      split_ifs with refused
      · rfl
      · rw [Bool.or_eq_true, not_or, Bool.not_eq_true, Bool.not_eq_true] at refused
        have nothing : f.tree.removeFile (components key) = none := by
          rw [← Option.not_isSome_iff_eq_none, FileTree.removeFile_isSome]
          rintro ⟨value, node⟩
          exact h.stat_dead alone hm value
            (FileBasedStorage.stat_eq_file.2 ⟨refused.1, refused.2, node⟩)
        rw [nothing]
    rw [files, memory]
    exact ⟨rfl, h⟩

/-- One call. -/
theorem Mirrors.call (outside : String → Finset String) (h : Mirrors m f) {op : Operation}
    (ok : Meets m f op) :
    (f.call outside op).1 = (m.call op).1 ∧ Mirrors (m.call op).2 (f.call outside op).2 := by
  cases op with
  | store key value contentType now =>
    obtain ⟨nul, slash, apart, free⟩ := ok
    exact ⟨rfl, h.store value contentType now key.nonempty nul slash apart free⟩
  | load key now => exact ⟨congrArg Answer.entry (h.load ok now), h⟩
  | delete key =>
    obtain ⟨answer, kept⟩ := h.delete ok
    exact ⟨congrArg Answer.flag answer, kept⟩
  | list start =>
    obtain ⟨named, relative, unused, empty⟩ := ok
    exact ⟨congrArg Answer.keys (list_empty named relative unused empty), h⟩
  | existsAt key => exact ⟨congrArg Answer.flag (h.existsAt ok.1 ok.2), h⟩

/-- A run of calls. -/
theorem Mirrors.calls (outside : String → Finset String) (h : Mirrors m f) {ops : List Operation}
    (ok : MeetsAll outside m f ops) :
    answers (FileBasedStorage.call outside) f ops = answers InMemoryStorage.call m ops ∧
      Mirrors (stateAfter InMemoryStorage.call m ops) (stateAfter (FileBasedStorage.call outside) f ops) := by
  induction ops generalizing m f with
  | nil => exact ⟨rfl, h⟩
  | cons op ops ih =>
    obtain ⟨answer, kept⟩ := h.call outside ok.1
    obtain ⟨rest, mirror⟩ := ih kept ok.2
    exact ⟨congrArg₂ List.cons answer rest, mirror⟩

end Mirrors

/-- A run from empty storages whose calls all meet the condition: the answers are the same, and in the end the
files are the live keys with their values. -/
theorem fileBased_agrees (outside : String → Finset String) (dir : String) (ops : List Operation)
    (ok : MeetsAll outside .new (.newFileBased dir) ops) :
    answers (FileBasedStorage.call outside) (.newFileBased dir) ops =
        answers InMemoryStorage.call .new ops ∧
      Mirrors (stateAfter InMemoryStorage.call .new ops)
        (stateAfter (FileBasedStorage.call outside) (.newFileBased dir) ops) :=
  (mirrors_new dir).calls outside ok

/-- The key `a`. -/
def keyA : StorageKey := ⟨⟨"a", by decide⟩, by decide⟩

/-- The key `a/b`. -/
def keyAB : StorageKey := ⟨⟨"a/b", by decide⟩, by decide⟩

/-- The key `a/c`. -/
def keyAC : StorageKey := ⟨⟨"a/c", by decide⟩, by decide⟩

/-- The key `a/b/`. -/
def keyABSlash : StorageKey := ⟨⟨"a/b/", by decide⟩, by decide⟩

/-- Two keys in one directory are stored and one is deleted; then one value is written over, and something else is
listed. -/
def nestedOps : List Operation :=
  [.store keyAB [1] none 0, .store keyAC [2] none 1, .load keyAB 2, .load keyABSlash 3, .delete keyAB,
    .existsAt keyAB, .existsAt keyAC, .store keyAC [3, 4] none 4, .load keyAC 5, .list ⟨"z", by decide⟩]

/-- The live keys of the run: after the first store, the second, and the deletion. -/
theorem live_nestedOps {other : String} :
    ((InMemoryStorage.new.store "a/b" [1] none 0).existsAt other = true → other ∈ ["a/b"]) ∧
      (((InMemoryStorage.new.store "a/b" [1] none 0).store "a/c" [2] none 1).existsAt other = true →
        other ∈ ["a/c", "a/b"]) ∧
      ((((InMemoryStorage.new.store "a/b" [1] none 0).store "a/c" [2] none 1).delete "a/b").2.existsAt other = true →
        other ∈ ["a/c"]) := by
  have first : (InMemoryStorage.new.store "a/b" [1] none 0).existsAt other = true → other ∈ ["a/b"] := fun live =>
    List.mem_singleton.2
      ((existsAt_store.1 live).resolve_right (by simp [InMemoryStorage.new, InMemoryStorage.existsAt]))
  have second : ((InMemoryStorage.new.store "a/b" [1] none 0).store "a/c" [2] none 1).existsAt other = true →
      other ∈ ["a/c", "a/b"] := fun live =>
    List.mem_cons.2 ((existsAt_store.1 live).imp_right first)
  refine ⟨first, second, fun live => ?_⟩
  obtain ⟨e, found⟩ := existsAt_iff.1 live
  obtain ⟨others, found⟩ := lookup_erase_some found
  exact List.mem_singleton.2 ((List.mem_pair.1 (second (existsAt_iff.2 ⟨e, found⟩))).resolve_right others)

theorem unaliased_of_mem {m : InMemoryStorage} {key : String} {names : List String}
    (live : ∀ other, m.existsAt other = true → other ∈ names)
    (apart : ∀ other ∈ names, components other = components key → endsInSlash key = true ∨ other = key) :
    Unaliased m key :=
  fun other h same => apart other (live other h) same

theorem fileBased_agrees_one :
    answers (FileBasedStorage.call fun _ => ∅) (.newFileBased "data") nestedOps =
        answers InMemoryStorage.call .new nestedOps ∧
      Mirrors (stateAfter InMemoryStorage.call .new nestedOps)
        (stateAfter (FileBasedStorage.call fun _ => ∅) (.newFileBased "data") nestedOps) := by
  have one := fun other => (@live_nestedOps other).1
  have two := fun other => (@live_nestedOps other).2.1
  have gone := fun other => (@live_nestedOps other).2.2
  have again : ∀ other, ((((InMemoryStorage.new.store "a/b" [1] none 0).store "a/c" [2] none 1).delete "a/b").2.store
      "a/c" [3, 4] none 4).existsAt other = true → other ∈ ["a/c"] :=
    fun other live => (existsAt_store.1 live).elim List.mem_singleton.2 (gone other)
  refine fileBased_agrees (fun _ => ∅) "data" nestedOps ⟨⟨by decide, by decide, ?_, by decide⟩,
    ⟨by decide, by decide, ?_, by decide⟩, unaliased_of_mem two (by decide), unaliased_of_mem two (by decide),
    unaliased_of_mem two (by decide), ⟨unaliased_of_mem gone (by decide), by decide⟩,
    ⟨unaliased_of_mem gone (by decide), by decide⟩, ⟨by decide, by decide, ?_, by decide⟩,
    unaliased_of_mem again (by decide), ⟨by decide, by decide, ?_, by decide⟩, trivial⟩
  · intro other live
    simp [InMemoryStorage.new, InMemoryStorage.existsAt] at live
  · intro other live
    obtain rfl := List.mem_singleton.1 (one other live)
    decide
  · intro other live _
    exact List.mem_singleton.1 (gone other live)
  · intro other live
    obtain rfl := List.mem_singleton.1 (again other live)
    decide

/-- A list in files has paths of the file system, and not keys. -/
theorem list_paths :
    answers (FileBasedStorage.call fun _ => ∅) (.newFileBased "data")
        [.store keyA [1] none 0, .list ⟨"", by decide⟩] ≠
      answers InMemoryStorage.call .new [.store keyA [1] none 0, .list ⟨"", by decide⟩] := by
  decide +kernel

end TORdex
