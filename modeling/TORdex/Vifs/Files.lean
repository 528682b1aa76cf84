import TORdex.Core.Storage
import TORdex.Vifs.Filesystem

/-!
# Files over the key storage

The calls of the filesystem on raw bytes.  A rename reads, writes and deletes; it loses the content
exactly when both paths stand for one key.
-/

namespace TORdex

/-- A file or a directory. -/
inductive EntryKind where
  | file
  | directory
  deriving DecidableEq, Repr

/-- An entry of a directory. -/
structure VifsEntry where
  name : String
  kind : EntryKind
  deriving DecidableEq, Repr

/-- The root. -/
def VifsPath.root : VifsPath := ⟨"/"⟩

/-- A filesystem over a storage. -/
structure VirtualIntelligenceFilesystem where
  storage : InMemoryStorage

/-- What one key adds to the names seen so far, each with whether it is a directory. -/
def seeKey (start : String) (seen : HashMap String Bool) (key : String) : HashMap String Bool :=
  let suffix := if start.toList <+: key.toList then key.toList.drop start.length else key.toList
  if suffix = [] then seen
  else
    match suffix.splitOn '/' with
    | [] => seen
    | first :: others =>
      if first = [] then seen
      else
        let name := String.ofList first
        let isDir := !others.isEmpty
        match seen.lookup name with
        | some e => seen.insert name (e || isDir)
        | none => seen.insert name isDir

namespace VirtualIntelligenceFilesystem

/-- Without files. -/
def new : VirtualIntelligenceFilesystem := ⟨.new⟩

/-- The content of a file. -/
def read (fs : VirtualIntelligenceFilesystem) (path : VifsPath) : Except VifsError (List UInt8) :=
  match fs.storage.load path.toKey with
  | some entry => .ok entry.value
  | none => .error (.notFound path.raw)

/-- Write a file, in place of an earlier one. -/
def write (fs : VirtualIntelligenceFilesystem) (path : VifsPath) (data : List UInt8) (now : ℤ) :
    Except VifsError Unit × VirtualIntelligenceFilesystem :=
  if path.toKey = "vifs" then (.error (.invalidPath "cannot write to root"), fs)
  else (.ok (), ⟨fs.storage.store path.toKey data (some "application/json") now⟩)

/-- Delete a file. -/
def delete (fs : VirtualIntelligenceFilesystem) (path : VifsPath) :
    Except VifsError Unit × VirtualIntelligenceFilesystem :=
  match fs.storage.delete path.toKey with
  | (true, storage) => (.ok (), ⟨storage⟩)
  | (false, storage) => (.error (.notFound path.raw), ⟨storage⟩)

/-- The text in front of the keys in a directory. -/
def dirPrefix (path : VifsPath) : String :=
  if path.toKey.toList.getLast? = some '/' then path.toKey else path.toKey ++ "/"

/-- The contents of a directory, by name. -/
def list (fs : VirtualIntelligenceFilesystem) (path : VifsPath) : Except VifsError (List VifsEntry) :=
  let start := dirPrefix path
  let seen := (fs.storage.list start).foldl (seeKey start) ∅
  .ok ((sortTexts seen.keys).map fun name =>
    ⟨name, if seen.lookup name = some true then .directory else .file⟩)

/-- There is a file. -/
def existsAt (fs : VirtualIntelligenceFilesystem) (path : VifsPath) : Bool :=
  fs.storage.existsAt path.toKey

/-- Read a file, write it at its new path and delete it. -/
def rename (fs : VirtualIntelligenceFilesystem) (source target : VifsPath) (now : ℤ) :
    Except VifsError Unit × VirtualIntelligenceFilesystem :=
  match fs.read source with
  | .error e => (.error e, fs)
  | .ok data =>
    match fs.write target data now with
    | (.error e, fs) => (.error e, fs)
    | (.ok (), fs) => fs.delete source

/-! ## Single calls -/

section Calls

variable {fs : VirtualIntelligenceFilesystem} {path : VifsPath} {data : List UInt8} {now : ℤ}

theorem read_eq_ok_iff : fs.read path = .ok data ↔
    ∃ entry, fs.storage.load path.toKey = some entry ∧ entry.value = data := by
  unfold read
  cases fs.storage.load path.toKey <;> simp

theorem existsAt_iff : fs.existsAt path = true ↔ ∃ data, fs.read path = .ok data := by
  simp only [read_eq_ok_iff, existsAt, InMemoryStorage.existsAt, InMemoryStorage.load,
    Option.isSome_iff_exists]
  exact ⟨fun ⟨entry, h⟩ => ⟨_, entry, h, rfl⟩, fun ⟨_, entry, h, _⟩ => ⟨entry, h⟩⟩

theorem write_ok (h : path.toKey ≠ "vifs") : fs.write path data now =
    (.ok (), ⟨fs.storage.store path.toKey data (some "application/json") now⟩) := by
  simp only [write, if_neg h]

theorem delete_snd : (fs.delete path).2 = ⟨fs.storage.erase path.toKey⟩ := by
  unfold delete InMemoryStorage.delete
  cases (fs.storage.lookup path.toKey).isSome <;> rfl

theorem delete_ok (h : fs.existsAt path = true) :
    fs.delete path = (.ok (), ⟨fs.storage.erase path.toKey⟩) := by
  have found : (fs.storage.lookup path.toKey).isSome = true := h
  simp only [delete, InMemoryStorage.delete, found]

end Calls

/-! ## Renaming -/

/-- What a rename promises of an existing path: with an answer the content is at the new path, the old
path is gone unless it stands for the same key, and all other keys are as before; with an error all
keys are. -/
def RenameSound (fs : VirtualIntelligenceFilesystem) (source target : VifsPath) (now : ℤ) : Prop :=
  ∀ data, fs.read source = .ok data →
    match fs.rename source target now with
    | (.ok (), fs') => fs'.read target = .ok data ∧
        (source.toKey ≠ target.toKey → fs'.existsAt source = false) ∧
        ∀ key, key ≠ source.toKey → key ≠ target.toKey →
          fs'.storage.load key = fs.storage.load key
    | (.error _, fs') => ∀ key, fs'.storage.load key = fs.storage.load key

section Rename

variable {fs : VirtualIntelligenceFilesystem} {source target : VifsPath} {data : List UInt8} {now : ℤ}

theorem rename_root (h : fs.read source = .ok data) (root : target.toKey = "vifs") :
    fs.rename source target now = (.error (.invalidPath "cannot write to root"), fs) := by
  simp only [rename, h, write, if_pos root]

theorem rename_ok (h : fs.read source = .ok data) (proper : target.toKey ≠ "vifs") :
    fs.rename source target now = (.ok (), ⟨(fs.storage.store target.toKey data
      (some "application/json") now).erase source.toKey⟩) := by
  simp only [rename, h, write_ok proper]
  apply delete_ok
  obtain ⟨entry, found, -⟩ := read_eq_ok_iff.1 h
  simp only [existsAt, InMemoryStorage.existsAt, InMemoryStorage.store]
  by_cases same : source.toKey = target.toKey
  · rw [same, Finmap.lookup_insert]
    rfl
  · rw [Finmap.lookup_insert_of_ne _ same, show fs.storage.lookup source.toKey = some entry from found]
    rfl

/-- A rename keeps its promise exactly when the paths stand for different keys, or for the root, where
it is refused. -/
theorem renameSound_iff (fs : VirtualIntelligenceFilesystem) (source target : VifsPath) (now : ℤ) :
    fs.RenameSound source target now ↔ fs.existsAt source = false ∨
      source.toKey ≠ target.toKey ∨ target.toKey = "vifs" := by
  unfold RenameSound
  by_cases found : fs.existsAt source = true
  · obtain ⟨data, hdata⟩ := existsAt_iff.1 found
    simp only [found, Bool.true_eq_false, false_or]
    by_cases root : target.toKey = "vifs"
    · refine iff_of_true (fun data hdata => ?_) (.inr root)
      rw [rename_root hdata root]
      exact fun key => rfl
    simp only [root, or_false]
    constructor
    · intro sound same
      have kept := sound data hdata
      rw [rename_ok hdata root] at kept
      obtain ⟨entry, absent, -⟩ := read_eq_ok_iff.1 kept.1
      simp only [InMemoryStorage.load, same, Finmap.lookup_erase] at absent
      cases absent
    · intro apart data hdata
      rw [rename_ok hdata root]
      refine ⟨read_eq_ok_iff.2 ⟨⟨target.toKey, data, some "application/json", now⟩, ?_, rfl⟩,
        fun _ => ?_, fun key hsource htarget => ?_⟩
      · simp only [InMemoryStorage.load, InMemoryStorage.store]
        rw [Finmap.lookup_erase_ne (Ne.symm apart), Finmap.lookup_insert]
      · simp only [existsAt, InMemoryStorage.existsAt, Finmap.lookup_erase]
        rfl
      · simp only [InMemoryStorage.load, InMemoryStorage.store]
        rw [Finmap.lookup_erase_ne hsource, Finmap.lookup_insert_of_ne _ htarget]
  · rw [Bool.not_eq_true] at found
    refine iff_of_true (fun data hdata => ?_) (.inl found)
    exact absurd (existsAt_iff.2 ⟨data, hdata⟩) (by simp [found])

end Rename

/-- A file under its own name: the rename answers that it is done, and the file is gone. -/
theorem rename_self_loses : ∃ fs fs' : VirtualIntelligenceFilesystem,
    fs = (new.write ⟨"/a"⟩ [120] 0).2 ∧ fs.read ⟨"/a"⟩ = .ok [120] ∧
    fs.rename ⟨"/a"⟩ ⟨"/a"⟩ 1 = (.ok (), fs') ∧ fs'.read ⟨"/a"⟩ = .error (.notFound "/a") ∧
    ¬fs.RenameSound ⟨"/a"⟩ ⟨"/a"⟩ 1 := by
  have proper : (⟨"/a"⟩ : VifsPath).toKey ≠ "vifs" := by decide
  have written : (new.write ⟨"/a"⟩ [120] 0).2.read ⟨"/a"⟩ = .ok [120] := by rfl
  refine ⟨_, _, rfl, written, rename_ok written proper, by rfl, fun sound => ?_⟩
  have kept := sound [120] written
  rw [rename_ok written proper] at kept
  exact absurd kept.1 (by decide)

end VirtualIntelligenceFilesystem

end TORdex
