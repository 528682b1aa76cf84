import TORdex.Core.Storage
import TORdex.Lib.FileTree

/-!
# Storage in files

The file-based `StorageManagerWrapper` keeps every value in a file, at the path that its key is below the
directory.  The directory is empty at first, and only the wrapper changes it.
-/

namespace TORdex

namespace StorageManagerWrapper

/-- A name in a directory. -/
abbrev FileName := List Char

/-- The components of a path: slashes that follow each other count as one. -/
def components (path : String) : List FileName :=
  (path.toList.splitOn '/').filter fun name => !name.isEmpty

/-- The path can only name a directory. -/
def endsInSlash (path : String) : Bool := path.toList.getLast? = some '/'

/-- Every system call refuses the path. -/
def hasNul (path : String) : Bool := path.toList.contains '\x00'

/-- `Path::join`. -/
def joinPath (base path : List Char) : List Char :=
  if path.head? = some '/' then path
  else if base = [] ∨ base.getLast? = some '/' then base ++ path
  else base ++ '/' :: path

/-- A text without `.` and `..` components. -/
structure PlainPath where
  text : String
  noDots : ∀ name ∈ components text, name ≠ ['.'] ∧ name ≠ ['.', '.']

/-- A key that the storage accepts. -/
structure StorageKey extends PlainPath where
  nonempty : text ≠ ""

end StorageManagerWrapper

open StorageManagerWrapper

/-- `StorageManagerWrapper` with a `file_dir`: the path of the directory, and the tree below it. -/
structure FileBasedStorage where
  dir : String
  tree : FileTree FileName (List UInt8)

namespace FileBasedStorage

/-- A storage in an empty directory. -/
def newFileBased (dir : String) : FileBasedStorage := ⟨dir, .empty⟩

/-- The node that a key leads to.  A trailing slash asks for a directory. -/
def stat (s : FileBasedStorage) (key : String) : Option (FileNode (List UInt8)) :=
  if hasNul key then none
  else
    match s.tree.node (components key) with
    | some (.file content) => if endsInSlash key then none else some (.file content)
    | found => found

theorem stat_eq_file {s : FileBasedStorage} {key : String} {value : List UInt8} :
    s.stat key = some (.file value) ↔ hasNul key = false ∧ endsInSlash key = false ∧
      s.tree.node (components key) = some (.file value) := by
  unfold stat
  cases hasNul key <;> cases endsInSlash key <;> rcases s.tree.node (components key) with _ | _ | _ <;>
    simp

/-- The parent directories are made first, and no failure is reported. -/
def store (s : FileBasedStorage) (key : String) (value : List UInt8) : FileBasedStorage :=
  let path := components key
  let tree :=
    if path.dropLast.any (·.contains '\x00') then s.tree else s.tree.mkdirAll path.dropLast
  let tree :=
    if hasNul key || endsInSlash key then tree else (tree.writeFile path value).getD tree
  { s with tree }

/-- The content of a file, with the time of the call. -/
def load (s : FileBasedStorage) (key : String) (now : ℤ) : Option Entry :=
  match s.stat key with
  | some (.file value) => some ⟨key, value, none, now⟩
  | _ => none

/-- Remove a file, and tell whether there was one. -/
def delete (s : FileBasedStorage) (key : String) : Bool × FileBasedStorage :=
  if hasNul key || endsInSlash key then (false, s)
  else
    match s.tree.removeFile (components key) with
    | some tree => (true, { s with tree })
    | none => (false, s)

/-- The paths of what is in the directory `start`, in any order.  An absolute `start` replaces the storage
directory, and without a name for the storage directory `start` is below the working directory: `outside` is what
the system has there. -/
def list (outside : String → Finset String) (s : FileBasedStorage) (start : String) : Finset String :=
  if s.dir = "" ∨ start.toList.head? = some '/' then outside start
  else if hasNul start then ∅
  else
    match s.tree.node (components start) with
    | some .dir => (s.tree.children (components start)).image fun name =>
      String.ofList (joinPath (joinPath s.dir.toList start.toList) name)
    | _ => ∅

/-- There is a file or a directory. -/
def existsAt (s : FileBasedStorage) (key : String) : Bool := (s.stat key).isSome

end FileBasedStorage

/-! ## Runs of calls -/

namespace StorageManagerWrapper

/-- A call, with the reading of the clock that it may take. -/
inductive Operation where
  | store (key : StorageKey) (value : List UInt8) (contentType : Option String) (now : ℤ)
  | load (key : StorageKey) (now : ℤ)
  | delete (key : StorageKey)
  | list (start : PlainPath)
  | existsAt (key : StorageKey)

/-- What a call answers: an entry is compared by key and value, a list as a set. -/
inductive Answer where
  | done
  | entry (found : Option (String × List UInt8))
  | flag (b : Bool)
  | keys (found : Finset String)
  deriving DecidableEq

/-- What both storages tell of an entry. -/
def Entry.content (e : Entry) : String × List UInt8 := (e.key, e.value)

end StorageManagerWrapper

/-- A call on the storage in memory. -/
def InMemoryStorage.call (s : InMemoryStorage) : Operation → Answer × InMemoryStorage
  | .store key value contentType now => (.done, s.store key.text value contentType now)
  | .load key _ => (.entry ((s.load key.text).map Entry.content), s)
  | .delete key => (.flag (s.delete key.text).1, (s.delete key.text).2)
  | .list start => (.keys (s.list start.text).toFinset, s)
  | .existsAt key => (.flag (s.existsAt key.text), s)

/-- A call on the storage in files. -/
def FileBasedStorage.call (outside : String → Finset String) (s : FileBasedStorage) :
    Operation → Answer × FileBasedStorage
  | .store key value _ _ => (.done, s.store key.text value)
  | .load key now => (.entry ((s.load key.text now).map Entry.content), s)
  | .delete key => (.flag (s.delete key.text).1, (s.delete key.text).2)
  | .list start => (.keys (s.list outside start.text), s)
  | .existsAt key => (.flag (s.existsAt key.text), s)

namespace StorageManagerWrapper

section Runs

variable {σ : Type} (call : σ → Operation → Answer × σ)

/-- The answers of a run of calls. -/
def answers : σ → List Operation → List Answer
  | _, [] => []
  | s, op :: ops => (call s op).1 :: answers (call s op).2 ops

/-- The state after a run of calls. -/
def stateAfter (s : σ) (ops : List Operation) : σ := ops.foldl (fun s op => (call s op).2) s

end Runs

end StorageManagerWrapper

end TORdex
