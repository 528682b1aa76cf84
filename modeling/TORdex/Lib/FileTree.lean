import Mathlib.Data.Finmap

/-!
# A tree of directories and files

The nodes are kept by their paths from the root.  What has a child is a directory; so a path leads to a node
only through directories, and a file has nothing below it.
-/

/-- A file with its content, or a directory. -/
inductive FileNode (α : Type*) where
  | file (content : α)
  | dir
  deriving DecidableEq

/-- Files and directories by their paths; what has something in it is a directory. -/
structure FileTree (ν α : Type*) [DecidableEq ν] where
  nodes : Finmap fun _ : List ν => FileNode α
  root : nodes.lookup [] = some .dir
  closed : ∀ path name, (nodes.lookup (path ++ [name])).isSome → nodes.lookup path = some .dir

namespace FileTree

variable {ν α : Type*} [DecidableEq ν]

/-- An empty directory. -/
def empty : FileTree ν α where
  nodes := Finmap.singleton [] .dir
  root := Finmap.lookup_singleton_eq
  closed path name h := by
    rw [Finmap.lookup_isSome, Finmap.mem_singleton] at h
    simp at h

/-- What a path leads to. -/
def node (t : FileTree ν α) (path : List ν) : Option (FileNode α) := t.nodes.lookup path

/-- A new node in a directory, in the place of a file or of nothing. -/
def put (t : FileTree ν α) (path : List ν) (new : FileNode α) (h : path ≠ [])
    (parent : t.node path.dropLast = some .dir) (free : t.node path ≠ some .dir) : FileTree ν α where
  nodes := t.nodes.insert path new
  root := by rw [Finmap.lookup_insert_of_ne _ (Ne.symm h), t.root]
  closed p name hp := by
    have old : t.nodes.lookup p = some .dir := by
      by_cases same : p ++ [name] = path
      · rw [← same, List.dropLast_concat] at parent
        exact parent
      · rw [Finmap.lookup_insert_of_ne _ same] at hp
        exact t.closed p name hp
    have ne : p ≠ path := by
      rintro rfl
      exact free old
    rw [Finmap.lookup_insert_of_ne _ ne, old]

/-- Removes a file. -/
def removeFile (t : FileTree ν α) (path : List ν) : Option (FileTree ν α) :=
  match h : t.node path with
  | some (.file _) => some {
      nodes := t.nodes.erase path
      root := by
        have ne : ([] : List ν) ≠ path := by
          rintro rfl
          rw [node, t.root] at h
          cases h
        rw [Finmap.lookup_erase_ne ne, t.root]
      closed := fun p name hp => by
        have kept : p ++ [name] ≠ path := by
          rintro rfl
          rw [Finmap.lookup_erase] at hp
          cases hp
        rw [Finmap.lookup_erase_ne kept] at hp
        have old := t.closed p name hp
        have ne : p ≠ path := by
          rintro rfl
          rw [node, old] at h
          cases h
        rw [Finmap.lookup_erase_ne ne, old] }
  | _ => none

/-- The names in a directory. -/
def children (t : FileTree ν α) (path : List ν) : Finset ν :=
  t.nodes.keys.biUnion fun p =>
    match p.getLast? with
    | some name => if p = path ++ [name] then {name} else ∅
    | none => ∅

section Nodes

variable {t t' : FileTree ν α} {path p : List ν} {new : FileNode α} {name : ν}

theorem node_empty : (empty : FileTree ν α).node path = if path = [] then some .dir else none := by
  unfold node empty
  split_ifs with h
  · rw [h, Finmap.lookup_singleton_eq]
  · rw [Finmap.lookup_eq_none, Finmap.mem_singleton]
    exact h

theorem node_put {h parent free} : (t.put path new h parent free).node p =
    if p = path then some new else t.node p := by
  unfold node put
  split_ifs with same
  · rw [same, Finmap.lookup_insert]
  · rw [Finmap.lookup_insert_of_ne _ same]

/-- A file is removed, and only it. -/
theorem removeFile_eq_some (h : t.removeFile path = some t') :
    (∃ content, t.node path = some (.file content)) ∧
      ∀ p, t'.node p = if p = path then none else t.node p := by
  unfold removeFile at h
  split at h
  next content found =>
    obtain rfl := Option.some_inj.1 h
    refine ⟨⟨content, found⟩, fun p => ?_⟩
    unfold node
    split_ifs with same
    · rw [same, Finmap.lookup_erase]
    · rw [Finmap.lookup_erase_ne same]
  next => cases h

theorem removeFile_isSome :
    (t.removeFile path).isSome = true ↔ ∃ content, t.node path = some (.file content) := by
  unfold removeFile
  split
  next content found => simp [found]
  next other => simpa using other

end Nodes

/-! ## Directories and files -/

variable [DecidableEq α]

/-- `mkdir`: nothing happens when the path is taken, or its parent is not a directory. -/
def mkdir (t : FileTree ν α) (path : List ν) : FileTree ν α :=
  if h : path ≠ [] ∧ t.node path.dropLast = some .dir ∧ t.node path = none then
    t.put path .dir h.1 h.2.1 (by simp [h.2.2])
  else t

/-- `mkdir -p`: the directories of a path from the root on. -/
def mkdirAll (t : FileTree ν α) (path : List ν) : FileTree ν α := path.inits.foldl mkdir t

/-- Writes a file, whether or not it exists; fails at a directory, and without a parent directory. -/
def writeFile (t : FileTree ν α) (path : List ν) (content : α) : Option (FileTree ν α) :=
  if h : path ≠ [] ∧ t.node path.dropLast = some .dir ∧ t.node path ≠ some .dir then
    some (t.put path (.file content) h.1 h.2.1 h.2.2)
  else none

section Operations

variable {t : FileTree ν α} {path p : List ν} {content : α} {name : ν}

theorem node_mkdir_of_ne (h : p ≠ path) : (t.mkdir path).node p = t.node p := by
  unfold mkdir
  split_ifs
  · rw [node_put, if_neg h]
  · rfl

/-- Making a directory makes and removes no file. -/
theorem mkdir_file : (t.mkdir path).node p = some (.file content) ↔ t.node p = some (.file content) := by
  by_cases h : p = path
  · subst h
    unfold mkdir
    split_ifs with made
    · rw [node_put, if_pos rfl, made.2.2]
      simp
    · rfl
  · rw [node_mkdir_of_ne h]

theorem mkdirAll_file :
    (t.mkdirAll path).node p = some (.file content) ↔ t.node p = some (.file content) := by
  unfold mkdirAll
  induction path.inits generalizing t with
  | nil => rfl
  | cons q rest ih => rw [List.foldl_cons, ih, mkdir_file]

theorem node_mkdirAll_of_not_prefix (h : ¬ p <+: path) : (t.mkdirAll path).node p = t.node p := by
  rw [← List.mem_inits] at h
  unfold mkdirAll
  revert h
  induction path.inits generalizing t with
  | nil => exact fun _ => rfl
  | cons q rest ih =>
    intro h
    rw [List.mem_cons, not_or] at h
    rw [List.foldl_cons, ih h.2, node_mkdir_of_ne h.1]

theorem mkdirAll_concat : t.mkdirAll (path ++ [name]) = (t.mkdirAll path).mkdir (path ++ [name]) := by
  unfold mkdirAll
  rw [List.inits_append]
  simp

/-- Where no file is in the way, all directories of the path are there in the end. -/
theorem node_mkdirAll (h : ∀ q content, q <+: path → t.node q ≠ some (.file content)) :
    (t.mkdirAll path).node path = some .dir := by
  induction path using List.reverseRecOn with
  | nil => exact (t.mkdirAll []).root
  | append_singleton path name ih =>
    have parent : (t.mkdirAll path).node path = some .dir :=
      ih fun q content hq => h q content (hq.trans (List.prefix_append _ _))
    rw [mkdirAll_concat]
    cases here : (t.mkdirAll path).node (path ++ [name]) with
    | none =>
      unfold mkdir
      rw [dif_pos ⟨by simp, by rwa [List.dropLast_concat], here⟩, node_put, if_pos rfl]
    | some found =>
      cases found with
      | file content => exact absurd (mkdirAll_file.1 here) (h _ content List.prefix_rfl)
      | dir =>
        unfold mkdir
        rw [dif_neg (by simp [here]), here]

theorem writeFile_eq (hne : path ≠ []) (parent : t.node path.dropLast = some .dir)
    (free : t.node path ≠ some .dir) :
    t.writeFile path content = some (t.put path (.file content) hne parent free) :=
  dif_pos ⟨hne, parent, free⟩

end Operations

end FileTree
