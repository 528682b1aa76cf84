import TORdex.Lib.HashTree

/-!
# Merkle trees

The levels of a tree are pairing rounds of digests, and a last digest without a partner goes up as it
is.  A proof skips the levels on which its digest goes up.
-/

namespace TORdex

/-- `[u8; 32]`. -/
abbrev Digest := Vector UInt8 32

/-- A Merkle tree for data integrity verification. -/
structure MerkleTree where
  root : Option Digest
  leaves : List Digest
  levels : List (List Digest)

namespace MerkleTree

/-- Without leaves. -/
def new : MerkleTree := ⟨none, [], []⟩

/-- `[a.as_slice(), b.as_slice()].concat()`. -/
def concat (a b : Digest) : List UInt8 := a.toList ++ b.toList

section Hash

-- `hash_bytes`, SHA-256.
variable (hashBytes : List UInt8 → Digest)

/-- Add the hash of some data. -/
def addLeaf (t : MerkleTree) (data : List UInt8) : MerkleTree :=
  { t with leaves := t.leaves ++ [hashBytes data] }

/-- The next level, from the chunks of two. -/
def nextLevel (level : List Digest) : List Digest :=
  Pairing.pairUp (fun a b => hashBytes (concat a b)) level

/-- The loop of `build`: the levels so far, and the current one, which is the last of them. -/
def buildLoop (levels : List (List Digest)) (current : List Digest) :
    List (List Digest) × List Digest :=
  if 1 < current.length then
    let next := nextLevel hashBytes current
    buildLoop (levels ++ [next]) next
  else (levels, current)
termination_by current.length
decreasing_by
  rw [nextLevel, Pairing.length_pairUp]
  omega

/-- Hash the leaves up to the root. -/
def build (t : MerkleTree) : MerkleTree :=
  if t.leaves = [] then { t with root := none, levels := [] }
  else
    let (levels, current) := buildLoop hashBytes [t.leaves] t.leaves
    { t with root := current[0]?, levels }

/-- The tree of some data. -/
def fromData (data : List (List UInt8)) : MerkleTree :=
  (data.foldl (addLeaf hashBytes) new).build hashBytes

/-- A digest goes up with its sibling. -/
def stepUp (hash : Digest) (step : Digest × Bool) : Digest :=
  let (sibling, isRight) := step
  hashBytes (if isRight then concat hash sibling else concat sibling hash)

/-- The hashes of a proof lead from the data to the root. -/
def verify (t : MerkleTree) (data : List UInt8) (proof : List (Digest × Bool)) : Bool :=
  some (proof.foldl (stepUp hashBytes) (hashBytes data)) = t.root

end Hash

/-- The sibling on a level, if it has one there. -/
def proofStep (level : List Digest) (idx : ℕ) : List (Digest × Bool) :=
  let siblingIdx := if idx % 2 = 0 then idx + 1 else idx - 1
  match level[siblingIdx]? with
  | some sibling => [(sibling, idx % 2 = 0)]
  | none => []

/-- The loop of `generate_proof` over the levels below the root. -/
def proofLoop : List (List Digest) → ℕ → List (Digest × Bool)
  | [], _ => []
  | level :: levels, idx => proofStep level idx ++ proofLoop levels (idx / 2)

/-- The hashes beside the way from a leaf to the root. -/
def generateProof (t : MerkleTree) (leafIndex : ℕ) : Option (List (Digest × Bool)) :=
  if t.leaves.length ≤ leafIndex ∨ t.levels = [] then none
  else some (proofLoop t.levels.dropLast leafIndex)

/-! ## Building -/

section Building

variable (hashBytes : List UInt8 → Digest)

/-- The loop adds the rest of the ladder. -/
theorem buildLoop_eq (levels : List (List Digest)) (current : List Digest) :
    ∃ rest, Pairing.ladder (fun a b => hashBytes (concat a b)) current = current :: rest ∧
      (buildLoop hashBytes levels current).1 = levels ++ rest ∧
      (current :: rest).getLast? = some (buildLoop hashBytes levels current).2 := by
  induction levels, current using buildLoop.induct hashBytes with
  | case1 levels current long next ih =>
    obtain ⟨rest, ladder, loop, last⟩ := ih
    refine ⟨next :: rest, ?_, ?_, ?_⟩
    · rw [Pairing.ladder_of_lt long]
      exact congrArg _ ladder
    · rw [buildLoop, if_pos long]
      exact loop.trans (List.append_assoc ..)
    · rw [buildLoop, if_pos long, List.getLast?_cons_cons]
      exact last
  | case2 levels current short =>
    refine ⟨[], Pairing.ladder_of_not_lt short, ?_, ?_⟩
    · rw [buildLoop, if_neg short, List.append_nil]
    · rw [buildLoop, if_neg short]
      rfl

theorem leaves_foldl_addLeaf (data : List (List UInt8)) (t : MerkleTree) :
    (data.foldl (addLeaf hashBytes) t).leaves = t.leaves ++ data.map hashBytes := by
  induction data generalizing t with
  | nil => exact (List.append_nil _).symm
  | cons chunk data ih =>
    rw [List.foldl_cons, ih, addLeaf, List.append_assoc]
    rfl

theorem leaves_fromData (data : List (List UInt8)) :
    (fromData hashBytes data).leaves = data.map hashBytes := by
  have leaves := leaves_foldl_addLeaf hashBytes data new
  unfold fromData build
  split_ifs
  · exact leaves
  · exact leaves

/-- The levels of a tree are the ladder of its leaves, and its root is what the rounds leave. -/
theorem fromData_eq {data : List (List UInt8)} (h : data ≠ []) :
    (fromData hashBytes data).levels =
        Pairing.ladder (fun a b => hashBytes (concat a b)) (data.map hashBytes) ∧
      (fromData hashBytes data).root =
        Pairing.last (fun a b => hashBytes (concat a b)) (data.map hashBytes) := by
  have leaves : (data.foldl (addLeaf hashBytes) new).leaves = data.map hashBytes :=
    leaves_foldl_addLeaf hashBytes data new
  have nonempty : data.map hashBytes ≠ [] := List.map_eq_nil_iff.not.2 h
  obtain ⟨rest, ladder, loop, last⟩ := buildLoop_eq hashBytes [data.map hashBytes]
    (data.map hashBytes)
  unfold fromData build
  rw [leaves, if_neg nonempty]
  refine ⟨loop.trans ladder.symm, ?_⟩
  rw [Pairing.last, ladder, last, Option.bind_some, List.head?_eq_getElem?]

theorem root_fromData (data : List (List UInt8)) :
    (fromData hashBytes data).root =
      Pairing.last (fun a b => hashBytes (concat a b)) (data.map hashBytes) := by
  by_cases h : data = []
  · subst h
    exact (Pairing.last_nil _).symm
  · exact (fromData_eq hashBytes h).2

end Building

/-! ## Proofs -/

section Proofs

variable {hashBytes : List UInt8 → Digest}

/-- A digest of a level, after the step that the proof has for it there, is the digest above it. -/
theorem getElem?_nextLevel {level : List Digest} {idx : ℕ} {hash : Digest}
    (at_idx : level[idx]? = some hash) :
    (nextLevel hashBytes level)[idx / 2]? =
      some ((proofStep level idx).foldl (stepUp hashBytes) hash) := by
  rw [nextLevel, Pairing.getElem?_pairUp]
  unfold proofStep
  rcases Nat.mod_two_eq_zero_or_one idx with even | odd
  · have place : 2 * (idx / 2) = idx := by omega
    rw [place, at_idx, if_pos even, Option.map_some]
    cases at_sibling : level[idx + 1]? with
    | none => simp [at_sibling]
    | some sibling => simp [stepUp, even, at_sibling]
  · have place : 2 * (idx / 2) = idx - 1 := by omega
    have after : idx - 1 + 1 = idx := by omega
    have inside : idx < level.length := (List.getElem?_eq_some_iff.1 at_idx).1
    obtain ⟨sibling, at_sibling⟩ : ∃ sibling, level[idx - 1]? = some sibling :=
      ⟨_, List.getElem?_eq_getElem (by omega)⟩
    rw [place, after, if_neg (by omega), at_idx, at_sibling]
    simp [stepUp, odd, at_sibling]

/-- From any place of a level the proof leads to what the rounds leave. -/
theorem foldl_proofLoop {level : List Digest} {idx : ℕ} {hash : Digest} (at_idx : level[idx]? = some hash) :
    some ((proofLoop (Pairing.ladder (fun a b => hashBytes (concat a b)) level).dropLast idx).foldl
      (stepUp hashBytes) hash) = Pairing.last (fun a b => hashBytes (concat a b)) level := by
  induction level using Pairing.ladder.induct (fun a b => hashBytes (concat a b)) generalizing idx hash with
  | case1 level long ih =>
    rw [Pairing.ladder_of_lt long, List.dropLast_cons_of_ne_nil (Pairing.ladder_ne_nil _ _), proofLoop,
      List.foldl_append, Pairing.last_of_lt long]
    exact ih (getElem?_nextLevel at_idx)
  | case2 level short =>
    have inside := (List.getElem?_eq_some_iff.1 at_idx).1
    obtain ⟨only, rfl⟩ := List.length_eq_one_iff.1 (show level.length = 1 by omega)
    obtain rfl : idx = 0 := by simpa using inside
    cases at_idx
    rw [Pairing.ladder_of_not_lt short, Pairing.last_singleton]
    rfl

/-- Whatever the number of chunks: every chunk has a proof, and it is accepted. -/
theorem verify_generateProof (hashBytes : List UInt8 → Digest) (data : List (List UInt8))
    (i : Fin data.length) :
    ∃ proof, (fromData hashBytes data).generateProof i = some proof ∧
      (fromData hashBytes data).verify hashBytes data[i] proof = true := by
  have nonempty : data ≠ [] := List.ne_nil_of_length_pos (i.pos)
  obtain ⟨levels, root⟩ := fromData_eq hashBytes nonempty
  have inside : ¬((fromData hashBytes data).leaves.length ≤ i ∨ (fromData hashBytes data).levels = []) := by
    rw [leaves_fromData, levels, List.length_map, not_or]
    exact ⟨Nat.not_le.2 i.isLt, Pairing.ladder_ne_nil _ _⟩
  refine ⟨_, if_neg inside, ?_⟩
  have at_i : (data.map hashBytes)[(i : ℕ)]? = some (hashBytes data[i]) := by
    rw [List.getElem?_map, List.getElem?_eq_getElem i.isLt]
    rfl
  rw [verify, levels, root, foldl_proofLoop at_i]
  exact decide_eq_true rfl

end Proofs

end MerkleTree

end TORdex

/-!
## What a Merkle tree accepts

Leaves and inner nodes are hashed in the same way, and a proof may have any length.  Without a
collision, what is accepted is a chunk, or it imitates an inner node.
-/

namespace TORdex.MerkleTree

open HashTree (tree?)

variable (hashBytes : List UInt8 → Digest)

/-- The byte strings that are hashed when the tree is built and when the proof is verified. -/
def hashed (chunks : List (List UInt8)) (data : List UInt8) (proof : List (Digest × Bool)) :
    List (List UInt8) :=
  chunks ++ (fromData hashBytes chunks).levels.flatMap (HashTree.joins concat) ++
    HashTree.climb hashBytes concat data proof

/-- The hash has no collision among some byte strings. -/
def NoCollision (strings : List (List UInt8)) : Prop :=
  ∀ a ∈ strings, ∀ b ∈ strings, hashBytes a = hashBytes b → a = b

/-- Followed down from the root, the proof ends at an inner node and the data are the digests under it;
or it goes on from a chunk, which is the two digests that the rest of the proof makes of the data. -/
def Imitates (chunks : List (List UInt8)) (data : List UInt8) (proof : List (Digest × Bool)) : Prop :=
  ∃ t ∈ tree? chunks, HashTree.Imitates hashBytes concat t proof.reverse data

variable {hashBytes}

theorem concat_injective {a b c d : Digest} (h : concat a b = concat c d) : a = c ∧ b = d := by
  have sides := List.append_inj h (by rw [Vector.length_toList, Vector.length_toList])
  exact ⟨Vector.toList_inj.1 sides.1, Vector.toList_inj.1 sides.2⟩

@[simp] theorem length_concat (a b : Digest) : (concat a b).length = 64 := by
  simp [concat]

/-- The digest that `verify` ends with is that of the last string it hashes. -/
theorem foldl_stepUp (proof : List (Digest × Bool)) (data : List UInt8) :
    proof.foldl (stepUp hashBytes) (hashBytes data) =
      hashBytes (proof.foldl (HashTree.up hashBytes concat) data) := by
  induction proof generalizing data with
  | nil => rfl
  | cons step proof ih => exact ih _

theorem verify_iff {chunks : List (List UInt8)} {data : List UInt8} {proof : List (Digest × Bool)} :
    (fromData hashBytes chunks).verify hashBytes data proof = true ↔
      ∃ t ∈ tree? chunks, hashBytes (proof.foldl (HashTree.up hashBytes concat) data) =
        hashBytes (t.content hashBytes concat) := by
  rw [verify, decide_eq_true_iff, foldl_stepUp, root_fromData, HashTree.last_digest, eq_comm,
    Option.map_eq_some_iff]
  exact exists_congr fun t => and_congr_right fun _ => eq_comm

section Sound

variable {chunks : List (List UInt8)} {data : List UInt8} {proof : List (Digest × Bool)}

/-- Without a collision, what is accepted is the string of the root by way of a chunk, or imitates. -/
theorem verify_iff_of_noCollision (noCollision : NoCollision hashBytes (hashed hashBytes chunks data proof)) :
    (fromData hashBytes chunks).verify hashBytes data proof = true ↔
      (∃ t ∈ tree? chunks, HashTree.AtLeaf hashBytes concat t proof.reverse data) ∨
        Imitates hashBytes chunks data proof := by
  rw [verify_iff, Imitates, ← exists_or]
  refine exists_congr fun t => ?_
  rw [← and_or_left]
  refine and_congr_right fun ht => ?_
  have inTree : ∀ y ∈ t.contents hashBytes concat, y ∈ hashed hashBytes chunks data proof := by
    intro y hy
    have nonempty : chunks ≠ [] := by
      rintro rfl
      rw [tree?, List.map_nil, Pairing.last_nil] at ht
      cases ht
    refine List.mem_append_left _ (List.mem_append.2 ?_)
    rw [(fromData_eq _ nonempty).1]
    exact HashTree.contents_tree? hashBytes concat ht y hy
  have onWay : ∀ x ∈ HashTree.climb hashBytes concat data proof, x ∈ hashed hashBytes chunks data proof :=
    fun x hx => List.mem_append_right _ hx
  have found := HashTree.foldl_eq_content_iff concat_injective data t proof.reverse fun x hx y hy =>
    noCollision x (onWay x (by rwa [List.reverse_reverse] at hx)) y (inTree y hy)
  rw [List.reverse_reverse] at found
  rw [← found]
  constructor
  · exact noCollision _ (onWay _ (HashTree.foldl_mem_climb _ _)) _ (inTree _ (HashTree.content_mem_contents t))
  · exact congrArg hashBytes

/-- Without a collision, an accepted string is a chunk exactly when it is a chunk anyway or does not
imitate an inner node. -/
theorem verify_sound_iff (hashBytes : List UInt8 → Digest) (chunks : List (List UInt8)) (data : List UInt8)
    (proof : List (Digest × Bool)) (noCollision : NoCollision hashBytes (hashed hashBytes chunks data proof)) :
    ((fromData hashBytes chunks).verify hashBytes data proof = true → data ∈ chunks) ↔
      data ∈ chunks ∨ ¬Imitates hashBytes chunks data proof := by
  rw [verify_iff_of_noCollision noCollision, ← imp_iff_or_not]
  constructor
  · exact fun sound imitates => sound (.inr imitates)
  · rintro sound (⟨t, ht, atLeaf⟩ | imitates)
    · rw [← HashTree.leaves_tree? ht]
      exact atLeaf.mem_leaves
    · exact sound imitates

/-- No imitation without a string of 64 bytes. -/
theorem Imitates.length (h : Imitates hashBytes chunks data proof) :
    data.length = 64 ∨ ∃ c ∈ chunks, c.length = 64 := by
  obtain ⟨t, ht, h⟩ := h
  obtain ⟨a, b, rfl | leaf⟩ := h.joined
  · exact .inl (length_concat a b)
  · rw [HashTree.leaves_tree? ht] at leaf
    exact .inr ⟨_, leaf, length_concat a b⟩

end Sound

/-! ### Two chunks -/

/-- Under any hash the empty proof is accepted for the digests under the root. -/
theorem verify_digests (hashBytes : List UInt8 → Digest) (a b : List UInt8) :
    (fromData hashBytes [a, b]).verify hashBytes (concat (hashBytes a) (hashBytes b)) [] = true := by
  have tree : tree? [a, b] = some (.node (.leaf a) (.leaf b)) := by
    rw [tree?, Pairing.last_of_lt (by simp)]
    exact Pairing.last_singleton _ _
  exact verify_iff.2 ⟨_, tree, rfl⟩

/-- The SHA-256 digest of `"a"`. -/
def digestA : Digest :=
  ⟨#[202, 151, 129, 18, 202, 27, 189, 202, 250, 194, 49, 179, 154, 35, 220, 77, 167, 134, 239, 248, 20, 124,
    78, 114, 185, 128, 119, 133, 175, 238, 72, 187], rfl⟩

/-- The SHA-256 digest of `"b"`. -/
def digestB : Digest :=
  ⟨#[62, 35, 232, 22, 0, 57, 89, 74, 51, 137, 79, 101, 100, 225, 177, 52, 139, 189, 122, 0, 136, 212, 44, 74,
    203, 115, 238, 174, 213, 156, 0, 157], rfl⟩

/-- The SHA-256 digest of these two in a row. -/
def digestRoot : Digest :=
  ⟨#[229, 160, 31, 238, 20, 224, 237, 92, 72, 113, 79, 34, 24, 15, 37, 173, 131, 101, 181, 63, 151, 121, 247,
    157, 196, 163, 215, 233, 57, 99, 249, 74], rfl⟩

/-- A hash of a few texts. -/
def sampleHash (bytes : List UInt8) : Digest :=
  if bytes = [97] then digestA else if bytes = [98] then digestB else digestRoot

/-- `"a"` and `"b"`. -/
def sampleChunks : List (List UInt8) := [[97], [98]]

theorem levels_sampleChunks :
    (fromData sampleHash sampleChunks).levels = [[digestA, digestB], [digestRoot]] := by
  have nonempty : sampleChunks ≠ [] := List.cons_ne_nil _ _
  rw [(fromData_eq _ nonempty).1, Pairing.ladder_of_lt (by decide),
    Pairing.ladder_of_not_lt (by decide)]
  decide

theorem noCollision_sample : NoCollision sampleHash [[97], [98], concat digestA digestB] := by
  unfold NoCollision
  decide

/-- The strings of the tree and of a proof that starts at one of them and goes up. -/
theorem hashed_sample {data : List UInt8} {proof : List (Digest × Bool)}
    (way : ∀ s ∈ HashTree.climb sampleHash concat data proof, s ∈ [[97], [98], concat digestA digestB]) :
    NoCollision sampleHash (hashed sampleHash sampleChunks data proof) := by
  have known : ∀ s ∈ hashed sampleHash sampleChunks data proof,
      s ∈ [[97], [98], concat digestA digestB] := by
    intro s hs
    rw [hashed, levels_sampleChunks] at hs
    rcases List.mem_append.1 hs with built | climbed
    · exact built
    · exact way s climbed
  exact fun a ha b hb => noCollision_sample a (known a ha) b (known b hb)

theorem verify_sound_sample :
    ((fromData sampleHash sampleChunks).verify sampleHash [97] [(digestB, true)] = true →
        [97] ∈ sampleChunks) ↔
      [97] ∈ sampleChunks ∨ ¬Imitates sampleHash sampleChunks [97] [(digestB, true)] :=
  verify_sound_iff _ _ _ _ (hashed_sample (by decide))

/-- The two digests in a row, with the empty proof, are accepted and are no chunk. -/
theorem verify_not_sound :
    NoCollision sampleHash (hashed sampleHash sampleChunks (concat digestA digestB) []) ∧
      (fromData sampleHash sampleChunks).verify sampleHash (concat digestA digestB) [] = true ∧
      concat digestA digestB ∉ sampleChunks :=
  ⟨hashed_sample (by decide), verify_digests sampleHash [97] [98], by decide⟩

end TORdex.MerkleTree
