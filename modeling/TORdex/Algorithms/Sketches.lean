import Mathlib.Algebra.Order.Group.Multiset
import Mathlib.Algebra.Order.Ring.Int
import Mathlib.Tactic.Ring
import TORdex.Algorithms.HyperLogLog
import TORdex.Core.Primitives
import TORdex.Core.Storage

/-!
# Bloom filters, MinHash and SimHash

What each sketch keeps of its inputs: a Bloom filter the positions that some item set, a MinHash signature the least
hash of a set under each function, and a SimHash the bits that most words have.
-/

namespace TORdex

/-! ## Bloom filters -/

/-- A Bloom filter, with its bits in words. -/
structure BloomFilter where
  bits : List (BitVec 64)
  numHashes : ℕ
  size : ℕ
  inserted : ℕ

namespace BloomFilter

/-- An empty filter, in a build that does not check for overflow. -/
def new (size numHashes : ℕ) : BloomFilter :=
  ⟨List.replicate ((size + 63) % 2 ^ 64 / 64) 0, numHashes, size, 0⟩

/-- `bits[bit / 64] |= 1 << (bit % 64)`, if there is such a word. -/
def setBit (bits : List (BitVec 64)) (bit : ℕ) : List (BitVec 64) :=
  bits.modify (bit / 64) fun word => word ||| (1#64 <<< (bit % 64))

/-- `bits[bit / 64] & (1 << (bit % 64)) != 0`, if there is such a word. -/
def getBit (bits : List (BitVec 64)) (bit : ℕ) : Bool :=
  match bits[bit / 64]? with
  | some word => word &&& (1#64 <<< (bit % 64)) != 0
  | none => false

-- `hash_bytes`, SHA-256.
variable (hashBytes : List UInt8 → Digest)

/-- The hash of the item and a `usize`. -/
def hash (data : List UInt8) (seed : ℕ) : ℕ :=
  (HyperLogLog.fullHash hashBytes (data ++ LittleEndian.toBytes 8 seed)).toNat

/-- The bits of an item; the remainder by zero panics. -/
def positions (s : BloomFilter) (item : List UInt8) : Option (List ℕ) :=
  (List.range s.numHashes).mapM fun i => if s.size = 0 then none else some (hash hashBytes item i % s.size)

/-- Set the bits of an item. -/
def insert (s : BloomFilter) (item : List UInt8) : Option BloomFilter := do
  let bits ← s.positions hashBytes item
  return { s with bits := bits.foldl setBit s.bits, inserted := s.inserted + 1 }

/-- All bits of an item are set. -/
def contains (s : BloomFilter) (item : List UInt8) : Option Bool := do
  let bits ← s.positions hashBytes item
  return bits.all (getBit s.bits)

/-- Take back all bits. -/
def clear (s : BloomFilter) : BloomFilter := { s with bits := s.bits.map fun _ => 0, inserted := 0 }

/-- A call that changes a filter. -/
inductive Call where
  | insert (item : List UInt8)
  | clear

/-- The filter after a call. -/
def perform (s : BloomFilter) : Call → Option BloomFilter
  | .insert item => s.insert hashBytes item
  | .clear => some s.clear

/-- The items inserted since the filter was cleared. -/
def held (calls : List Call) : List (List UInt8) :=
  calls.foldl (fun items call => match call with | .insert item => items ++ [item] | .clear => []) []

/-! ### Single bits -/

theorem and_bit_ne_zero (word : BitVec 64) {k : ℕ} (below : k < 64) :
    (word &&& (1#64 <<< k) != 0) = word.getLsbD k := by
  have zero : word &&& (1#64 <<< k) = 0 ↔ word.getLsbD k = false := by
    constructor
    · intro none
      have same := congrArg (BitVec.getLsbD · k) none
      simpa [below] using same
    · intro off
      ext i hi
      simp
      grind
  cases on : word.getLsbD k with
  | true =>
    rw [bne_iff_ne, ne_eq, zero, on]
    decide
  | false =>
    rw [bne_eq_false_iff_eq, zero, on]

theorem getLsbD_or_bit (word : BitVec 64) {k : ℕ} (below : k < 64) (i : ℕ) :
    (word ||| (1#64 <<< k)).getLsbD i = (word.getLsbD i || decide (i = k)) := by
  simp
  grind

theorem getBit_eq (bits : List (BitVec 64)) (bit : ℕ) :
    getBit bits bit = ((bits[bit / 64]?).map fun word => word.getLsbD (bit % 64)).getD false := by
  rw [getBit]
  cases bits[bit / 64]? with
  | none => rfl
  | some word => exact and_bit_ne_zero word (Nat.mod_lt _ (by decide))

theorem getBit_setBit {bits : List (BitVec 64)} {bit : ℕ} (inside : bit / 64 < bits.length) (bit' : ℕ) :
    getBit (setBit bits bit) bit' = (getBit bits bit' || decide (bit' = bit)) := by
  rw [getBit_eq, getBit_eq, setBit, List.getElem?_modify]
  by_cases word : bit / 64 = bit' / 64
  · have here : bit' / 64 < bits.length := word ▸ inside
    have same : bit' % 64 = bit % 64 ↔ bit' = bit := by omega
    rw [List.getElem?_eq_getElem here]
    simp only [word, ↓reduceIte, Option.map_eq_map, Option.map_some, Option.getD_some,
      getLsbD_or_bit _ (Nat.mod_lt bit (by decide : 0 < 64)), same]
  · have apart : bit' ≠ bit := fun same => word (same ▸ rfl)
    simp [word, apart]

theorem length_setBit (bits : List (BitVec 64)) (bit : ℕ) : (setBit bits bit).length = bits.length :=
  List.length_modify _ _ _

theorem getBit_foldl {bits : List (BitVec 64)} {set : List ℕ} (inside : ∀ bit ∈ set, bit / 64 < bits.length)
    (bit : ℕ) : getBit (set.foldl setBit bits) bit = (getBit bits bit || decide (bit ∈ set)) := by
  induction set generalizing bits with
  | nil => simp
  | cons first set ih =>
    obtain ⟨here, later⟩ := List.forall_mem_cons.1 inside
    rw [List.foldl_cons, ih fun bit' mem => (length_setBit bits first).symm ▸ later bit' mem, getBit_setBit here,
      Bool.or_assoc, ← Bool.decide_or]
    simp only [List.mem_cons]

/-! ### Runs -/

section Runs

variable {hashBytes} {s : BloomFilter}

/-- The position of an item under a hash function. -/
def position (hashBytes : List UInt8 → Digest) (size : ℕ) (item : List UInt8) (i : ℕ) : ℕ :=
  hash hashBytes item i % size

theorem positions_eq (positive : 0 < s.size) (item : List UInt8) :
    s.positions hashBytes item = some ((List.range s.numHashes).map (position hashBytes s.size item)) := by
  have some : (fun i => if s.size = 0 then none else Option.some (hash hashBytes item i % s.size)) =
      fun i => Option.some (position hashBytes s.size item i) := funext fun i => if_neg positive.ne'
  rw [positions, some]
  exact List.mapM_pure

theorem insert_eq (positive : 0 < s.size) (item : List UInt8) :
    s.insert hashBytes item = some { s with
      bits := ((List.range s.numHashes).map (position hashBytes s.size item)).foldl setBit s.bits
      inserted := s.inserted + 1 } := by
  rw [insert, positions_eq positive]
  rfl

theorem contains_eq (positive : 0 < s.size) (item : List UInt8) :
    s.contains hashBytes item =
      some (((List.range s.numHashes).map (position hashBytes s.size item)).all (getBit s.bits)) := by
  rw [contains, positions_eq positive]
  rfl

/-- A filter of a size with so many hash functions, and the items that it holds. -/
structure Holds (hashBytes : List UInt8 → Digest) (m k : ℕ) (items : List (List UInt8)) (s : BloomFilter) :
    Prop where
  size : s.size = m
  numHashes : s.numHashes = k
  words : s.bits.length = (m + 63) / 64
  bits : ∀ bit, getBit s.bits bit = true ↔ ∃ item ∈ items, ∃ i < k, position hashBytes m item i = bit

theorem holds_clear {size numHashes : ℕ} {bits : List (BitVec 64)} (words : bits.length = (size + 63) / 64)
    (zero : ∀ word ∈ bits, word = 0) (inserted : ℕ) :
    Holds hashBytes size numHashes [] ⟨bits, numHashes, size, inserted⟩ := by
  refine ⟨rfl, rfl, words, fun bit => iff_of_false ?_ (by simp)⟩
  rw [getBit_eq]
  cases found : bits[bit / 64]? with
  | none => simp
  | some word => simp [zero word (List.mem_of_getElem? found)]

theorem Holds.insert {size numHashes : ℕ} {items : List (List UInt8)} (positive : 0 < size)
    (holds : Holds hashBytes size numHashes items s) (item : List UInt8) :
    ∃ t, s.insert hashBytes item = some t ∧ Holds hashBytes size numHashes (items ++ [item]) t := by
  obtain ⟨rfl, rfl, words, bits⟩ := holds
  refine ⟨_, insert_eq positive item, rfl, rfl, ?_, fun bit => ?_⟩
  · have lengths : ∀ (set : List ℕ) (bits : List (BitVec 64)), (set.foldl setBit bits).length = bits.length := by
      intro set
      induction set with
      | nil => exact fun _ => rfl
      | cons bit set ih => exact fun bits => (ih _).trans (length_setBit bits bit)
    exact (lengths _ _).trans words
  · have inside : ∀ bit ∈ (List.range s.numHashes).map (position hashBytes s.size item), bit / 64 < s.bits.length := by
      intro bit mem
      obtain ⟨i, -, rfl⟩ := List.mem_map.1 mem
      have below : position hashBytes s.size item i < s.size := Nat.mod_lt _ positive
      omega
    dsimp only
    rw [getBit_foldl inside, Bool.or_eq_true, decide_eq_true_eq, bits, List.mem_map]
    simp only [List.mem_append, List.mem_singleton, List.mem_range, or_and_right, exists_or, exists_eq_left]

theorem Holds.run {size numHashes : ℕ} (positive : 0 < size) (fits : size + 63 < 2 ^ 64) (calls : List Call) :
    ∃ s, calls.foldlM (perform hashBytes) (new size numHashes) = some s ∧
      Holds hashBytes size numHashes (held calls) s := by
  induction calls using List.reverseRecOn with
  | nil =>
    refine ⟨_, rfl, holds_clear ?_ (fun word mem => List.eq_of_mem_replicate mem) 0⟩
    rw [List.length_replicate, Nat.mod_eq_of_lt fits]
  | append_singleton calls call ih =>
    obtain ⟨s, ran, holds⟩ := ih
    rw [List.foldlM_append, ran]
    cases call with
    | insert item =>
      obtain ⟨t, inserted, holds'⟩ := holds.insert positive item
      refine ⟨t, ?_, by rwa [held, List.foldl_append]⟩
      show (s.insert hashBytes item).bind some = _
      rw [inserted]
      rfl
    | clear =>
      obtain ⟨rfl, rfl, words, -⟩ := holds
      have empty : held (calls ++ [.clear]) = [] := by
        rw [held, List.foldl_append]
        rfl
      refine ⟨s.clear, rfl, empty ▸ holds_clear ((List.length_map _).trans words) (fun word mem => ?_) 0⟩
      obtain ⟨_, -, rfl⟩ := List.mem_map.1 mem
      rfl

/-- **After any calls a filter contains an item exactly when each position of the item is one of an item inserted
since the last `clear`.**  In particular it contains all of these. -/
theorem contains_held_iff (hashBytes : List UInt8 → Digest) {size : ℕ} (positive : 0 < size)
    (fits : size + 63 < 2 ^ 64) (numHashes : ℕ) (calls : List Call) :
    ∃ s, calls.foldlM (perform hashBytes) (new size numHashes) = some s ∧
      ∀ item, ∃ answer, s.contains hashBytes item = some answer ∧
        (answer = true ↔ ∀ i < numHashes, ∃ other ∈ held calls, ∃ j < numHashes,
          position hashBytes size other j = position hashBytes size item i) ∧
        (item ∈ held calls → answer = true) := by
  obtain ⟨s, ran, rfl, rfl, words, bits⟩ := @Holds.run hashBytes size numHashes positive fits calls
  refine ⟨s, ran, fun item => ?_⟩
  refine ⟨_, contains_eq positive item, ?_⟩
  have exact : (((List.range s.numHashes).map (position hashBytes s.size item)).all (getBit s.bits) = true) ↔
      ∀ i < s.numHashes, ∃ other ∈ held calls, ∃ j < s.numHashes,
        position hashBytes s.size other j = position hashBytes s.size item i := by
    simp only [List.all_map, List.all_eq_true, List.mem_range, Function.comp_apply, bits]
  exact ⟨exact, fun mem => exact.2 fun i below => ⟨item, mem, i, below, rfl⟩⟩

end Runs

/-- A hash that only sees the first byte. -/
def firstByte (data : List UInt8) : Digest := Vector.ofFn fun i => if i = 0 then data.headD 0 else 0

/-- The first item is gone with the `clear`. -/
theorem contains_held_iff_cleared :
    ∃ s, [Call.insert [1], .clear, .insert [2]].foldlM (perform firstByte) (new 128 1) = some s ∧
      ∀ item, ∃ answer, s.contains firstByte item = some answer ∧
        (answer = true ↔ ∀ i < 1, ∃ other ∈ [[2]], ∃ j < 1,
          position firstByte 128 other j = position firstByte 128 item i) ∧
        (item ∈ [[2]] → answer = true) :=
  contains_held_iff firstByte (by decide) (by decide) 1 [.insert [1], .clear, .insert [2]]

end BloomFilter

/-! ## MinHash and LSH -/

/-- `hash_string`: the first eight bytes of the SHA-256 digest. -/
def hashString (hashBytes : List UInt8 → Digest) (s : String) : UInt64 :=
  ⟨HyperLogLog.fullHash hashBytes s.toUTF8.toList⟩

/-- `u64::MAX`. -/
def u64Max : UInt64 := 0xFFFFFFFFFFFFFFFF

/-- The coefficients of the hash functions, and the signatures. -/
structure MinHash where
  hashFunctions : List UInt64
  signatures : List (List UInt64)

namespace MinHash

/-- The hash functions, without signatures. -/
def new (numHashes : ℕ) : MinHash :=
  ⟨(List.range numHashes).map fun i => 1000003 * (UInt64.ofNat i + 1) + 1000009, []⟩

variable (hashBytes : List UInt8 → Digest)

/-- The signature with an element: each entry is lowered to the hash of the element under its function. -/
def lower (functions sig : List UInt64) (element : String) : List UInt64 :=
  sig.zipWith (fun least coeff =>
    let h := hashString hashBytes element * coeff
    if h < least then h else least) functions

/-- The least hash of a set under each function. -/
def signature (m : MinHash) (set : Finset String) : List UInt64 :=
  (sortTexts set).foldl (lower hashBytes m.hashFunctions) (List.replicate m.hashFunctions.length u64Max)

/-- Keep the signature of a set. -/
def addSet (m : MinHash) (set : Finset String) : ℕ × MinHash :=
  (m.signatures.length, { m with signatures := m.signatures ++ [m.signature hashBytes set] })

end MinHash

/-- The inserted sets by the hashes of the bands of their signatures. -/
structure LSH where
  minhash : MinHash
  bands : ℕ
  rows : ℕ
  buckets : HashMap UInt64 (List ℕ)

namespace LSH

/-- The division by zero bands panics. -/
def new (numHashes bands : ℕ) : Option LSH :=
  if bands = 0 then none else some ⟨.new numHashes, bands, numHashes / bands, ∅⟩

variable (hashBytes : List UInt8 → Digest)

/-- The hash of the entries of a band. -/
def hashBand (band : List UInt64) : UInt64 :=
  ⟨HyperLogLog.fullHash hashBytes (band.flatMap fun v => LittleEndian.toBytes 8 v.toNat)⟩

/-- The hash of the rows of a band. -/
def bandHash (l : LSH) (sig : List UInt64) (b : ℕ) : UInt64 :=
  let start := b * l.rows
  let stop := min (start + l.rows) sig.length
  hashBand hashBytes ((sig.take stop).drop start)

/-- `entry(band_hash).or_default().push(idx)`, for each band. -/
def pushBands (hash : ℕ → UInt64) (idx bands : ℕ) (buckets : HashMap UInt64 (List ℕ)) : HashMap UInt64 (List ℕ) :=
  (List.range bands).foldl (fun buckets b =>
    buckets.insert (hash b) ((buckets.lookup (hash b)).getD [] ++ [idx])) buckets

/-- Insert a set, and return its number. -/
def insert (l : LSH) (set : Finset String) : ℕ × LSH :=
  let (idx, minhash) := l.minhash.addSet hashBytes set
  let sig := l.minhash.signature hashBytes set
  (idx, { l with minhash, buckets := pushBands (l.bandHash hashBytes sig) idx l.bands l.buckets })

/-- The sets that share a bucket with the query. -/
def query (l : LSH) (set : Finset String) : Finset ℕ :=
  let sig := l.minhash.signature hashBytes set
  (Finset.range l.bands).biUnion fun b => ((l.buckets.lookup (l.bandHash hashBytes sig b)).getD []).toFinset

variable {hashBytes}

theorem mem_pushBands (hash : ℕ → UInt64) (idx bands : ℕ) (buckets : HashMap UInt64 (List ℕ)) (key : UInt64) (i : ℕ) :
    i ∈ ((pushBands hash idx bands buckets).lookup key).getD [] ↔
      i ∈ (buckets.lookup key).getD [] ∨ i = idx ∧ ∃ b < bands, hash b = key := by
  induction bands with
  | zero => simp [pushBands]
  | succ bands ih =>
    rw [pushBands, List.range_succ, List.foldl_append]
    show i ∈ (((pushBands hash idx bands buckets).insert (hash bands) _).lookup key).getD [] ↔ _
    simp only [Nat.lt_succ_iff_lt_or_eq, or_and_right, exists_or, exists_eq_left]
    by_cases here : hash bands = key
    · subst here
      rw [Finmap.lookup_insert, Option.getD_some, List.mem_append, List.mem_singleton]
      show i ∈ ((pushBands hash idx bands buckets).lookup (hash bands)).getD [] ∨ i = idx ↔ _
      rw [ih, or_assoc]
      refine or_congr_right ⟨fun h => ⟨h.elim And.left id, .inr rfl⟩, fun h => .inr h.1⟩
    · rw [Finmap.lookup_insert_of_ne _ (Ne.symm here), ih]
      simp [here]

/-- What an index holds after some sets were inserted. -/
structure Filed (hashBytes : List UInt8 → Digest) (numHashes n : ℕ) (sets : List (Finset String)) (l : LSH) :
    Prop where
  functions : l.minhash.hashFunctions = (MinHash.new numHashes).hashFunctions
  count : l.minhash.signatures.length = sets.length
  bands : l.bands = n
  rows : l.rows = numHashes / n
  buckets : ∀ key i, i ∈ (l.buckets.lookup key).getD [] ↔ ∃ set, sets[i]? = some set ∧
    ∃ b < n, l.bandHash hashBytes (l.minhash.signature hashBytes set) b = key

theorem signature_congr {m m' : MinHash} (same : m.hashFunctions = m'.hashFunctions) (set : Finset String) :
    m.signature hashBytes set = m'.signature hashBytes set := by
  rw [MinHash.signature, MinHash.signature, same]

theorem Filed.insert {numHashes bands : ℕ} {sets : List (Finset String)} {l : LSH}
    (filed : Filed hashBytes numHashes bands sets l) (set : Finset String) :
    (l.insert hashBytes set).1 = sets.length ∧
      Filed hashBytes numHashes bands (sets ++ [set]) (l.insert hashBytes set).2 := by
  obtain ⟨functions, count, rfl, rows, buckets⟩ := filed
  refine ⟨count, functions, ?_, rfl, rows, fun key i => ?_⟩
  · show (l.minhash.signatures ++ [_]).length = _
    rw [List.length_append, count, List.length_append]
    rfl
  · have hashes : ∀ sig b, (l.insert hashBytes set).2.bandHash hashBytes sig b = l.bandHash hashBytes sig b :=
      fun _ _ => rfl
    have signatures : ∀ set', (l.insert hashBytes set).2.minhash.signature hashBytes set' =
        l.minhash.signature hashBytes set' := fun set' => signature_congr rfl set'
    show i ∈ ((pushBands _ l.minhash.signatures.length l.bands l.buckets).lookup key).getD [] ↔ _
    simp only [hashes, signatures]
    rw [mem_pushBands, buckets, count, List.getElem?_append]
    by_cases old : i < sets.length
    · simp only [old, ↓reduceIte, old.ne, false_and, or_false]
    · rw [if_neg old, List.getElem?_eq_none (Nat.le_of_not_lt old)]
      simp only [reduceCtorEq, false_and, exists_false, false_or]
      by_cases last : i = sets.length
      · simp [last]
      · have beyond : ([set] : List (Finset String))[i - sets.length]? = none :=
          List.getElem?_eq_none (by rw [List.length_singleton]; omega)
        simp [last, beyond]

theorem Filed.mem_query {numHashes bands : ℕ} {sets : List (Finset String)} {l : LSH}
    (filed : Filed hashBytes numHashes bands sets l) (set : Finset String) (i : ℕ) :
    i ∈ l.query hashBytes set ↔ ∃ other, sets[i]? = some other ∧ ∃ b < bands, ∃ b' < bands,
      l.bandHash hashBytes (l.minhash.signature hashBytes set) b =
        l.bandHash hashBytes (l.minhash.signature hashBytes other) b' := by
  obtain ⟨-, -, rfl, -, buckets⟩ := filed
  simp only [query, Finset.mem_biUnion, Finset.mem_range, List.mem_toFinset, buckets]
  constructor
  · rintro ⟨b, below, other, found, b', below', same⟩
    exact ⟨other, found, b, below, b', below', same.symm⟩
  · rintro ⟨other, found, b, below, b', below', same⟩
    exact ⟨b, below, other, found, b', below', same.symm⟩

theorem filed_foldl (hashBytes : List UInt8 → Digest) {numHashes bands : ℕ} (sets : List (Finset String)) :
    Filed hashBytes numHashes bands sets (sets.foldl (fun l set => (l.insert hashBytes set).2)
      ⟨.new numHashes, bands, numHashes / bands, ∅⟩) := by
  induction sets using List.reverseRecOn with
  | nil => exact ⟨rfl, rfl, rfl, rfl, fun key i => by simp⟩
  | append_singleton sets set ih =>
    rw [List.foldl_append]
    exact (ih.insert set).2

/-- With more bands than hash functions the bands are empty, and their hashes the same. -/
theorem bandHash_of_rows {l : LSH} (rows : l.rows = 0) (sig sig' : List UInt64) (b b' : ℕ) :
    l.bandHash hashBytes sig b = l.bandHash hashBytes sig' b' := by
  simp [bandHash, rows]

/-- **A query finds the inserted sets that have some band in common with it, in any places**: the hash of a band
does not say which band it is.  A set that was inserted is always found, and with more bands than hash functions
every set is. -/
theorem mem_query_iff (hashBytes : List UInt8 → Digest) (numHashes : ℕ) {bands : ℕ} (positive : 0 < bands)
    (sets : List (Finset String)) :
    ∃ empty, new numHashes bands = some empty ∧
      let l := sets.foldl (fun l set => (l.insert hashBytes set).2) empty
      ∀ set i, (i ∈ l.query hashBytes set ↔ ∃ other, sets[i]? = some other ∧ ∃ b < bands, ∃ b' < bands,
          l.bandHash hashBytes (l.minhash.signature hashBytes set) b =
            l.bandHash hashBytes (l.minhash.signature hashBytes other) b') ∧
        (sets[i]? = some set → i ∈ l.query hashBytes set) ∧
        (numHashes < bands → i < sets.length → i ∈ l.query hashBytes set) := by
  refine ⟨_, if_neg positive.ne', fun set i => ?_⟩
  have filed := @filed_foldl hashBytes numHashes bands sets
  refine ⟨filed.mem_query set i, fun found => ?_, fun few below => ?_⟩
  · exact (filed.mem_query set i).2 ⟨set, found, 0, positive, 0, positive, rfl⟩
  · have rows := filed.rows.trans (Nat.div_eq_of_lt few)
    exact (filed.mem_query set i).2
      ⟨_, List.getElem?_eq_getElem below, 0, positive, 0, positive, bandHash_of_rows rows _ _ _ _⟩

/-- Two bands for one hash function: a query for another set finds it too. -/
theorem mem_query_few :
    ∃ empty, new 1 2 = some empty ∧
      0 ∈ (empty.insert BloomFilter.firstByte {"a"}).2.query BloomFilter.firstByte {"b"} := by
  obtain ⟨empty, made, found⟩ := mem_query_iff BloomFilter.firstByte 1 (by decide : 0 < 2) [{"a"}]
  exact ⟨empty, made, (found {"b"} 0).2.2 (by decide) (by decide)⟩

end LSH

/-! ## SimHash -/

namespace SimHash

/-- An `i64`, in a build that does not check for overflow. -/
def wrap (v : ℤ) : ℤ := v.bmod (2 ^ 64)

/-- The entry of `v` for a bit: the words that have it against those that have not. -/
def balance (weight : ℤ) (hashes : List (BitVec 64)) (i : ℕ) : ℤ :=
  hashes.foldl (fun v h => wrap (if h.getLsbD i then v + weight else v - weight)) 0

/-- The bits with a positive balance. -/
def fingerprint (weight : ℤ) (hashes : List (BitVec 64)) : BitVec 64 :=
  (List.range 64).foldl (fun fp i => if 0 < balance weight hashes i then fp ||| (1#64 <<< i) else fp) 0

-- `hash_bytes`, SHA-256.
variable (hashBytes : List UInt8 → Digest)

/-- The words of a text, as bytes. -/
def terms (text : String) : List (List UInt8) :=
  (splitWhitespace text).map fun word => (String.ofList word).toUTF8.toList

/-- `SimHash::hash`: every word weighs as much as there are words. -/
def hash (text : String) : BitVec 64 :=
  let terms := terms text
  if terms.isEmpty then 0 else fingerprint terms.length (terms.map (HyperLogLog.fullHash hashBytes))

/-- `Fingerprint::simhash`: every token weighs one.  (`sha2token` on a little-endian machine.) -/
def simhash (tokens : List (List UInt8)) : BitVec 64 :=
  fingerprint 1 (tokens.map (HyperLogLog.fullHash hashBytes))

variable {hashBytes}

theorem wrap_eq {v bound : ℤ} (fits : bound < 2 ^ 63) (low : -bound ≤ v) (high : v ≤ bound) : wrap v = v :=
  Int.bmod_eq_of_le (by norm_num; omega) (by norm_num; omega)

/-- Weights that do not overflow together add up. -/
theorem balance_eq {weight : ℤ} (positive : 0 < weight) {hashes : List (BitVec 64)}
    (fits : weight * hashes.length < 2 ^ 63) (i : ℕ) :
    balance weight hashes i = weight * (2 * (hashes.countP (·.getLsbD i) : ℤ) - hashes.length) := by
  induction hashes using List.reverseRecOn with
  | nil => simp [balance]
  | append_singleton hashes h ih =>
    have longer : ((hashes ++ [h]).length : ℤ) = hashes.length + 1 := by simp
    have earlier := ih (lt_of_le_of_lt (mul_le_mul_of_nonneg_left (by omega) positive.le) fits)
    have total : (hashes ++ [h]).countP (·.getLsbD i) =
        hashes.countP (·.getLsbD i) + if h.getLsbD i then 1 else 0 := by
      cases on : h.getLsbD i <;> simp [on]
    have sum : (if h.getLsbD i then balance weight hashes i + weight else balance weight hashes i - weight) =
        weight * (2 * ((hashes ++ [h]).countP (·.getLsbD i) : ℤ) - (hashes ++ [h]).length) := by
      rw [earlier, total, longer]
      cases h.getLsbD i <;> simp <;> ring
    have counted : ((hashes ++ [h]).countP (·.getLsbD i) : ℤ) ≤ (hashes ++ [h]).length := by
      exact_mod_cast List.countP_le_length
    rw [balance, List.foldl_append]
    show wrap (if h.getLsbD i then balance weight hashes i + weight else balance weight hashes i - weight) = _
    rw [sum, wrap_eq fits]
    · rw [← mul_neg]
      exact mul_le_mul_of_nonneg_left (by omega) positive.le
    · exact mul_le_mul_of_nonneg_left (by omega) positive.le

/-- A bit is set exactly when most of the hashes have it, whatever they weigh. -/
theorem getLsbD_fingerprint {weight : ℤ} (positive : 0 < weight) {hashes : List (BitVec 64)}
    (fits : weight * hashes.length < 2 ^ 63) {i : ℕ} (below : i < 64) :
    (fingerprint weight hashes).getLsbD i = decide (hashes.length < 2 * hashes.countP (·.getLsbD i)) := by
  have bits : ∀ n ≤ 64, ((List.range n).foldl (fun fp j =>
      if 0 < balance weight hashes j then fp ||| (1#64 <<< j) else fp) 0).getLsbD i =
        decide (i < n ∧ 0 < balance weight hashes i) := by
    intro n le
    induction n with
    | zero => simp
    | succ n ih =>
      rw [List.range_succ, List.foldl_append, List.foldl_cons, List.foldl_nil]
      have earlier := ih (by omega)
      split_ifs with on
      · rw [BloomFilter.getLsbD_or_bit _ (by omega), earlier, ← Bool.decide_or, decide_eq_decide]
        constructor
        · rintro (⟨less, on'⟩ | rfl)
          · exact ⟨by omega, on'⟩
          · exact ⟨by omega, on⟩
        · rintro ⟨less, on'⟩
          rcases Nat.lt_succ_iff_lt_or_eq.1 less with less | same
          · exact .inl ⟨less, on'⟩
          · exact .inr same
      · rw [earlier, decide_eq_decide]
        constructor
        · exact fun ⟨less, on'⟩ => ⟨by omega, on'⟩
        · rintro ⟨less, on'⟩
          rcases Nat.lt_succ_iff_lt_or_eq.1 less with less | rfl
          · exact ⟨less, on'⟩
          · exact absurd on' on
  rw [fingerprint, bits 64 le_rfl, decide_eq_decide, balance_eq positive fits, mul_pos_iff_of_pos_left positive]
  omega

/-- A text has so few words that the square of their number is an `i64`. -/
def Short (text : String) : Prop := (terms text).length ^ 2 < 2 ^ 63

/-- The bit of a SimHash is that of most of the words. -/
theorem getLsbD_hash {text : String} (short : Short text) {i : ℕ} (below : i < 64) :
    (hash hashBytes text).getLsbD i = decide ((terms text).length <
      2 * (terms text).countP fun word => (HyperLogLog.fullHash hashBytes word).getLsbD i) := by
  rw [hash]
  split_ifs with empty
  · rw [List.isEmpty_iff.1 empty]
    simp
  · have some : 0 < (terms text).length := List.length_pos_iff.2 fun none => empty (by rw [none]; rfl)
    have fits : ((terms text).length : ℤ) * ((terms text).map (HyperLogLog.fullHash hashBytes)).length < 2 ^ 63 := by
      rw [List.length_map, ← sq]
      exact_mod_cast short
    rw [getLsbD_fingerprint (by omega) fits below, List.length_map, List.countP_map]
    rfl

theorem getLsbD_simhash {text : String} (short : Short text) {i : ℕ} (below : i < 64) :
    (simhash hashBytes (terms text)).getLsbD i = decide ((terms text).length <
      2 * (terms text).countP fun word => (HyperLogLog.fullHash hashBytes word).getLsbD i) := by
  have fits : (1 : ℤ) * ((terms text).map (HyperLogLog.fullHash hashBytes)).length < 2 ^ 63 := by
    rw [List.length_map, one_mul]
    exact_mod_cast (Nat.le_self_pow (by decide) _).trans_lt short
  rw [simhash, getLsbD_fingerprint (by decide) fits below, List.length_map, List.countP_map]
  rfl

/-- **A text and a text with the same words in the same proportions, in any order, have the same SimHash**, and it is
the one of the knowledge core for the same words. -/
theorem hash_eq (hashBytes : List UInt8 → Digest) {text : String} (short : Short text) :
    hash hashBytes text = simhash hashBytes (terms text) ∧
      ∀ (other : String) (k m : ℕ), Short other → 0 < k → 0 < m →
        k • (terms text : Multiset (List UInt8)) = m • (terms other : Multiset (List UInt8)) →
          hash hashBytes text = hash hashBytes other := by
  refine ⟨?_, fun other k m short' hk hm proportional => ?_⟩
  · refine BitVec.eq_of_getLsbD_eq fun i below => ?_
    rw [getLsbD_hash short below, getLsbD_simhash short below]
  · refine BitVec.eq_of_getLsbD_eq fun i below => ?_
    rw [getLsbD_hash short below, getLsbD_hash short' below, decide_eq_decide]
    have lengths := congrArg Multiset.card proportional
    have counts := congrArg (Multiset.countP fun word => (HyperLogLog.fullHash hashBytes word).getLsbD i = true)
      proportional
    simp only [Multiset.card_nsmul, Multiset.countP_nsmul, Multiset.coe_card, Multiset.coe_countP] at lengths counts
    simp only [Bool.decide_eq_true] at counts
    have scaled : ∀ {n a b : ℕ}, 0 < n → (a < 2 * b ↔ n * a < 2 * (n * b)) := fun {n a b} positive => by
      rw [← Nat.mul_left_comm n 2 b, Nat.mul_lt_mul_left positive]
    refine (scaled hk).trans (Iff.trans ?_ (scaled hm).symm)
    rw [lengths, counts]

instance (text : String) : Decidable (Short text) := inferInstanceAs (Decidable (_ < _))

/-- Each word once, and each word twice. -/
theorem hash_eq_twice : hash BloomFilter.firstByte "a b" = hash BloomFilter.firstByte "b a b a" :=
  (hash_eq BloomFilter.firstByte (by decide +kernel)).2 "b a b a" 2 1 (by decide +kernel) (by decide) (by decide)
    (by decide +kernel)

end SimHash

end TORdex
