import Mathlib.Data.List.Infix
import Mathlib.Data.List.Sort
import TORdex.Core.Json
import TORdex.Lib.EditDistance
import TORdex.Lib.FiniteMap

/-!
# Identity resolution

The alias index of the resolver is only ever written: it names for an alias the last identity that was
registered with it, also after that identity has been registered again without it.  A fuzzy resolution lists the
aliases of this index within an edit distance.
-/

namespace TORdex.KnowledgeBase

/-- A resolved entity identity. -/
structure ResolvedIdentity where
  canonicalId : String
  /-- All known aliases for this entity, keyed by source namespace. -/
  aliases : HashMap String String
  createdAt : OffsetDateTime

/-- The identities, and the index of their aliases. -/
structure IdentityResolver where
  resolved : HashMap String ResolvedIdentity
  /-- Namespace and value to canonical id. -/
  aliasIndex : HashMap (String × String) String

namespace IdentityResolver

/-- A resolver without identities. -/
def new : IdentityResolver := ⟨∅, ∅⟩

/-- Register a known resolution. -/
def register (r : IdentityResolver) (identity : ResolvedIdentity) : IdentityResolver where
  resolved := r.resolved.insert identity.canonicalId identity
  aliasIndex := FiniteMap.insertAll r.aliasIndex identity.aliases identity.canonicalId

/-- Try to resolve an identifier to a canonical entity. -/
def resolve (r : IdentityResolver) (ns value : String) : Option String := r.aliasIndex.lookup (ns, value)

theorem resolve_register (r : IdentityResolver) (identity : ResolvedIdentity) (ns value : String) :
    (r.register identity).resolve ns value =
      if identity.aliases.lookup ns = some value then some identity.canonicalId else r.resolve ns value :=
  FiniteMap.lookup_insertAll _ _ _

/-- The resolver after some registrations. -/
def run (calls : List ResolvedIdentity) : IdentityResolver := calls.foldl register new

theorem run_concat (calls : List ResolvedIdentity) (i : ResolvedIdentity) :
    run (calls ++ [i]) = (run calls).register i :=
  List.foldl_concat _ _ _ _

end IdentityResolver

open IdentityResolver

/-! ## The current identities -/

/-- The identity that is registered for a canonical id: the last one. -/
def currentIdentity (calls : List ResolvedIdentity) (c : String) : Option ResolvedIdentity :=
  calls.reverse.find? fun i => i.canonicalId == c

/-- The identity currently registered for `c` has the alias. -/
def HasAlias (calls : List ResolvedIdentity) (c ns value : String) : Prop :=
  ∃ i, currentIdentity calls c = some i ∧ i.aliases.lookup ns = some value

/-- No two current identities share an alias. -/
def Apart (calls : List ResolvedIdentity) : Prop :=
  ∀ c c' ns value, HasAlias calls c ns value → HasAlias calls c' ns value → c = c'

variable {calls : List ResolvedIdentity} {i : ResolvedIdentity} {c ns value : String}

theorem currentIdentity_concat :
    currentIdentity (calls ++ [i]) c = if i.canonicalId = c then some i else currentIdentity calls c := by
  rw [currentIdentity, List.reverse_append, List.reverse_singleton, List.singleton_append, List.find?_cons]
  split_ifs with same
  · simp [same]
  · simp [beq_false_of_ne same, currentIdentity]

theorem hasAlias_concat : HasAlias (calls ++ [i]) c ns value ↔
    (i.canonicalId = c ∧ i.aliases.lookup ns = some value) ∨
      (i.canonicalId ≠ c ∧ HasAlias calls c ns value) := by
  rw [HasAlias, currentIdentity_concat]
  split_ifs with same
  · simp [same]
  · simp [same, HasAlias]

/-- What is resolved was once registered. -/
theorem exists_mem_of_resolve (found : (run calls).resolve ns value = some c) :
    ∃ i ∈ calls, i.canonicalId = c ∧ i.aliases.lookup ns = some value := by
  induction calls using List.reverseRecOn with
  | nil => cases found
  | append_singleton calls i ih =>
    rw [run_concat, resolve_register] at found
    split_ifs at found with own
    · exact ⟨i, List.mem_append_right _ List.mem_cons_self, Option.some.inj found, own⟩
    · obtain ⟨j, mem, named⟩ := ih found
      exact ⟨j, List.mem_append_left _ mem, named⟩

theorem isSome_resolve_of_mem (mem : i ∈ calls) (has : i.aliases.lookup ns = some value) :
    ((run calls).resolve ns value).isSome := by
  induction calls using List.reverseRecOn with
  | nil => cases mem
  | append_singleton calls j ih =>
    rw [run_concat, resolve_register]
    split_ifs with own
    · rfl
    · rcases List.mem_append.1 mem with old | last
      · exact ih old
      · exact absurd (List.mem_singleton.1 last ▸ has) own

/-- The aliases of the current identities are resolved. -/
theorem resolve_of_hasAlias (apart : ∀ earlier, earlier <+: calls → Apart earlier)
    (has : HasAlias calls c ns value) : (run calls).resolve ns value = some c := by
  induction calls using List.reverseRecOn with
  | nil =>
    obtain ⟨i, found, -⟩ := has
    cases found
  | append_singleton calls i ih =>
    have before := List.prefix_append calls [i]
    rw [run_concat, resolve_register]
    split_ifs with own
    · have new : HasAlias (calls ++ [i]) i.canonicalId ns value := hasAlias_concat.2 (.inl ⟨rfl, own⟩)
      rw [apart _ List.prefix_rfl _ _ _ _ new has]
    · rcases hasAlias_concat.1 has with ⟨-, now⟩ | ⟨-, old⟩
      · exact absurd now own
      · exact ih (fun earlier h => apart earlier (h.trans before)) old

/-- Resolution follows the current identities exactly when no alias has been left behind: each one that was
ever registered is an alias of a current identity. -/
theorem resolve_follows_iff (calls : List ResolvedIdentity)
    (apart : ∀ earlier, earlier <+: calls → Apart earlier) :
    (∀ ns value c, (run calls).resolve ns value = some c ↔ HasAlias calls c ns value) ↔
      ∀ i ∈ calls, ∀ ns value, i.aliases.lookup ns = some value → ∃ c, HasAlias calls c ns value := by
  constructor
  · intro follows i mem ns value has
    obtain ⟨c, found⟩ := Option.isSome_iff_exists.1 (isSome_resolve_of_mem mem has)
    exact ⟨c, (follows ns value c).1 found⟩
  · intro kept ns value c
    refine ⟨fun found => ?_, resolve_of_hasAlias apart⟩
    obtain ⟨i, mem, -, has⟩ := exists_mem_of_resolve found
    obtain ⟨c', current⟩ := kept i mem ns value has
    have named := resolve_of_hasAlias apart current
    rw [found, Option.some.injEq] at named
    exact named ▸ current

/-- One identity shares no alias with another one. -/
theorem apart_of_forall_eq {c : String} (same : ∀ i ∈ calls, i.canonicalId = c) :
    ∀ earlier, earlier <+: calls → Apart earlier := by
  have own : ∀ earlier, earlier <+: calls → ∀ c' ns value, HasAlias earlier c' ns value → c' = c := by
    rintro earlier before c' ns value ⟨i, current, -⟩
    have mem := before.subset (List.mem_reverse.1 (List.mem_of_find?_eq_some current))
    have named : i.canonicalId = c' := by simpa using List.find?_some current
    exact named.symm.trans (same i mem)
  intro earlier before c₁ c₂ ns value h₁ h₂
  rw [own earlier before _ _ _ h₁, own earlier before _ _ _ h₂]

/-- An identity with one address. -/
def addressOf (canonicalId address : String) (createdAt : OffsetDateTime) : ResolvedIdentity :=
  ⟨canonicalId, Finmap.singleton "email" address, createdAt⟩

/-- An address of a person. -/
def oldAddress : ResolvedIdentity := addressOf "ent_001" "old@example.com" 0

/-- Another address of the same person. -/
def newAddress : ResolvedIdentity := addressOf "ent_001" "new@example.com" 1

/-- Another identity takes the address that was left behind. -/
def takenAddress : ResolvedIdentity := addressOf "ent_002" "old@example.com" 2

theorem lookup_addressOf {address : String} {at' : OffsetDateTime} :
    (addressOf c address at').aliases.lookup ns = some value ↔ ns = "email" ∧ value = address := by
  by_cases same : ns = "email"
  · subst same
    simp [addressOf, eq_comm]
  · have absent : ns ∉ Finmap.singleton (β := fun _ => String) "email" address := by simpa using same
    rw [addressOf, Finmap.lookup_eq_none.2 absent]
    simp [same]

theorem hasAlias_taken : HasAlias [oldAddress, newAddress, takenAddress] c ns value ↔
    ns = "email" ∧ (c = "ent_002" ∧ value = "old@example.com" ∨ c = "ent_001" ∧ value = "new@example.com") := by
  rw [show [oldAddress, newAddress, takenAddress] = [oldAddress, newAddress] ++ [takenAddress] from rfl,
    hasAlias_concat, show [oldAddress, newAddress] = [oldAddress] ++ [newAddress] from rfl, hasAlias_concat,
    show [oldAddress] = [] ++ [oldAddress] from rfl, hasAlias_concat]
  have none : ¬HasAlias [] c ns value := fun ⟨i, found, _⟩ => nomatch found
  simp only [oldAddress, newAddress, takenAddress, lookup_addressOf, none]
  constructor
  · rintro (⟨rfl, rfl, rfl⟩ | ⟨-, ⟨rfl, rfl, rfl⟩ | ⟨other, ⟨rfl, -⟩ | ⟨-, ⟨⟩⟩⟩⟩)
    · exact ⟨rfl, .inl ⟨rfl, rfl⟩⟩
    · exact ⟨rfl, .inr ⟨rfl, rfl⟩⟩
    · exact absurd rfl other
  · rintro ⟨rfl, ⟨rfl, rfl⟩ | ⟨rfl, rfl⟩⟩
    · exact .inl ⟨rfl, rfl, rfl⟩
    · exact .inr ⟨by simp [addressOf], .inl ⟨rfl, rfl, rfl⟩⟩

/-- The address resolves to the identity that took it. -/
theorem resolve_follows_taken :
    (∀ ns value c, (run [oldAddress, newAddress, takenAddress]).resolve ns value = some c ↔
      HasAlias [oldAddress, newAddress, takenAddress] c ns value) ↔
      ∀ i ∈ [oldAddress, newAddress, takenAddress], ∀ ns value, i.aliases.lookup ns = some value →
        ∃ c, HasAlias [oldAddress, newAddress, takenAddress] c ns value := by
  refine resolve_follows_iff _ fun earlier before => ?_
  rcases List.prefix_concat_iff.1 (show earlier <+: [oldAddress, newAddress] ++ [takenAddress] from before) with
    rfl | before
  · intro c c' ns value has has'
    obtain ⟨-, ⟨rfl, rfl⟩ | ⟨rfl, rfl⟩⟩ := hasAlias_taken.1 has <;>
      obtain ⟨-, ⟨rfl, same⟩ | ⟨rfl, same⟩⟩ := hasAlias_taken.1 has' <;> first | rfl | exact absurd same (by decide)
  · exact apart_of_forall_eq (c := "ent_001") (by decide) earlier before

/-- An identity is registered again with another address: the old one still resolves to it. -/
theorem resolve_stale :
    (∀ earlier, earlier <+: [oldAddress, newAddress] → Apart earlier) ∧
      (run [oldAddress, newAddress]).resolve "email" "old@example.com" = some "ent_001" ∧
      ¬HasAlias [oldAddress, newAddress] "ent_001" "email" "old@example.com" := by
  refine ⟨apart_of_forall_eq (c := "ent_001") (by decide), by decide, ?_⟩
  rintro ⟨i, current, has⟩
  cases current
  exact absurd has (by decide)

/-! ## Fuzzy resolution -/

open EditDistance

/-- A `u32`, in a build that does not check for overflow. -/
def asU32 (n : ℕ) : ℕ := n % 2 ^ 32

/-- `curr[j]` for the `j` behind `left`, with `prev[j - 1]` and `prev[j]` ahead in `prev`. -/
def fillRow (x : UInt8) (left : ℕ) : List ℕ → List UInt8 → List ℕ
  | diag :: up :: prev, y :: b =>
    let cost := if x = y then 0 else 1
    let cell := min (min (asU32 (left + 1)) (asU32 (up + 1))) (asU32 (diag + cost))
    cell :: fillRow x cell (up :: prev) b
  | _, _ => []

/-- The last cell of the last row. -/
def levenshteinDistance (a b : List UInt8) : ℕ :=
  let prev := (a.zipIdx 1).foldl (fun prev (x, i) => asU32 i :: fillRow x (asU32 i) prev b)
    (List.range (asU32 b.length + 1))
  prev[b.length]?.getD 0

/-- `str::as_bytes`. -/
def asBytes (s : String) : List UInt8 := s.toUTF8.toList

/-- Every distance from the text, and the one after it, is a `u32`. -/
def Short (s : String) : Prop := (asBytes s).length + 1 < 2 ^ 32

instance (s : String) : Decidable (Short s) := inferInstanceAs (Decidable (_ < _))

/-- The entries of the alias index come in the order of its keys; the namespace is not looked at. -/
def IdentityResolver.fuzzyResolve (r : IdentityResolver) (keys : List (String × String)) (_ns value : String)
    (threshold : ℕ) : List (String × ℕ) :=
  let results := keys.filterMap fun k => do
    let cid ← r.aliasIndex.lookup k
    let dist := levenshteinDistance (asBytes value) (asBytes k.2)
    if dist ≤ threshold then some (s!"{k.1}:{k.2}:{cid}", dist) else none
  results.mergeSort fun a b => a.2 ≤ b.2

/-! ### The rows -/

/-- The distances from a text to all beginnings of another, from one of them on. -/
inductive IsRow (a : List UInt8) : List UInt8 → List UInt8 → List ℕ → Prop
  | last {start : List UInt8} {d : ℕ} : IsDistance a start d → IsRow a start [] [d]
  | cons {start b : List UInt8} {y : UInt8} {d : ℕ} {row : List ℕ} :
      IsDistance a start d → IsRow a (start ++ [y]) b row → IsRow a start (y :: b) (d :: row)

section Rows

variable {a b start : List UInt8} {x : UInt8} {row : List ℕ} {left : ℕ}

theorem IsRow.head (h : IsRow a start b row) : ∃ d rest, row = d :: rest ∧ IsDistance a start d := by
  cases h with
  | last distance => exact ⟨_, _, rfl, distance⟩
  | cons distance _ => exact ⟨_, _, rfl, distance⟩

theorem asU32_eq {n : ℕ} (fits : n < 2 ^ 32) : asU32 n = n := Nat.mod_eq_of_lt fits

theorem IsRow.fill (rows : a.length + 2 < 2 ^ 32) (columns : (start ++ b).length + 1 < 2 ^ 32)
    (prev : IsRow a start b row) (first : IsDistance (a ++ [x]) start left) :
    IsRow (a ++ [x]) start b (left :: fillRow x left row b) := by
  induction prev generalizing left with
  | last _ => exact .last first
  | @cons start b y diag row' diagDistance rest ih =>
    obtain ⟨up, prev, rfl, upDistance⟩ := rest.head
    have cell := first.snoc upDistance diagDistance
    have bounds := And.intro first.le_max (And.intro upDistance.le_max diagDistance.le_max)
    simp only [List.length_append, List.length_cons, List.length_nil] at bounds columns
    have same : min (min (asU32 (left + 1)) (asU32 (up + 1))) (asU32 (diag + if x = y then 0 else 1)) =
        min (min (left + 1) (up + 1)) (diag + if x = y then 0 else 1) := by
      have one : (if x = y then 0 else 1) ≤ 1 := by split_ifs <;> decide
      rw [asU32_eq (by omega), asU32_eq (by omega), asU32_eq (by omega)]
    refine .cons first ?_
    show IsRow (a ++ [x]) (start ++ [y]) b (_ :: fillRow x _ _ b)
    rw [same]
    exact ih (by simp; omega) cell

theorem isRow_range' (start b : List UInt8) : IsRow [] start b (List.range' start.length (b.length + 1)) := by
  induction b generalizing start with
  | nil => exact .last (isDistance_nil_left start)
  | cons y b ih =>
    have next := ih (start ++ [y])
    rw [List.length_append, List.length_singleton] at next
    exact .cons (isDistance_nil_left start) next

theorem IsRow.getElem? (h : IsRow a start b row) : ∃ d, row[b.length]? = some d ∧ IsDistance a (start ++ b) d := by
  induction h with
  | last distance => exact ⟨_, rfl, (List.append_nil _).symm ▸ distance⟩
  | cons _ _ ih =>
    obtain ⟨d, found, distance⟩ := ih
    exact ⟨d, found, by rwa [List.append_assoc, List.singleton_append] at distance⟩

theorem isRow_foldl (rows : a.length + 1 < 2 ^ 32) (columns : b.length + 1 < 2 ^ 32) : IsRow a [] b
    ((a.zipIdx 1).foldl (fun prev (x, i) => asU32 i :: fillRow x (asU32 i) prev b)
      (List.range (asU32 b.length + 1))) := by
  induction a using List.reverseRecOn with
  | nil =>
    rw [asU32_eq (by omega), List.range_eq_range']
    exact isRow_range' [] b
  | append_singleton a x ih =>
    have length := isDistance_nil_right (a ++ [x])
    rw [List.length_append, List.length_singleton] at rows length
    have index : asU32 (1 + a.length) = a.length + 1 := by
      rw [Nat.add_comm, asU32_eq (by omega)]
    rw [List.zipIdx_append, List.foldl_append]
    show IsRow (a ++ [x]) [] b (asU32 (1 + a.length) :: fillRow x (asU32 (1 + a.length)) _ b)
    rw [index]
    exact (ih (by omega)).fill (by omega) columns length

/-- The rows compute the edit distance. -/
theorem isDistance_levenshteinDistance (rows : a.length + 1 < 2 ^ 32) (columns : b.length + 1 < 2 ^ 32) :
    IsDistance a b (levenshteinDistance a b) := by
  obtain ⟨d, found, distance⟩ := (isRow_foldl rows columns).getElem?
  rw [levenshteinDistance, found]
  exact distance

end Rows

/-! ### The matches -/

/-- The identity that was registered last with an alias. -/
def lastNamed (calls : List ResolvedIdentity) (k : String × String) : Option ResolvedIdentity :=
  calls.reverse.find? fun i => i.aliases.lookup k.1 = some k.2

theorem lookup_aliasIndex_run (k : String × String) :
    (run calls).aliasIndex.lookup k = (lastNamed calls k).map (·.canonicalId) := by
  induction calls using List.reverseRecOn with
  | nil => rfl
  | append_singleton calls i ih =>
    rw [run_concat, lastNamed, List.reverse_append, List.reverse_singleton, List.singleton_append, List.find?_cons]
    refine (resolve_register _ i k.1 k.2).trans ?_
    by_cases own : i.aliases.lookup k.1 = some k.2
    · simp [own]
    · simp only [own, ↓reduceIte, decide_false]
      exact ih

/-- What a fuzzy resolution says of an alias. -/
def result (calls : List ResolvedIdentity) (value : String) (k : String × String) : String × ℕ :=
  let cid := ((lastNamed calls k).map (·.canonicalId)).getD ""
  (s!"{k.1}:{k.2}:{cid}", levenshteinDistance (asBytes value) (asBytes k.2))

theorem fuzzyResolve_eq {keys : List (String × String)} (mem : ∀ k, k ∈ keys ↔ (lastNamed calls k).isSome)
    (ns value : String) (threshold : ℕ) :
    (run calls).fuzzyResolve keys ns value threshold =
      ((keys.filter fun k => levenshteinDistance (asBytes value) (asBytes k.2) ≤ threshold).map
        (result calls value)).mergeSort fun a b => a.2 ≤ b.2 := by
  rw [fuzzyResolve, ← List.filterMap_eq_map, List.filterMap_filter]
  refine congrArg (List.mergeSort · _) (List.filterMap_congr fun k inside => ?_)
  obtain ⟨i, named⟩ := Option.isSome_iff_exists.1 ((mem k).1 inside)
  rw [lookup_aliasIndex_run, named]
  simp [result, named]

/-- **A fuzzy resolution lists the aliases ever registered, of every namespace, that are within the edit distance**,
each once with the identity registered last with it, the nearest first. -/
theorem fuzzyResolve_spec {calls : List ResolvedIdentity}
    (shorts : ∀ i ∈ calls, ∀ ns text, i.aliases.lookup ns = some text → Short text) {value : String}
    (short : Short value) {keys : List (String × String)}
    (listed : (keys : Multiset (String × String)) = (run calls).aliasIndex.keys.val) (ns : String) (threshold : ℕ) :
    ∃ hits : List (String × String), hits.Nodup ∧
      (∀ k, k ∈ hits ↔ (lastNamed calls k).isSome ∧
        ∃ d ≤ threshold, IsDistance (asBytes value) (asBytes k.2) d) ∧
      List.Forall₂ (fun k match' => ∃ i, lastNamed calls k = some i ∧
        match'.1 = s!"{k.1}:{k.2}:{i.canonicalId}" ∧ IsDistance (asBytes value) (asBytes k.2) match'.2)
        hits ((run calls).fuzzyResolve keys ns value threshold) ∧
      ((run calls).fuzzyResolve keys ns value threshold).Pairwise fun a b => a.2 ≤ b.2 := by
  let near : String × String → ℕ := fun k => levenshteinDistance (asBytes value) (asBytes k.2)
  have mem : ∀ k, k ∈ keys ↔ (lastNamed calls k).isSome := fun k => by
    rw [← Multiset.mem_coe, listed, Finset.mem_val, Finmap.mem_keys, ← Finmap.lookup_isSome,
      lookup_aliasIndex_run, Option.isSome_map]
  have nodup : keys.Nodup := Multiset.coe_nodup.1 (listed ▸ (run calls).aliasIndex.keys.nodup)
  have exact : ∀ k, (lastNamed calls k).isSome → IsDistance (asBytes value) (asBytes k.2) (near k) := fun k named => by
    obtain ⟨i, named⟩ := Option.isSome_iff_exists.1 named
    have has : i.aliases.lookup k.1 = some k.2 := by simpa using List.find?_some named
    exact isDistance_levenshteinDistance short
      (shorts i (List.mem_reverse.1 (List.mem_of_find?_eq_some named)) k.1 k.2 has)
  have within : ∀ k, (lastNamed calls k).isSome →
      (near k ≤ threshold ↔ ∃ d ≤ threshold, IsDistance (asBytes value) (asBytes k.2) d) := fun k named =>
    ⟨fun le => ⟨_, le, exact k named⟩, fun ⟨_, le, distance⟩ => ((exact k named).unique distance).trans_le le⟩
  refine ⟨(keys.filter (near · ≤ threshold)).mergeSort fun a b => near a ≤ near b, ?_, fun k => ?_, ?_, ?_⟩
  · exact (List.mergeSort_perm _ _).nodup_iff.2 (nodup.filter _)
  · rw [List.mem_mergeSort, List.mem_filter, mem, decide_eq_true_eq]
    exact and_congr_right (within k)
  · have results : (run calls).fuzzyResolve keys ns value threshold =
        ((keys.filter (near · ≤ threshold)).mergeSort fun a b => near a ≤ near b).map (result calls value) :=
      (fuzzyResolve_eq mem ns value threshold).trans
        (List.map_mergeSort (f := result calls value) (s := fun a b => a.2 ≤ b.2) fun _ _ _ _ => rfl).symm
    rw [results, List.forall₂_map_right_iff, List.forall₂_same]
    intro k hit
    have found := (mem k).1 (List.mem_filter.1 (List.mem_mergeSort.1 hit)).1
    obtain ⟨i, named⟩ := Option.isSome_iff_exists.1 found
    exact ⟨i, named, by rw [result, named]; rfl, exact k found⟩
  · have trans : ∀ a b c : String × ℕ, decide (a.2 ≤ b.2) = true → decide (b.2 ≤ c.2) = true →
        decide (a.2 ≤ c.2) = true := fun a b c => by simpa using Nat.le_trans
    have total : ∀ a b : String × ℕ, (decide (a.2 ≤ b.2) || decide (b.2 ≤ a.2)) = true :=
      fun a b => by simpa using Nat.le_total a.2 b.2
    exact (List.pairwise_mergeSort trans total _).imp of_decide_eq_true

/-- Two identities had the address one after the other, and one of them has a new one; the namespace of the query is
not looked at. -/
theorem fuzzyResolve_spec_phone : ∃ hits : List (String × String), hits.Nodup ∧
    (∀ k, k ∈ hits ↔ (lastNamed [oldAddress, newAddress, takenAddress] k).isSome ∧
      ∃ d ≤ 3, IsDistance (asBytes "odd@example.com") (asBytes k.2) d) ∧
    List.Forall₂ (fun k match' => ∃ i, lastNamed [oldAddress, newAddress, takenAddress] k = some i ∧
      match'.1 = s!"{k.1}:{k.2}:{i.canonicalId}" ∧ IsDistance (asBytes "odd@example.com") (asBytes k.2) match'.2)
      hits ((run [oldAddress, newAddress, takenAddress]).fuzzyResolve
        [("email", "new@example.com"), ("email", "old@example.com")] "phone" "odd@example.com" 3) ∧
    ((run [oldAddress, newAddress, takenAddress]).fuzzyResolve
      [("email", "new@example.com"), ("email", "old@example.com")] "phone" "odd@example.com" 3).Pairwise
      fun a b => a.2 ≤ b.2 := by
  refine fuzzyResolve_spec (fun i mem ns value has => ?_) (by decide +kernel) (by decide) "phone" 3
  have named : value = "old@example.com" ∨ value = "new@example.com" := by
    simp only [List.mem_cons, List.not_mem_nil, or_false] at mem
    rcases mem with rfl | rfl | rfl
    · exact .inl (lookup_addressOf.1 has).2
    · exact .inr (lookup_addressOf.1 has).2
    · exact .inl (lookup_addressOf.1 has).2
  rcases named with rfl | rfl <;> decide +kernel

end TORdex.KnowledgeBase
