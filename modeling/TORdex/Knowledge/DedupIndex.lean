import TORdex.Knowledge.Duplicates
import TORdex.Lib.FirstMax
import TORdex.Lib.InverseIndex
import TORdex.Lib.Runs

/-!
# The deduplication index

What a run of `register` and `unregister` calls leaves registered, and when the three indexes of the engine
still answer for it.
-/

namespace TORdex.KnowledgeBase

/-- What is found stays found when entries in front of it are dropped. -/
theorem find?_filter_of_find? {α : Type*} {p q : α → Bool} {l : List α} {a : α} (h : l.find? q = some a)
    (ha : p a) : (l.filter p).find? q = some a := by
  obtain ⟨hq, before, after, rfl, others⟩ := List.find?_eq_some_iff_append.1 h
  rw [List.filter_append, List.filter_cons_of_pos ha]
  exact List.find?_eq_some_iff_append.2
    ⟨hq, _, _, rfl, fun x mem => others x (List.mem_filter.1 mem).1⟩

/-! ## Fingerprints and distances -/

theorem length_hexEncode (bytes : List UInt8) : (hexEncode bytes).length = 2 * bytes.length := by
  have each : ∀ b ∈ bytes,
      [Json.hexDigit (b.toNat / 16), Json.hexDigit (b.toNat % 16)].length = 2 := fun _ _ => rfl
  rw [hexEncode, String.length_ofList, List.length_flatMap, List.map_congr_left each, List.map_const',
    List.sum_replicate_nat, mul_comm]

theorem hex_simHash_injective {a b : UInt64} (h : (Fingerprint.simHash a).hex = (Fingerprint.simHash b).hex) :
    a = b := by
  have digits := List.map_inj_left.1 (String.ofList_injective h)
  have same : ∀ i < 16, a.toNat / 16 ^ i % 16 = b.toNat / 16 ^ i % 16 := by
    intro i below
    have digit := digits (15 - i) (List.mem_range.2 (by omega))
    rw [Nat.sub_sub_self (by omega : i ≤ 15)] at digit
    exact hexDigit_injective (Nat.mod_lt _ (by omega)) (Nat.mod_lt _ (by omega)) digit
  have prefixes : ∀ n ≤ 16, a.toNat % 16 ^ n = b.toNat % 16 ^ n := by
    intro n le
    induction n with
    | zero => simp [Nat.mod_one]
    | succ n ih => rw [Nat.mod_pow_succ, Nat.mod_pow_succ, ih (by omega), same n (by omega)]
  have whole := prefixes 16 le_rfl
  rw [show (16 : ℕ) ^ 16 = 2 ^ 64 by decide] at whole
  rw [Nat.mod_eq_of_lt a.toNat_lt, Nat.mod_eq_of_lt b.toNat_lt] at whole
  exact UInt64.toNat_inj.1 whole

theorem Fingerprint.hex_injective : Function.Injective Fingerprint.hex := by
  intro a b h
  have length := congrArg String.length h
  cases a <;> cases b
  case sha256.sha256 => rw [hex_sha256_injective h]
  case simHash.simHash => rw [hex_simHash_injective h]
  case contentHash.contentHash => rw [Vector.toList_inj.1 (hexEncode_injective h)]
  all_goals simp [Fingerprint.hex, length_hexEncode] at length

namespace DedupEngine

theorem hamming_eq_zero_iff {a b : UInt64} : hamming a b = 0 ↔ a = b := by
  rw [hamming, List.countP_eq_zero]
  constructor
  · intro none
    have zero : (a ^^^ b).toNat = 0 := by
      refine Nat.eq_of_testBit_eq fun i => ?_
      rw [Nat.zero_testBit]
      by_cases below : i < 64
      · simpa using none i (List.mem_range.2 below)
      · exact Nat.testBit_lt_two_pow
          ((a ^^^ b).toNat_lt.trans_le (Nat.pow_le_pow_right (by omega) (by omega)))
    exact UInt64.xor_eq_zero_iff.1 (UInt64.toNat_inj.1 zero)
  · rintro rfl
    simp

end DedupEngine

/-! ## What is registered -/

/-- The SimHash of a fingerprint that is one. -/
def Fingerprint.asSimHash : Fingerprint → Option UInt64
  | .simHash h => some h
  | _ => none

@[simp] theorem Fingerprint.asSimHash_eq_some_iff {fp : Fingerprint} {h : UInt64} :
    fp.asSimHash = some h ↔ fp = .simHash h := by
  cases fp <;> simp [asSimHash]

/-- A call that changes the engine. -/
inductive DedupCall where
  | register (knowledgeId : String) (fingerprint : Fingerprint)
  | unregister (knowledgeId : String)

/-- The effect of a call. -/
def DedupEngine.after (d : DedupEngine) : DedupCall → DedupEngine
  | .register knowledgeId fingerprint => d.register knowledgeId fingerprint
  | .unregister knowledgeId => d.unregister knowledgeId

/-- The engine after some calls. -/
def dedupRun (calls : List DedupCall) : DedupEngine := calls.foldl DedupEngine.after .new

/-- The registrations of the ids that have not been unregistered since, oldest first. -/
abbrev Registrations := List (String × Fingerprint)

/-- What stands after a call. -/
def Registrations.after (regs : Registrations) : DedupCall → Registrations
  | .register knowledgeId fingerprint => regs ++ [(knowledgeId, fingerprint)]
  | .unregister knowledgeId => regs.filter fun e => e.1 != knowledgeId

/-- What stands after some calls. -/
def standing (calls : List DedupCall) : Registrations := calls.foldl Registrations.after []

namespace Registrations

variable (regs : Registrations) (id : String) (fp : Fingerprint)

/-- The latest fingerprint of a registered id. -/
def latest : Option Fingerprint := (regs.reverse.find? fun e => e.1 == id).map (·.2)

/-- The id that was registered last with a fingerprint. -/
def lastWith : Option String := (regs.reverse.find? fun e => decide (e.2 = fp)).map (·.1)

/-- The id that was registered first with a fingerprint. -/
def firstWith : Option String := (regs.find? fun e => decide (e.2 = fp)).map (·.1)

/-- The SimHashes, as the engine lists them. -/
def simhashes : List (String × UInt64) :=
  regs.filterMap fun e => e.2.asSimHash.map fun h => (e.1, h)

variable {regs id fp} {id' : String} {f : Fingerprint}

theorem latest_register :
    (regs.after (.register id fp)).latest id' = if id' = id then some fp else regs.latest id' := by
  rw [latest, after, List.reverse_append, List.reverse_singleton, List.singleton_append, List.find?_cons]
  split_ifs with same
  · simp [same]
  · simp [beq_false_of_ne (Ne.symm same), latest]

theorem latest_unregister :
    (regs.after (.unregister id)).latest id' = if id' = id then none else regs.latest id' := by
  rw [latest, after, ← List.filter_reverse]
  split_ifs with same
  · rw [List.find?_eq_none.2, Option.map_none]
    intro e mem
    have other := (List.mem_filter.1 mem).2
    simpa [same] using other
  · have agree : ∀ e : String × Fingerprint, decide ((e.1 != id) = true ∧ (e.1 == id') = true) =
      (e.1 == id') := by
      intro e
      by_cases own : e.1 = id'
      · simp [own, same]
      · simp [own]
    rw [List.find?_filter, latest]
    exact congrArg _ (congrArg (List.find? · _) (funext agree))

theorem mem_of_latest (h : regs.latest id = some fp) : (id, fp) ∈ regs := by
  obtain ⟨e, found, rfl⟩ := Option.map_eq_some_iff.1 h
  have own : e.1 = id := by simpa using List.find?_some found
  rw [← own]
  exact List.mem_reverse.1 (List.mem_of_find?_eq_some found)

theorem lastWith_register :
    (regs.after (.register id fp)).lastWith f = if fp = f then some id else regs.lastWith f := by
  rw [lastWith, after, List.reverse_append, List.reverse_singleton, List.singleton_append, List.find?_cons]
  split_ifs with same <;> simp [same, lastWith]

theorem lastWith_unregister (h : regs.lastWith f = some id') (ne : id' ≠ id) :
    (regs.after (.unregister id)).lastWith f = some id' := by
  obtain ⟨e, found, rfl⟩ := Option.map_eq_some_iff.1 h
  rw [lastWith, after, ← List.filter_reverse, find?_filter_of_find? found (by simpa using ne),
    Option.map_some]

theorem firstWith_register :
    (regs.after (.register id fp)).firstWith f =
      (regs.firstWith f).or (if fp = f then some id else none) := by
  rw [firstWith, after, List.find?_append, Option.map_or, firstWith]
  split_ifs with same <;> simp [same]

theorem firstWith_unregister (h : regs.firstWith f = some id') (ne : id' ≠ id) :
    (regs.after (.unregister id)).firstWith f = some id' := by
  obtain ⟨e, found, rfl⟩ := Option.map_eq_some_iff.1 h
  rw [firstWith, after, find?_filter_of_find? found (by simpa using ne), Option.map_some]

theorem firstWith_eq_none_iff : regs.firstWith f = none ↔ ∀ id, (id, f) ∉ regs := by
  rw [firstWith, Option.map_eq_none_iff, List.find?_eq_none]
  constructor
  · intro none id mem
    simpa using none _ mem
  · rintro absent ⟨id, fp⟩ mem
    simp only [decide_eq_true_eq]
    rintro rfl
    exact absent id mem

theorem mem_of_firstWith (h : regs.firstWith f = some id) : (id, f) ∈ regs := by
  obtain ⟨e, found, rfl⟩ := Option.map_eq_some_iff.1 h
  have own : e.2 = f := by simpa using List.find?_some found
  rw [← own]
  exact List.mem_of_find?_eq_some found

end Registrations

/-! ## What the checks must answer -/

/-- The Hamming distance of two SimHashes. -/
def simDistance : Fingerprint → Fingerprint → Option ℕ
  | .simHash a, .simHash b => some (DedupEngine.hamming a b)
  | _, _ => none

theorem simDistance_eq_some_iff {f g : Fingerprint} {dist : ℕ} :
    simDistance f g = some dist ↔
      ∃ a b, f = .simHash a ∧ g = .simHash b ∧ DedupEngine.hamming a b = dist := by
  cases f <;> cases g <;> simp [simDistance]

variable {d : DedupEngine} {regs : Registrations} {id : String} {fp : Fingerprint}

/-- The exact check follows what is registered. -/
structure ExactFollows (d : DedupEngine) (regs : Registrations) : Prop where
  isSome : ∀ fp, (d.checkExact fp).isSome ↔ ∃ id, regs.latest id = some fp
  names : ∀ fp result, d.checkExact fp = some result →
    ∃ id, result.existingId = some id ∧ regs.latest id = some fp

/-- The near check follows what is registered. -/
structure NearFollows (d : DedupEngine) (regs : Registrations) : Prop where
  isSome : ∀ fp threshold, (d.checkSimhash fp threshold).isSome ↔
    ∃ id g dist, regs.latest id = some g ∧ simDistance fp g = some dist ∧ dist ≤ threshold
  names : ∀ fp threshold result, d.checkSimhash fp threshold = some result →
    ∃ id g dist, result.existingId = some id ∧ regs.latest id = some g ∧ simDistance fp g = some dist ∧
      dist ≤ threshold ∧
      ∀ id' g' dist', regs.latest id' = some g' → simDistance fp g' = some dist' → dist ≤ dist'

/-- Both checks answer for the latest fingerprints of the registered ids. -/
def Follows (d : DedupEngine) (regs : Registrations) : Prop := ExactFollows d regs ∧ NearFollows d regs

/-- A call that does not take away a registration that the indexes name.

An id whose fingerprint is replaced is not the last one that was registered with the old fingerprint, nor the
first one if that is a SimHash.  No other id has the fingerprint of an id that is unregistered; if it is a
SimHash, no other id was ever registered with it, of those that still stand. -/
def Keeps (regs : Registrations) : DedupCall → Prop
  | .register id fp => ∀ f, regs.latest id = some f → f ≠ fp →
    regs.lastWith f ≠ some id ∧ (f.asSimHash.isSome → regs.firstWith f ≠ some id)
  | .unregister id => ∀ f, regs.latest id = some f → ∀ other, other ≠ id →
    regs.latest other ≠ some f ∧ (f.asSimHash.isSome → (other, f) ∉ regs)

/-! ## The exact index -/

/-- The fingerprint of an id, as a set of at most one. -/
def Registrations.held (regs : Registrations) (id : String) : Set Fingerprint :=
  {fp | regs.latest id = some fp}

/-- What the exact index has for a fingerprint. -/
def DedupEngine.exact (d : DedupEngine) (fp : Fingerprint) : Option String := d.exactIndex.lookup fp.hex

theorem exactFollows_iff : ExactFollows d regs ↔ InverseIndex.Represents regs.held d.exact := by
  constructor
  · rintro ⟨isSome, names⟩
    refine ⟨fun {fp id} found => ?_, fun {id fp} held => ?_⟩
    · have check : d.checkExact fp = some ⟨true, some id, .finite ⟨false, 0, 0⟩, .discard⟩ := by
        rw [DedupEngine.checkExact, show d.exactIndex.lookup fp.hex = some id from found, Option.map_some]
      obtain ⟨id', named, latest⟩ := names fp _ check
      cases named
      exact latest
    · have some := (isSome fp).2 ⟨id, held⟩
      rwa [DedupEngine.checkExact, Option.isSome_map] at some
  · rintro ⟨sound, complete⟩
    refine ⟨fun fp => ?_, fun fp result check => ?_⟩
    · rw [DedupEngine.checkExact, Option.isSome_map]
      constructor
      · intro found
        obtain ⟨id, found⟩ := Option.isSome_iff_exists.1 found
        exact ⟨id, sound found⟩
      · rintro ⟨id, held⟩
        exact complete held
    · obtain ⟨id, found, rfl⟩ := Option.map_eq_some_iff.1 check
      exact ⟨id, rfl, sound found⟩

/-- The reverse index has the hex text of the latest fingerprint. -/
def ReverseFollows (d : DedupEngine) (regs : Registrations) : Prop :=
  ∀ id, d.reverseIndex.lookup id = (regs.latest id).map Fingerprint.hex

/-- What the exact index has for a fingerprint is the last id that was registered with it. -/
def NamesLast (d : DedupEngine) (regs : Registrations) : Prop :=
  ∀ fp id, d.exact fp = some id → regs.lastWith fp = some id

theorem exact_register (f : Fingerprint) :
    (d.register id fp).exact f = if f = fp then some id else d.exact f := by
  show (d.exactIndex.insert fp.hex id).lookup f.hex = _
  split_ifs with same
  · rw [same, Finmap.lookup_insert]
  · rw [Finmap.lookup_insert_of_ne _ fun h => same (Fingerprint.hex_injective h)]
    rfl

theorem exact_unregister (rev : ReverseFollows d regs) (f : Fingerprint) :
    (d.unregister id).exact f = if regs.latest id = some f then none else d.exact f := by
  rw [DedupEngine.exact, DedupEngine.unregister, rev id]
  cases latest : regs.latest id with
  | none => simp [DedupEngine.exact]
  | some g =>
    simp only [Option.map_some, Option.some.injEq]
    split_ifs with same
    · rw [same, Finmap.lookup_erase]
    · rw [Finmap.lookup_erase_ne fun h => same (Fingerprint.hex_injective h).symm]
      rfl

theorem ReverseFollows.after (rev : ReverseFollows d regs) (c : DedupCall) :
    ReverseFollows (d.after c) (regs.after c) := by
  intro id'
  cases c with
  | register id fp =>
    rw [Registrations.latest_register]
    show (d.reverseIndex.insert id fp.hex).lookup id' = _
    split_ifs with same
    · rw [same, Finmap.lookup_insert, Option.map_some]
    · rw [Finmap.lookup_insert_of_ne _ same, rev id']
  | unregister id =>
    rw [Registrations.latest_unregister]
    show (d.reverseIndex.erase id).lookup id' = _
    split_ifs with same
    · rw [same, Finmap.lookup_erase, Option.map_none]
    · rw [Finmap.lookup_erase_ne same, rev id']

theorem NamesLast.after (last : NamesLast d regs) (exact : ExactFollows d regs) (rev : ReverseFollows d regs)
    (c : DedupCall) : NamesLast (d.after c) (regs.after c) := by
  intro f x named
  cases c with
  | register id fp =>
    rw [DedupEngine.after, exact_register] at named
    rw [Registrations.lastWith_register]
    split_ifs at named with same
    · rw [if_pos same.symm, named]
    · rw [if_neg (Ne.symm same), last f x named]
  | unregister id =>
    rw [DedupEngine.after, exact_unregister rev] at named
    split_ifs at named with own
    have held : regs.latest x = some f := (exactFollows_iff.1 exact).sound named
    have ne : x ≠ id := fun same => own (same ▸ held)
    exact Registrations.lastWith_unregister (last f x named) ne

theorem exactFollows_register_iff (exact : ExactFollows d regs) (last : NamesLast d regs) :
    ExactFollows (d.register id fp) (regs.after (.register id fp)) ↔
      ∀ f, regs.latest id = some f → f ≠ fp → regs.lastWith f ≠ some id := by
  have right := exactFollows_iff.1 exact
  have own : (regs.after (.register id fp)).held id = {fp} := by
    ext f
    simp [Registrations.held, Registrations.latest_register, eq_comm]
  have others : ∀ other, other ≠ id → (regs.after (.register id fp)).held other = regs.held other := by
    intro other ne
    ext f
    simp [Registrations.held, Registrations.latest_register, ne]
  have new : ∀ f ∈ ({fp} : Set _), (d.register id fp).exact f = some id := by
    rintro f rfl
    rw [exact_register, if_pos rfl]
  have kept : ∀ f ∉ ({fp} : Set _), (d.register id fp).exact f = d.exact f := fun f ne =>
    (exact_register f).trans (if_neg ne)
  rw [exactFollows_iff, InverseIndex.represents_assign_iff right own others new kept]
  constructor
  · intro named f latest ne own
    obtain ⟨x, found⟩ := Option.isSome_iff_exists.1 (right.complete (k := id) (v := f) latest)
    have same : x = id := Option.some.inj ((last f x found).symm.trans own)
    exact ne (named f (same ▸ found))
  · intro kept f found
    by_contra ne
    exact kept f (right.sound found) ne (last f id found)

theorem exactFollows_unregister_iff (exact : ExactFollows d regs) (rev : ReverseFollows d regs) :
    ExactFollows (d.unregister id) (regs.after (.unregister id)) ↔
      ∀ f, regs.latest id = some f → ∀ other, other ≠ id → regs.latest other ≠ some f := by
  have right := exactFollows_iff.1 exact
  have own : (regs.after (.unregister id)).held id = ∅ := by
    ext f
    simp [Registrations.held, Registrations.latest_unregister]
  have others : ∀ other, other ≠ id → (regs.after (.unregister id)).held other = regs.held other := by
    intro other ne
    ext f
    simp [Registrations.held, Registrations.latest_unregister, ne]
  have gone : ∀ f ∈ regs.held id, (d.unregister id).exact f = none := fun f held => by
    rw [exact_unregister rev]
    exact if_pos held
  have kept : ∀ f ∉ regs.held id, (d.unregister id).exact f = d.exact f := fun f absent => by
    rw [exact_unregister rev]
    exact if_neg absent
  rw [exactFollows_iff, InverseIndex.represents_retract_iff right own others gone kept]
  exact ⟨fun h f held other ne => h other ne f held, fun h other ne f held => h f held other ne⟩

/-! ## The SimHash entries -/

section Near

variable {query h : UInt64} {threshold : ℕ} {entries : List (String × UInt64)} {best : String × ℕ}

open DedupEngine FirstMax

/-- The rounds keep the first of the closest entries within the threshold. -/
theorem foldl_closer : entries.foldl (closer query threshold) none =
    (firstMax (fun e => OrderDual.toDual (hamming query e.2))
      (entries.filter fun e => decide (hamming query e.2 ≤ threshold))).map
        fun e => (e.1, hamming query e.2) := by
  induction entries using List.reverseRecOn with
  | nil => rfl
  | append_singleton entries e ih =>
    rw [List.foldl_concat, ih, List.filter_append]
    by_cases near : hamming query e.2 ≤ threshold
    · rw [List.filter_cons_of_pos (by simpa using near), List.filter_nil, firstMax_concat]
      cases firstMax (fun e => OrderDual.toDual (hamming query e.2))
        (entries.filter fun e => decide (hamming query e.2 ≤ threshold)) with
      | none => simp [closer, better, near]
      | some b =>
        simp only [Option.map_some, closer, better, near, if_true, OrderDual.toDual_lt_toDual]
        split_ifs <;> rfl
    · rw [List.filter_cons_of_neg (by simpa using near), List.filter_nil, List.append_nil, closer.eq_def,
        if_neg near]

theorem foldl_closer_eq_none_iff :
    entries.foldl (closer query threshold) none = none ↔ ∀ e ∈ entries, threshold < hamming query e.2 := by
  rw [foldl_closer, Option.map_eq_none_iff, firstMax_eq_none_iff, List.filter_eq_nil_iff]
  simp

/-- The entry that a check names is within the threshold, has minimal distance, and is the first one with its
hash. -/
theorem foldl_closer_eq_some (found : entries.foldl (closer query threshold) none = some best) :
    ∃ e, best = (e.1, hamming query e.2) ∧ hamming query e.2 ≤ threshold ∧
      (∀ e' ∈ entries, hamming query e.2 ≤ hamming query e'.2) ∧
      entries.find? (fun e' => decide (e'.2 = e.2)) = some e := by
  rw [foldl_closer] at found
  obtain ⟨e, closest, rfl⟩ := Option.map_eq_some_iff.1 found
  have near : hamming query e.2 ≤ threshold := by
    simpa using (List.mem_filter.1 (mem_of_firstMax _ closest)).2
  refine ⟨e, rfl, near, fun e' mem => ?_, ?_⟩
  · by_cases near' : hamming query e'.2 ≤ threshold
    · exact le_of_firstMax _ closest e' (List.mem_filter.2 ⟨mem, by simpa using near'⟩)
    · omega
  · have first := find?_of_firstMax _ closest
    rw [List.find?_filter] at first
    obtain ⟨-, before, after, rfl, farther⟩ := List.find?_eq_some_iff_append.1 first
    refine List.find?_eq_some_iff_append.2 ⟨by simp, before, after, rfl, fun e' mem => ?_⟩
    have far := farther e' mem
    simp only [Bool.not_eq_true', decide_eq_false_iff_not] at far ⊢
    intro same
    exact far (by simp [same, near])

theorem find?_simhashes :
    (regs.simhashes.find? fun e => decide (e.2 = h)).map (·.1) = regs.firstWith (.simHash h) := by
  have agree : ∀ e : String × Fingerprint,
      (e.2.asSimHash.map fun h => (e.1, h)).any (fun e' => decide (e'.2 = h)) =
        decide (e.2 = .simHash h) := by
    rintro ⟨id, fp⟩
    cases fp <;> simp [Fingerprint.asSimHash]
  rw [Registrations.simhashes, List.find?_filterMap, Registrations.firstWith, funext agree]
  cases found : regs.find? fun e => decide (e.2 = .simHash h) with
  | none => rfl
  | some e =>
    have own : e.2 = .simHash h := by simpa using List.find?_some found
    rw [Option.bind_some, own]
    rfl

theorem mem_simhashes {id : String} (mem : (id, Fingerprint.simHash h) ∈ regs) : (id, h) ∈ regs.simhashes :=
  List.mem_filterMap.2 ⟨_, mem, rfl⟩

/-- The first registration of a SimHash that still stands is of an id that has it. -/
def FirstHolds (regs : Registrations) : Prop :=
  ∀ h id, regs.firstWith (.simHash h) = some id → regs.latest id = some (.simHash h)

/-- The id that a check names has the hash of the entry. -/
theorem FirstHolds.latest (first : FirstHolds regs) {e : String × UInt64}
    (found : regs.simhashes.find? (fun e' => decide (e'.2 = e.2)) = some e) :
    regs.latest e.1 = some (.simHash e.2) :=
  first e.2 e.1 (by rw [← find?_simhashes, found, Option.map_some])

/-- The id that a check names, if it names one. -/
theorem FirstHolds.names (first : FirstHolds regs) (entries : d.simhashes = regs.simhashes)
    {result : DedupResult} (check : d.checkSimhash fp threshold = some result) :
    ∃ id g dist, result.existingId = some id ∧ regs.latest id = some g ∧ simDistance fp g = some dist ∧
      dist ≤ threshold ∧
      ∀ id' g' dist', regs.latest id' = some g' → simDistance fp g' = some dist' → dist ≤ dist' := by
  cases fp with
  | sha256 => cases check
  | contentHash => cases check
  | simHash query =>
    rw [checkSimhash, entries] at check
    obtain ⟨best, found, rfl⟩ := Option.map_eq_some_iff.1 check
    obtain ⟨e, rfl, near, closest, own⟩ := foldl_closer_eq_some found
    refine ⟨e.1, _, _, rfl, first.latest own, simDistance_eq_some_iff.2 ⟨_, _, rfl, rfl, rfl⟩, near, ?_⟩
    intro id' g' dist' latest apart
    obtain ⟨a, b, same, rfl, rfl⟩ := simDistance_eq_some_iff.1 apart
    rw [← Fingerprint.simHash.inj same]
    exact closest (id', b) (mem_simhashes (Registrations.mem_of_latest latest))

theorem nearFollows_iff (entries : d.simhashes = regs.simhashes) : NearFollows d regs ↔ FirstHolds regs := by
  constructor
  · rintro ⟨-, names⟩ h id first
    cases found : regs.simhashes.foldl (closer h 0) none with
    | none =>
      have far := foldl_closer_eq_none_iff.1 found _ (mem_simhashes (Registrations.mem_of_firstWith first))
      rw [hamming_eq_zero_iff.2 rfl] at far
      cases far
    | some best =>
      obtain ⟨e, rfl, near, -, own⟩ := foldl_closer_eq_some found
      obtain rfl : h = e.2 := hamming_eq_zero_iff.1 (by omega)
      rw [← find?_simhashes, own, Option.map_some, Option.some.injEq] at first
      obtain ⟨id', g, dist, named, latest, apart, within, -⟩ :=
        names (.simHash e.2) 0 _ (by rw [checkSimhash, entries, found, Option.map_some])
      obtain ⟨a, b, same, rfl, rfl⟩ := simDistance_eq_some_iff.1 apart
      have zero : a = b := hamming_eq_zero_iff.1 (by omega)
      have named : e.1 = id' := Option.some.inj named
      rw [← first, named, latest, ← zero, same]
  · intro first
    refine ⟨fun fp threshold => ⟨fun check => ?_, ?_⟩, fun fp threshold result => first.names entries⟩
    · obtain ⟨result, check⟩ := Option.isSome_iff_exists.1 check
      obtain ⟨id, g, dist, -, latest, apart, within, -⟩ := first.names entries check
      exact ⟨id, g, dist, latest, apart, within⟩
    · rintro ⟨id, g, dist, latest, apart, within⟩
      obtain ⟨a, b, rfl, rfl, rfl⟩ := simDistance_eq_some_iff.1 apart
      rw [checkSimhash, entries, Option.isSome_map, Option.isSome_iff_ne_none, Ne, foldl_closer_eq_none_iff]
      intro far
      exact within.not_gt (far (id, b) (mem_simhashes (Registrations.mem_of_latest latest)))

theorem simhashes_after (entries : d.simhashes = regs.simhashes) (c : DedupCall) :
    (d.after c).simhashes = (regs.after c).simhashes := by
  cases c with
  | register id fp =>
    cases fp <;>
      simp [DedupEngine.after, DedupEngine.register, entries, Registrations.after, Registrations.simhashes,
        Fingerprint.asSimHash]
  | unregister id =>
    show d.simhashes.filter _ = (regs.filter _).filterMap _
    rw [entries, Registrations.simhashes, List.filter_filterMap, List.filterMap_filter]
    refine congrArg (List.filterMap · regs) (funext fun e => ?_)
    cases e.2.asSimHash with
    | none => simp
    | some h => by_cases own : e.1 = id <;> simp [own]

theorem firstHolds_register_iff (first : FirstHolds regs) :
    FirstHolds (regs.after (.register id fp)) ↔
      ∀ f, regs.latest id = some f → f ≠ fp → f.asSimHash.isSome → regs.firstWith f ≠ some id := by
  constructor
  · intro right f latest ne sim own
    obtain ⟨h, sim⟩ := Option.isSome_iff_exists.1 sim
    obtain rfl := Fingerprint.asSimHash_eq_some_iff.1 sim
    have still := right h id (by rw [Registrations.firstWith_register, own, Option.some_or])
    rw [Registrations.latest_register, if_pos rfl, Option.some.injEq] at still
    exact ne still.symm
  · intro kept h x named
    rw [Registrations.firstWith_register] at named
    rw [Registrations.latest_register]
    cases old : regs.firstWith (.simHash h) with
    | none =>
      rw [old, Option.none_or] at named
      split_ifs at named with same
      obtain rfl := Option.some.inj named
      rw [if_pos rfl, same]
    | some y =>
      rw [old, Option.some_or, Option.some.injEq] at named
      obtain rfl := named
      have latest := first h y old
      split_ifs with own
      · obtain rfl := own
        by_contra ne
        exact kept _ latest (fun same => ne (congrArg some same.symm)) rfl old
      · exact latest

theorem firstHolds_unregister (first : FirstHolds regs)
    (apart : ∀ h, regs.latest id = some (.simHash h) → ∀ other, other ≠ id →
      (other, Fingerprint.simHash h) ∉ regs) :
    FirstHolds (regs.after (.unregister id)) := by
  intro h x named
  obtain ⟨mem, other⟩ := List.mem_filter.1 (Registrations.mem_of_firstWith named)
  have ne : x ≠ id := by simpa using other
  rw [Registrations.latest_unregister, if_neg ne]
  cases old : regs.firstWith (.simHash h) with
  | none => exact absurd mem (Registrations.firstWith_eq_none_iff.1 old x)
  | some y =>
    have latest := first h y old
    by_cases own : y = id
    · exact absurd mem (apart h (own ▸ latest) x ne)
    · rw [Registrations.firstWith_unregister old own, Option.some.injEq] at named
      exact named ▸ latest

/-- Where a SimHash of an unregistered id stands elsewhere, the first such registration is of an id that has
it. -/
theorem exists_latest_of_unregister (right : FirstHolds (regs.after (.unregister id))) {other : String}
    (ne : other ≠ id) (mem : (other, Fingerprint.simHash h) ∈ regs) :
    ∃ x, x ≠ id ∧ regs.latest x = some (.simHash h) := by
  have stands : (other, Fingerprint.simHash h) ∈ regs.after (.unregister id) :=
    List.mem_filter.2 ⟨mem, by simpa using ne⟩
  cases named : (regs.after (.unregister id)).firstWith (.simHash h) with
  | none => exact absurd stands (Registrations.firstWith_eq_none_iff.1 named other)
  | some x =>
    have latest := right h x named
    rw [Registrations.latest_unregister] at latest
    split_ifs at latest with own
    exact ⟨x, own, latest⟩

end Near

/-! ## Runs -/

/-- What every run keeps of the engine. -/
structure Mirrors (d : DedupEngine) (regs : Registrations) : Prop where
  reverse : ReverseFollows d regs
  entries : d.simhashes = regs.simhashes

theorem Mirrors.after (h : Mirrors d regs) (c : DedupCall) : Mirrors (d.after c) (regs.after c) :=
  ⟨h.reverse.after c, simhashes_after h.entries c⟩

/-- A call keeps the answers right exactly when it keeps what the indexes name. -/
theorem follows_after_iff (mirrors : Mirrors d regs) (last : NamesLast d regs) (follows : Follows d regs)
    (c : DedupCall) : Follows (d.after c) (regs.after c) ↔ Keeps regs c := by
  have first := (nearFollows_iff mirrors.entries).1 follows.2
  rw [Follows, nearFollows_iff (mirrors.after c).entries]
  cases c with
  | register id fp =>
    rw [DedupEngine.after, exactFollows_register_iff follows.1 last, firstHolds_register_iff first]
    constructor
    · rintro ⟨exact, near⟩ f latest ne
      exact ⟨exact f latest ne, near f latest ne⟩
    · intro keeps
      exact ⟨fun f latest ne => (keeps f latest ne).1, fun f latest ne => (keeps f latest ne).2⟩
  | unregister id =>
    rw [DedupEngine.after, exactFollows_unregister_iff follows.1 mirrors.reverse]
    constructor
    · rintro ⟨exact, near⟩ f latest other ne
      refine ⟨exact f latest other ne, fun sim mem => ?_⟩
      obtain ⟨h, sim⟩ := Option.isSome_iff_exists.1 sim
      obtain rfl := Fingerprint.asSimHash_eq_some_iff.1 sim
      obtain ⟨x, apart, held⟩ := exists_latest_of_unregister near ne mem
      exact exact _ latest x apart held
    · intro keeps
      refine ⟨fun f latest other ne => (keeps f latest other ne).1, firstHolds_unregister first ?_⟩
      exact fun h latest other ne => (keeps _ latest other ne).2 rfl

theorem mirrors_run (calls : List DedupCall) : Mirrors (dedupRun calls) (standing calls) := by
  induction calls using List.reverseRecOn with
  | nil => exact ⟨fun _ => rfl, rfl⟩
  | append_singleton calls c ih =>
    rw [dedupRun, standing, List.foldl_concat, List.foldl_concat]
    exact ih.after c

theorem namesLast_run {calls : List DedupCall}
    (follows : ∀ earlier, earlier <+: calls → Follows (dedupRun earlier) (standing earlier)) :
    NamesLast (dedupRun calls) (standing calls) := by
  induction calls using List.reverseRecOn with
  | nil =>
    intro fp id found
    cases found
  | append_singleton calls c ih =>
    have before := List.prefix_append calls [c]
    have last := ih fun earlier h => follows earlier (h.trans before)
    rw [dedupRun, standing, List.foldl_concat, List.foldl_concat]
    exact last.after (follows calls before).1 (mirrors_run calls).reverse c

/-- Both checks answer for the current registrations all along a run exactly when each of its calls keeps what
the indexes name. -/
theorem dedup_follows_iff (calls : List DedupCall) :
    (∀ earlier, earlier <+: calls → Follows (dedupRun earlier) (standing earlier)) ↔
      ∀ earlier c, earlier ++ [c] <+: calls → Keeps (standing earlier) c := by
  refine forall_isPrefix_iff ?_ (fun earlier c follows => ?_) calls
  · have first := mirrors_run []
    refine ⟨exactFollows_iff.2 ⟨fun found => ?_, fun held => ?_⟩, (nearFollows_iff first.entries).2 ?_⟩
    · cases found
    · cases held
    · intro h id found
      cases found
  · have step := follows_after_iff (mirrors_run earlier) (namesLast_run follows)
      (follows earlier List.prefix_rfl) c
    rw [← step, dedupRun, standing, List.foldl_concat, List.foldl_concat]
    rfl

/-- Two records with one fingerprint, of which the second is unregistered: the first is not found. -/
theorem dedup_loses_shared :
    ¬Follows (dedupRun [.register "a" (.simHash 0), .register "b" (.simHash 0), .unregister "b"])
      (standing [.register "a" (.simHash 0), .register "b" (.simHash 0), .unregister "b"]) := by
  intro follows
  have found := (follows.1.isSome (.simHash 0)).2 ⟨"a", by decide⟩
  exact absurd found (by decide)

end TORdex.KnowledgeBase
