import TORdex.Kernel.PgEventStore
import TORdex.Lib.FirstMax
import TORdex.Lib.Runs

/-!
# The snapshot stores

The store in memory and the one in Postgres, where each call is one statement, over the calls of any clients.  The
upsert keeps the aggregate type of the row, a timestamp keeps its microseconds only, and a statement with a zero
character in an id or a type fails.
-/

namespace TORdex

/-- A snapshot of an aggregate. -/
structure Snapshot where
  aggregateId : String
  aggregateType : String
  version : UInt64
  state : List UInt8
  timestamp : OffsetDateTime

/-- The errors of a snapshot store. -/
inductive SnapshotError where
  | notFound (id : String)
  | serialization (text : String)

/-! ## The stores -/

/-- The snapshots by aggregate.  Only `delete` has an error. -/
abbrev InMemorySnapshotStore := HashMap String Snapshot

namespace InMemorySnapshotStore

/-- The snapshot takes the place of the one before it. -/
def save (s : InMemorySnapshotStore) (snapshot : Snapshot) : InMemorySnapshotStore :=
  s.insert snapshot.aggregateId snapshot

/-- The snapshot of an aggregate. -/
def load (s : InMemorySnapshotStore) (aggregateId : String) : Option Snapshot := s.lookup aggregateId

/-- `max_by_key` takes the last of the largest, in the order `ids` of the map. -/
def loadLatest (s : InMemorySnapshotStore) (ids : List String) (aggregateType : String) : Option Snapshot :=
  FirstMax.firstMax (fun snap => (snap.version.toNat : ℤ))
    ((ids.filterMap s.lookup).filter (·.aggregateType = aggregateType)).reverse

/-- Take the snapshot of an aggregate out. -/
def delete (s : InMemorySnapshotStore) (aggregateId : String) : Except SnapshotError Unit × InMemorySnapshotStore :=
  if aggregateId ∈ s then (.ok (), s.erase aggregateId) else (.error (.notFound aggregateId), s)

end InMemorySnapshotStore

/-- A row of `kernel_snapshots`. -/
structure SnapshotRow where
  aggregateId : String
  aggregateType : String
  version : ℤ
  state : List UInt8
  timestamp : OffsetDateTime

namespace PgSnapshotStore

/-- A row read back. -/
def rowToSnapshot (row : SnapshotRow) : Snapshot where
  aggregateId := row.aggregateId
  aggregateType := row.aggregateType
  version := .ofNat (toU64 row.version)
  state := row.state
  timestamp := row.timestamp

/-- `INSERT … ON CONFLICT (aggregate_id) DO UPDATE`: the type is not among what is set. -/
def upsert (table : List SnapshotRow) (snapshot : Snapshot) : List SnapshotRow :=
  let version := toI64 snapshot.version.toNat
  let timestamp := PgEventStore.toTimestamptz snapshot.timestamp
  if table.any (·.aggregateId = snapshot.aggregateId) then
    table.map fun row =>
      if row.aggregateId = snapshot.aggregateId then { row with version, state := snapshot.state, timestamp } else row
  else table ++ [⟨snapshot.aggregateId, snapshot.aggregateType, version, snapshot.state, timestamp⟩]

variable (sqlx : Sqlx) (table : List SnapshotRow)

/-- A statement fails on a zero character in a text. -/
def query {α : Type} (texts : List String) (result : α) : Except SnapshotError α :=
  if ∀ text ∈ texts, IsText text then .ok result else .error (.serialization sqlx.invalidText)

/-- The result of a save, and the table after it. -/
def save (snapshot : Snapshot) : Except SnapshotError Unit × List SnapshotRow :=
  match query sqlx [snapshot.aggregateId, snapshot.aggregateType] (upsert table snapshot) with
  | .ok rows => (.ok (), rows)
  | .error e => (.error e, table)

/-- The snapshot of an aggregate. -/
def load (aggregateId : String) : Except SnapshotError (Option Snapshot) :=
  query sqlx [aggregateId] ((table.find? (·.aggregateId = aggregateId)).map rowToSnapshot)

/-- `ORDER BY version DESC LIMIT 1`. -/
def loadLatest (aggregateType : String) : Except SnapshotError (Option Snapshot) :=
  query sqlx [aggregateType]
    ((FirstMax.firstMax (·.version) (table.filter (·.aggregateType = aggregateType))).map rowToSnapshot)

/-- The result of a deletion, and the table after it. -/
def delete (aggregateId : String) : Except SnapshotError Unit × List SnapshotRow :=
  match query sqlx [aggregateId] (table.filter (·.aggregateId ≠ aggregateId)) with
  | .ok rows =>
    let rowsAffected := table.countP (·.aggregateId = aggregateId)
    (if rowsAffected = 0 then .error (.notFound aggregateId) else .ok (), rows)
  | .error e => (.error e, table)

end PgSnapshotStore

/-! ## Runs of both -/

namespace SnapshotStore

open PgEventStore (toTimestamptz)

/-- A call that changes the stores. -/
inductive Call where
  | save (snapshot : Snapshot)
  | delete (aggregateId : String)

/-- The store in memory after some calls. -/
def inMemory (calls : List Call) : InMemorySnapshotStore :=
  calls.foldl (fun s call => match call with | .save snap => s.save snap | .delete id => (s.delete id).2) ∅

variable (sqlx : Sqlx)

/-- The table after some calls. -/
def inPostgres (calls : List Call) : List SnapshotRow :=
  calls.foldl (fun table call => match call with
    | .save snap => (PgSnapshotStore.save sqlx table snap).2
    | .delete id => (PgSnapshotStore.delete sqlx table id).2) []

/-- The row for a snapshot, under a type. -/
def rowOf (type : String) (snap : Snapshot) : SnapshotRow :=
  ⟨snap.aggregateId, type, toI64 snap.version.toNat, snap.state, toTimestamptz snap.timestamp⟩

/-- A snapshot with its timestamp in microseconds. -/
def micro (snap : Snapshot) : Snapshot := { snap with timestamp := toTimestamptz snap.timestamp }

/-- The stores load the same snapshots, up to microseconds, of all ids that Postgres takes. -/
def SameLoads (calls : List Call) : Prop :=
  ∀ id, IsText id →
    PgSnapshotStore.load sqlx (inPostgres sqlx calls) id = .ok (((inMemory calls).load id).map micro)

/-- An aggregate is saved under a type that Postgres takes, and under the one it has if it is stored. -/
def KeepsType (earlier : List Call) : Call → Prop
  | .save snap => IsText snap.aggregateId → IsText snap.aggregateType ∧
      ∀ old, (inMemory earlier).load snap.aggregateId = some old → old.aggregateType = snap.aggregateType
  | .delete _ => True

variable {sqlx} {calls : List Call} {table : List SnapshotRow} {id t : String} {snap : Snapshot} {row : SnapshotRow}

/-! ### The store in memory -/

theorem inMemory_save : (inMemory (calls ++ [.save snap])).lookup id =
    if snap.aggregateId = id then some snap else (inMemory calls).lookup id := by
  rw [inMemory, List.foldl_concat]
  show ((inMemory calls).insert snap.aggregateId snap).lookup id = _
  split_ifs with same
  · rw [← same, Finmap.lookup_insert]
  · exact Finmap.lookup_insert_of_ne _ (Ne.symm same)

theorem inMemory_delete (id' : String) : (inMemory (calls ++ [.delete id'])).lookup id =
    if id' = id then none else (inMemory calls).lookup id := by
  rw [inMemory, List.foldl_concat]
  show ((inMemory calls).delete id').2.lookup id = _
  rw [InMemorySnapshotStore.delete]
  by_cases present : id' ∈ inMemory calls
  · rw [if_pos present]
    split_ifs with same
    · rw [← same]
      exact Finmap.lookup_erase _ _
    · exact Finmap.lookup_erase_ne (Ne.symm same)
  · rw [if_neg present]
    split_ifs with same
    · exact Finmap.lookup_eq_none.2 (same ▸ present)
    · rfl

/-- What is stored was saved, under its id. -/
theorem saved_of_lookup (found : (inMemory calls).lookup id = some snap) :
    snap.aggregateId = id ∧ .save snap ∈ calls := by
  induction calls using List.reverseRecOn with
  | nil => cases found
  | append_singleton calls call ih =>
    rw [List.mem_append, List.mem_singleton]
    cases call with
    | save last =>
      rw [inMemory_save] at found
      split_ifs at found with same
      · obtain rfl := Option.some.inj found
        exact ⟨same, .inr rfl⟩
      · exact (ih found).imp_right .inl
    | delete id' =>
      rw [inMemory_delete] at found
      split_ifs at found
      exact (ih found).imp_right .inl

/-! ### The table -/

/-- The row of an id. -/
def rowFor (table : List SnapshotRow) (id : String) : Option SnapshotRow := table.find? (·.aggregateId = id)

theorem aggregateId_of_rowFor (found : rowFor table id = some row) : row.aggregateId = id := by
  simpa using List.find?_some found

theorem rowFor_upsert : rowFor (PgSnapshotStore.upsert table snap) id =
    if snap.aggregateId = id then
      some (rowOf (((rowFor table id).map SnapshotRow.aggregateType).getD snap.aggregateType) snap)
    else rowFor table id := by
  rw [PgSnapshotStore.upsert]
  by_cases conflict : table.any (·.aggregateId = snap.aggregateId)
  · rw [if_pos conflict, rowFor, List.find?_map]
    dsimp only [Function.comp_def]
    have kept : (fun row : SnapshotRow => decide ((if row.aggregateId = snap.aggregateId then
        { row with
          version := toI64 snap.version.toNat
          state := snap.state
          timestamp := toTimestamptz snap.timestamp }
        else row).aggregateId = id)) = fun row => decide (row.aggregateId = id) := by
      funext row
      split_ifs <;> rfl
    rw [kept]
    show (rowFor table id).map _ = _
    cases found : rowFor table id with
    | none =>
      have absent : snap.aggregateId ≠ id := by
        rintro rfl
        obtain ⟨clash, inside, same⟩ := List.any_eq_true.1 conflict
        exact List.find?_eq_none.1 found clash inside same
      rw [if_neg absent, Option.map_none]
    | some row =>
      have own := aggregateId_of_rowFor found
      rw [Option.map_some, Option.map_some, Option.getD_some, own]
      split_ifs with same same'
      · rw [rowOf, ← same, ← own]
      · exact absurd same.symm same'
      · exact absurd (Eq.symm ‹_›) same
      · rfl
  · have apart : ∀ old ∈ table, old.aggregateId ≠ snap.aggregateId := by simpa using conflict
    rw [if_neg conflict, rowFor, List.find?_append]
    split_ifs with same
    · subst same
      have none : rowFor table snap.aggregateId = none :=
        List.find?_eq_none.2 fun old mem => by simpa using apart old mem
      rw [rowFor] at none
      simp [none, rowFor, rowOf]
    · simp [same, rowFor]

theorem rowFor_filter (id' : String) : rowFor (table.filter (·.aggregateId ≠ id')) id =
    if id' = id then none else rowFor table id := by
  rw [rowFor, List.find?_filter]
  split_ifs with same
  · subst same
    simp
  · refine congrArg (List.find? · table) (funext fun row => ?_)
    by_cases own : row.aggregateId = id
    · simp [own, Ne.symm same]
    · simp [own]

theorem query_eq_ok {α : Type} {texts : List String} (plain : ∀ text ∈ texts, IsText text) (result : α) :
    PgSnapshotStore.query sqlx texts result = .ok result := if_pos plain

theorem rowFor_save : rowFor (inPostgres sqlx (calls ++ [.save snap])) id =
    if snap.aggregateId = id ∧ IsText snap.aggregateId ∧ IsText snap.aggregateType then
      some (rowOf (((rowFor (inPostgres sqlx calls) id).map SnapshotRow.aggregateType).getD snap.aggregateType) snap)
    else rowFor (inPostgres sqlx calls) id := by
  rw [inPostgres, List.foldl_concat]
  show rowFor (PgSnapshotStore.save sqlx (inPostgres sqlx calls) snap).2 id = _
  rw [PgSnapshotStore.save]
  by_cases plain : IsText snap.aggregateId ∧ IsText snap.aggregateType
  · rw [query_eq_ok (by simpa using plain)]
    dsimp only
    rw [rowFor_upsert]
    simp only [plain, and_self, and_true]
  · rw [PgSnapshotStore.query, if_neg (by simpa using plain), if_neg fun h => plain h.2]

theorem rowFor_delete (id' : String) : rowFor (inPostgres sqlx (calls ++ [.delete id'])) id =
    if id' = id ∧ IsText id' then none else rowFor (inPostgres sqlx calls) id := by
  rw [inPostgres, List.foldl_concat]
  show rowFor (PgSnapshotStore.delete sqlx (inPostgres sqlx calls) id').2 id = _
  rw [PgSnapshotStore.delete]
  by_cases plain : IsText id'
  · rw [query_eq_ok (by simpa using plain)]
    dsimp only
    rw [rowFor_filter]
    simp only [plain, and_true]
  · rw [PgSnapshotStore.query, if_neg (by simpa using plain), if_neg fun h => plain h.2]

/-- A row has texts, and the version, state and timestamp of a saved snapshot. -/
theorem row_spec (found : rowFor (inPostgres sqlx calls) id = some row) :
    IsText id ∧ IsText row.aggregateType ∧ ∃ snap, .save snap ∈ calls ∧ row = rowOf row.aggregateType snap := by
  induction calls using List.reverseRecOn generalizing row with
  | nil => cases found
  | append_singleton calls call ih =>
    have before : ∀ {row}, rowFor (inPostgres sqlx calls) id = some row → IsText id ∧ IsText row.aggregateType ∧
        ∃ snap, .save snap ∈ calls ++ [call] ∧ row = rowOf row.aggregateType snap := fun found =>
      (ih found).imp_right fun ⟨text, snap, mem, eq⟩ => ⟨text, snap, List.mem_append_left _ mem, eq⟩
    cases call with
    | save snap =>
      rw [rowFor_save] at found
      split_ifs at found with own
      · obtain ⟨rfl, idText, typeText⟩ := own
        obtain rfl := Option.some.inj found
        refine ⟨idText, ?_, snap, List.mem_append_right _ List.mem_cons_self, rfl⟩
        show IsText (((rowFor (inPostgres sqlx calls) snap.aggregateId).map SnapshotRow.aggregateType).getD
          snap.aggregateType)
        cases old : rowFor (inPostgres sqlx calls) snap.aggregateId with
        | none => exact typeText
        | some row => exact (ih old).2.1
      · exact before found
    | delete id' =>
      rw [rowFor_delete] at found
      split_ifs at found
      exact before found

theorem nodup_inPostgres (sqlx : Sqlx) (calls : List Call) :
    ((inPostgres sqlx calls).map SnapshotRow.aggregateId).Nodup := by
  induction calls using List.reverseRecOn with
  | nil => exact List.nodup_nil
  | append_singleton calls call ih =>
    rw [inPostgres, List.foldl_concat]
    cases call with
    | save snap =>
      show ((PgSnapshotStore.save sqlx (inPostgres sqlx calls) snap).2.map SnapshotRow.aggregateId).Nodup
      unfold PgSnapshotStore.save PgSnapshotStore.query PgSnapshotStore.upsert
      split_ifs with plain conflict
      · have kept : SnapshotRow.aggregateId ∘ (fun row : SnapshotRow => if row.aggregateId = snap.aggregateId then
            { row with
              version := toI64 snap.version.toNat
              state := snap.state
              timestamp := toTimestamptz snap.timestamp }
            else row) = SnapshotRow.aggregateId := by
          funext row
          rw [Function.comp_apply]
          split_ifs <;> rfl
        rwa [List.map_map, kept]
      · rw [List.map_append]
        refine ih.append (List.nodup_singleton _) (List.disjoint_singleton.2 fun mem => conflict ?_)
        obtain ⟨row, inside, same⟩ := List.mem_map.1 mem
        exact List.any_eq_true.2 ⟨row, inside, decide_eq_true same⟩
      · exact ih
    | delete id' =>
      show ((PgSnapshotStore.delete sqlx (inPostgres sqlx calls) id').2.map SnapshotRow.aggregateId).Nodup
      unfold PgSnapshotStore.delete PgSnapshotStore.query
      split_ifs
      · exact ih.sublist (List.filter_sublist.map _)
      · exact ih

theorem mem_inPostgres_iff :
    row ∈ inPostgres sqlx calls ↔ rowFor (inPostgres sqlx calls) row.aggregateId = some row := by
  refine ⟨fun mem => ?_, List.mem_of_find?_eq_some⟩
  have some : (rowFor (inPostgres sqlx calls) row.aggregateId).isSome := by
    rw [rowFor, List.find?_isSome]
    exact ⟨row, mem, decide_eq_true rfl⟩
  obtain ⟨other, found⟩ := Option.isSome_iff_exists.1 some
  have own := aggregateId_of_rowFor found
  rw [found, List.inj_on_of_nodup_map (nodup_inPostgres sqlx calls) (List.mem_of_find?_eq_some found) mem own]

/-! ## What the stores answer -/

theorem toI64_cases {n : ℕ} (below : n < 18446744073709551616) :
    toI64 n = if n < 9223372036854775808 then (n : ℤ) else n - 18446744073709551616 := by
  have literal : toI64 n = Int.bmod n 18446744073709551616 := rfl
  have small : (n : ℤ) % 18446744073709551616 = n := Int.emod_eq_of_lt (by omega) (by omega)
  rw [literal, Int.bmod, Nat.cast_ofNat, small]
  split_ifs <;> omega

theorem toU64_toI64 {n : ℕ} (below : n < 18446744073709551616) : toU64 (toI64 n) = n := by
  have literal : ∀ m : ℤ, toU64 m = (m % 18446744073709551616).toNat := fun _ => rfl
  rw [toI64_cases below, literal]
  split_ifs <;> omega

theorem rowToSnapshot_rowOf (type : String) (snap : Snapshot) : PgSnapshotStore.rowToSnapshot (rowOf type snap) =
    { snap with aggregateType := type, timestamp := toTimestamptz snap.timestamp } := by
  rw [PgSnapshotStore.rowToSnapshot, rowOf]
  dsimp only
  rw [toU64_toI64 snap.version.toNat_lt, UInt64.ofNat_toNat]

theorem rowToSnapshot_eq_micro_iff {type : String} : PgSnapshotStore.rowToSnapshot (rowOf type snap) = micro snap ↔
    type = snap.aggregateType := by
  rw [rowToSnapshot_rowOf, micro]
  exact ⟨congrArg Snapshot.aggregateType, fun same => by rw [same]⟩

theorem sameLoads_iff : SameLoads sqlx calls ↔ ∀ id, IsText id →
    (rowFor (inPostgres sqlx calls) id).map PgSnapshotStore.rowToSnapshot = ((inMemory calls).lookup id).map micro := by
  refine forall_congr' fun id => imp_congr_right fun plain => ?_
  rw [PgSnapshotStore.load, query_eq_ok (by simpa using plain), Except.ok.injEq]
  rfl

/-- The row of a stored snapshot has its type. -/
theorem SameLoads.aggregateType (same : SameLoads sqlx calls) (plain : IsText id) {old : Snapshot}
    (stored : (inMemory calls).lookup id = some old) :
    ∃ row, rowFor (inPostgres sqlx calls) id = some row ∧ PgSnapshotStore.rowToSnapshot row = micro old ∧
      row.aggregateType = old.aggregateType := by
  have loaded := sameLoads_iff.1 same id plain
  rw [stored, Option.map_some, Option.map_eq_some_iff] at loaded
  obtain ⟨row, found, eq⟩ := loaded
  exact ⟨row, found, eq, congrArg Snapshot.aggregateType eq⟩

/-- The call leaves the stores alike exactly when it keeps the type. -/
theorem sameLoads_concat_iff (same : SameLoads sqlx calls) (call : Call) :
    SameLoads sqlx (calls ++ [call]) ↔ KeepsType calls call := by
  cases call with
  | save snap =>
    constructor
    · intro same' plain
      obtain ⟨row, found, eq, type⟩ := same'.aggregateType plain (inMemory_save.trans (if_pos rfl))
      have text : IsText snap.aggregateType := type ▸ (row_spec found).2.1
      refine ⟨text, fun old stored => ?_⟩
      obtain ⟨row', found', -, type'⟩ := same.aggregateType plain stored
      rw [rowFor_save, if_pos ⟨rfl, plain, text⟩, found', Option.map_some, Option.getD_some] at found
      rw [← Option.some.inj found] at type
      exact type'.symm.trans type
    · intro keeps
      refine sameLoads_iff.2 fun id plain => ?_
      have earlier := sameLoads_iff.1 same id plain
      rw [rowFor_save, inMemory_save]
      by_cases own : snap.aggregateId = id
      · obtain ⟨text, type⟩ := keeps (own ▸ plain)
        rw [if_pos ⟨own, own ▸ plain, text⟩, if_pos own, Option.map_some, Option.map_some, Option.some.injEq,
          rowToSnapshot_eq_micro_iff]
        cases found : rowFor (inPostgres sqlx calls) id with
        | none => rfl
        | some row =>
          rw [found, Option.map_some, eq_comm, Option.map_eq_some_iff] at earlier
          obtain ⟨old, stored, eq⟩ := earlier
          exact (congrArg Snapshot.aggregateType eq).symm.trans (type old (own ▸ stored))
      · rw [if_neg fun h => own h.1, if_neg own, earlier]
  | delete id' =>
    refine iff_of_true (sameLoads_iff.2 fun id plain => ?_) trivial
    rw [rowFor_delete, inMemory_delete]
    by_cases own : id' = id
    · rw [if_pos ⟨own, own ▸ plain⟩, if_pos own]
      rfl
    · rw [if_neg fun h => own h.1, if_neg own, sameLoads_iff.1 same id plain]

theorem forall_sameLoads_iff (sqlx : Sqlx) (calls : List Call) :
    (∀ earlier, earlier <+: calls → SameLoads sqlx earlier) ↔
      ∀ earlier call, earlier ++ [call] <+: calls → KeepsType earlier call :=
  forall_isPrefix_iff (sameLoads_iff.2 fun _ _ => rfl)
    (fun _ call same => sameLoads_concat_iff (same _ List.prefix_rfl) call) calls

/-- As long as types are texts there is a row for every id that memory has. -/
theorem isSome_rowFor (texts : ∀ snap, .save snap ∈ calls → IsText snap.aggregateId → IsText snap.aggregateType)
    (plain : IsText id) : (rowFor (inPostgres sqlx calls) id).isSome = ((inMemory calls).lookup id).isSome := by
  induction calls using List.reverseRecOn with
  | nil => rfl
  | append_singleton calls call ih =>
    have earlier := ih fun snap mem => texts snap (List.mem_append_left _ mem)
    cases call with
    | save snap =>
      have text := texts snap (List.mem_append_right _ List.mem_cons_self)
      rw [rowFor_save, inMemory_save]
      by_cases own : snap.aggregateId = id
      · rw [if_pos ⟨own, own ▸ plain, text (own ▸ plain)⟩, if_pos own]
        rfl
      · rw [if_neg fun h => own h.1, if_neg own, earlier]
    | delete id' =>
      rw [rowFor_delete, inMemory_delete]
      by_cases own : id' = id
      · rw [if_pos ⟨own, own ▸ plain⟩, if_pos own]
        rfl
      · rw [if_neg fun h => own h.1, if_neg own, earlier]

/-- With one type for all there is no other to save under. -/
theorem keepsType_of_forall {calls : List Call} {type : String} (plain : IsText type)
    (one : ∀ snap, .save snap ∈ calls → snap.aggregateType = type) :
    ∀ earlier call, earlier ++ [call] <+: calls → KeepsType earlier call := by
  intro earlier call before
  cases call with
  | save snap =>
    have new := before.subset (List.mem_append_right earlier List.mem_cons_self)
    refine fun _ => ⟨one _ new ▸ plain, fun old found => ?_⟩
    have stored := before.subset (List.mem_append_left [.save snap] (saved_of_lookup found).2)
    rw [one _ stored, one _ new]
  | delete id => trivial

/-- A snapshot without data. -/
def sampleSnapshot (id : String) (version : UInt64) : Snapshot := ⟨id, "Task", version, [], 0⟩

/-- Two aggregates, one of which is saved twice, and a third one that is deleted. -/
def sampleCalls : List Call :=
  [.save (sampleSnapshot "a" 1), .save (sampleSnapshot "c" 9), .save (sampleSnapshot "b" 2), .delete "c",
    .save (sampleSnapshot "a" 3)]

theorem saved_sampleCalls : ∀ snap, .save snap ∈ sampleCalls →
    snap.aggregateType = "Task" ∧ IsText snap.aggregateId ∧ snap.version.toNat < 10 := by
  intro snap mem
  simp only [sampleCalls, List.mem_cons, Call.save.injEq, reduceCtorEq, false_or, List.not_mem_nil, or_false] at mem
  rcases mem with rfl | rfl | rfl | rfl <;> exact ⟨rfl, by decide, by decide⟩

theorem keepsType_sampleCalls : ∀ earlier call, earlier ++ [call] <+: sampleCalls → KeepsType earlier call :=
  keepsType_of_forall (by decide) fun snap mem => (saved_sampleCalls snap mem).1

/-- **All along a run the stores load the same snapshots of all ids that Postgres takes, up to microseconds, exactly
when no such aggregate is saved under a type that Postgres refuses or under another type than it is stored under**, and
as long as no type is refused they agree on what there is to delete. -/
theorem stores_agree_iff (sqlx : Sqlx) (calls : List Call) :
    ((∀ earlier, earlier <+: calls → SameLoads sqlx earlier) ↔
      ∀ earlier call, earlier ++ [call] <+: calls → KeepsType earlier call) ∧
    ((∀ snap, .save snap ∈ calls → IsText snap.aggregateId → IsText snap.aggregateType) → ∀ id, IsText id →
      (PgSnapshotStore.delete sqlx (inPostgres sqlx calls) id).1 = ((inMemory calls).delete id).1) := by
  refine ⟨forall_sameLoads_iff sqlx calls, fun texts id plain => ?_⟩
  have rows : (rowFor (inPostgres sqlx calls) id).isSome = ((inMemory calls).lookup id).isSome :=
    isSome_rowFor texts plain
  rw [PgSnapshotStore.delete, query_eq_ok (by simpa using plain), InMemorySnapshotStore.delete]
  have absent : (inPostgres sqlx calls).countP (·.aggregateId = id) = 0 ↔ id ∉ inMemory calls := by
    rw [List.countP_eq_zero, ← List.find?_eq_none, ← Finmap.lookup_eq_none, ← Option.isNone_iff_eq_none,
      ← Option.isNone_iff_eq_none]
    have none := congrArg not rows
    rw [Option.not_isSome, Option.not_isSome] at none
    exact Bool.eq_iff_iff.1 none
  dsimp only
  by_cases present : id ∈ inMemory calls
  · rw [if_pos present, if_neg fun none => absent.1 none present]
  · rw [if_neg present, if_pos (absent.2 present)]

theorem stores_agree_sample : (∀ earlier, earlier <+: sampleCalls → SameLoads PgEventStore.sampleSqlx earlier) ∧
    ∀ id, IsText id →
      (PgSnapshotStore.delete PgEventStore.sampleSqlx (inPostgres PgEventStore.sampleSqlx sampleCalls) id).1 =
        ((inMemory sampleCalls).delete id).1 := by
  obtain ⟨loads, deletes⟩ := stores_agree_iff PgEventStore.sampleSqlx sampleCalls
  exact ⟨loads.2 keepsType_sampleCalls, deletes fun snap mem _ => (saved_sampleCalls snap mem).1 ▸ by decide⟩

/-- **With its types kept, all ids taken and all versions below `2^63` the latest snapshot of a type has the same
version in both**, in whatever order the map of the store in memory is gone through. -/
theorem latest_agree (sqlx : Sqlx) (calls : List Call)
    (keeps : ∀ earlier call, earlier ++ [call] <+: calls → KeepsType earlier call)
    (saved : ∀ snap, .save snap ∈ calls → IsText snap.aggregateId ∧ snap.version.toNat < 2 ^ 63) {ids : List String}
    (listed : ∀ id, id ∈ ids ↔ id ∈ inMemory calls) {t : String} (plain : IsText t) :
    ∃ latest, PgSnapshotStore.loadLatest sqlx (inPostgres sqlx calls) t = .ok latest ∧
      latest.map (·.version) = ((inMemory calls).loadLatest ids t).map (·.version) := by
  have same : SameLoads sqlx calls := (forall_sameLoads_iff sqlx calls).2 keeps calls List.prefix_rfl
  refine ⟨_, query_eq_ok (by simpa using plain) _, ?_⟩
  -- a row and the snapshot it stands for have the same version, which is no negative number
  have version : ∀ {row snap}, row ∈ inPostgres sqlx calls → PgSnapshotStore.rowToSnapshot row = micro snap →
      row.version = (snap.version.toNat : ℤ) := by
    intro row snap mem eq
    obtain ⟨-, -, s, saves, shape⟩ := row_spec (mem_inPostgres_iff.1 mem)
    have versions : s.version = snap.version := by
      have same := congrArg Snapshot.version eq
      rw [shape, rowToSnapshot_rowOf] at same
      exact same
    have below : s.version.toNat < 9223372036854775808 := by simpa using (saved s saves).2
    rw [shape, rowOf, ← versions]
    dsimp only
    rw [toI64_cases (below.trans (by decide)), if_pos below]
  have mem : ∀ snap, snap ∈ ((ids.filterMap (inMemory calls).lookup).filter (·.aggregateType = t)).reverse ↔
      (inMemory calls).lookup snap.aggregateId = some snap ∧ snap.aggregateType = t := by
    intro snap
    rw [List.mem_reverse, List.mem_filter, List.mem_filterMap, decide_eq_true_eq]
    refine and_congr_left fun _ => ⟨?_, fun found => ⟨_, (listed _).2 (Finmap.mem_iff.2 ⟨snap, found⟩), found⟩⟩
    rintro ⟨id, -, found⟩
    rwa [(saved_of_lookup found).1]
  have largest :
      (FirstMax.firstMax (·.version) ((inPostgres sqlx calls).filter (·.aggregateType = t))).map (·.version) =
        ((inMemory calls).loadLatest ids t).map fun snap => (snap.version.toNat : ℤ) := by
    refine FirstMax.map_firstMax_eq _ _ (fun row inside => ?_) fun snap inside => ?_
    · rw [List.mem_filter, decide_eq_true_eq] at inside
      have found := mem_inPostgres_iff.1 inside.1
      have loaded := sameLoads_iff.1 same row.aggregateId (row_spec found).1
      rw [found, Option.map_some, eq_comm, Option.map_eq_some_iff] at loaded
      obtain ⟨snap, stored, eq⟩ := loaded
      have type : row.aggregateType = snap.aggregateType := (congrArg Snapshot.aggregateType eq).symm
      refine ⟨snap, (mem snap).2 ⟨?_, type.symm.trans inside.2⟩, (version inside.1 eq.symm).symm⟩
      rwa [(saved_of_lookup stored).1]
    · obtain ⟨stored, kind⟩ := (mem snap).1 inside
      obtain ⟨row, found, eq, type⟩ := same.aggregateType (saved snap (saved_of_lookup stored).2).1 stored
      have inTable : row ∈ inPostgres sqlx calls := List.mem_of_find?_eq_some found
      exact ⟨row, List.mem_filter.2 ⟨inTable, decide_eq_true (type.trans kind)⟩, version inTable eq⟩
  have injective : Function.Injective fun v : UInt64 => (v.toNat : ℤ) :=
    fun v w eq => UInt64.toNat_inj.1 (Int.ofNat_inj.1 eq)
  refine Option.map_injective injective ?_
  rw [Option.map_map, Option.map_map, Option.map_map]
  refine Eq.trans (Option.map_congr fun row latest => ?_) largest
  have inTable := (List.mem_filter.1 (FirstMax.mem_of_firstMax _ latest)).1
  have found := mem_inPostgres_iff.1 inTable
  have loaded := sameLoads_iff.1 same row.aggregateId (row_spec found).1
  rw [found, Option.map_some, eq_comm, Option.map_eq_some_iff] at loaded
  obtain ⟨snap, -, eq⟩ := loaded
  rw [version inTable eq.symm]
  show ((PgSnapshotStore.rowToSnapshot row).version.toNat : ℤ) = _
  rw [← eq, micro]

theorem latest_agree_sample : ∃ latest,
    PgSnapshotStore.loadLatest PgEventStore.sampleSqlx (inPostgres PgEventStore.sampleSqlx sampleCalls) "Task" =
      .ok latest ∧
    latest.map (·.version) = ((inMemory sampleCalls).loadLatest ["b", "a"] "Task").map (·.version) := by
  refine latest_agree _ sampleCalls keepsType_sampleCalls
    (fun snap mem => ⟨(saved_sampleCalls snap mem).2.1, (saved_sampleCalls snap mem).2.2.trans_le (by norm_num)⟩)
    (fun id => ?_) (by decide)
  rw [← Finmap.lookup_isSome]
  have lookup : (inMemory sampleCalls).lookup id = if "a" = id then some (sampleSnapshot "a" 3)
      else if "c" = id then none else if "b" = id then some (sampleSnapshot "b" 2)
      else if "c" = id then some (sampleSnapshot "c" 9) else if "a" = id then some (sampleSnapshot "a" 1)
      else none := by
    have parts : sampleCalls = ((((([] ++ [Call.save (sampleSnapshot "a" 1)]) ++ [.save (sampleSnapshot "c" 9)]) ++
      [.save (sampleSnapshot "b" 2)]) ++ [.delete "c"]) ++ [.save (sampleSnapshot "a" 3)]) := rfl
    rw [parts, inMemory_save, inMemory_delete, inMemory_save, inMemory_save, inMemory_save]
    rfl
  rw [lookup]
  by_cases a : "a" = id
  · simp [← a]
  by_cases b : "b" = id
  · simp [← b]
  · simp [a, b, Ne.symm a, Ne.symm b]

end SnapshotStore

end TORdex
