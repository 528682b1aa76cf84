import TORdex.Core.EventStore

/-!
# The Postgres event store

Each call is one SQL statement, but `append` is two: `SELECT MAX(version)` and `INSERT`, with the
statements of other clients in between.  On an empty aggregate `MAX` gives a row with `NULL`, which
does not decode into an `i64`; so no append ever gets to its `INSERT`, and the table stays empty.
A statement with a zero character in a text fails.
-/

namespace TORdex

/-- `TEXT` takes every string without a zero character. -/
def IsText (s : String) : Prop := Char.ofNat 0 ∉ s.toList

instance (s : String) : Decidable (IsText s) := inferInstanceAs (Decidable (_ ∉ _))

/-- A row of `kernel_events`.  The metadata object reads back as the map it was written from. -/
structure Row where
  id : String
  aggregateId : String
  aggregateType : String
  eventType : String
  version : ℤ
  data : Value
  metadata : HashMap String String
  timestamp : OffsetDateTime

/-- `u64 as i64`. -/
def toI64 (n : ℕ) : ℤ := Int.bmod n (2 ^ 64)

/-- `i64 as u64`. -/
def toU64 (n : ℤ) : ℕ := (n % 2 ^ 64).toNat

/-- What the database driver decides: its error texts, and the ULIDs minted for unreadable ids. -/
structure Sqlx where
  decodeNull : String
  /-- The error over a zero character in a text. -/
  invalidText : String
  /-- The error over a zero character in a text of a JSON value. -/
  invalidJson : Row → Option String
  duplicateKey : String → String
  checkViolation : ℤ → String
  fresh : ℕ → Ulid

namespace PgEventStore

/-- `TIMESTAMPTZ` keeps microseconds since the year 2000. -/
def toTimestamptz (t : OffsetDateTime) : OffsetDateTime :=
  let epoch := 946684800 * 10 ^ 9
  epoch + (t - epoch).tdiv 1000 * 1000

/-- The values bound by the `INSERT`. -/
def rowOf (event : EventEnvelope) : Row where
  id := event.id.toString
  aggregateId := event.aggregateId
  aggregateType := event.aggregateType
  eventType := event.eventType
  version := toI64 event.version
  data := event.data
  metadata := event.metadata
  timestamp := toTimestamptz event.timestamp

/-- A row read back. -/
def rowToEnvelope (fresh : Ulid) (row : Row) : EventEnvelope where
  id := (Ulid.fromString row.id).getD fresh
  aggregateId := row.aggregateId
  aggregateType := row.aggregateType
  eventType := row.eventType
  version := toU64 row.version
  data := row.data
  metadata := row.metadata
  timestamp := row.timestamp

section Statements

variable (sqlx : Sqlx) (table : List Row)

/-- `SELECT MAX(version) … WHERE aggregate_id = $1`, decoded into `(i64,)`. -/
def selectMax (aggregateId : String) : Except String (Option ℤ) :=
  if IsText aggregateId then
    match ((table.filter (·.aggregateId == aggregateId)).map (·.version)).max? with
    | some version => .ok (some version)
    | none => .error sqlx.decodeNull
  else .error sqlx.invalidText

/-- `INSERT INTO kernel_events`, under the types, the check and the primary key of the table. -/
def insert (row : Row) : Except String (List Row) :=
  if ¬(IsText row.aggregateId ∧ IsText row.aggregateType ∧ IsText row.eventType) then .error sqlx.invalidText
  else
    match sqlx.invalidJson row with
    | some e => .error e
    | none =>
      if row.version ≤ 0 then .error (sqlx.checkViolation row.version)
      else if table.any (·.id == row.id) then .error (sqlx.duplicateKey row.id)
      else .ok (table ++ [row])

/-- The rows with a text in the column, by a key. -/
def select (column : Row → String) (text : String) (key : Row → ℤ) : Except String (List Row) :=
  if IsText text then
    .ok ((table.filter fun row => column row == text).mergeSort fun a b => decide (key a ≤ key b))
  else .error sqlx.invalidText

/-- The envelopes of some rows. -/
def envelopes (rows : List Row) : List EventEnvelope :=
  rows.zipIdx.map fun (row, i) => rowToEnvelope (sqlx.fresh i) row

/-- The first statement of `append`: the version check. -/
def checkVersion (event : EventEnvelope) : Except EventStoreError Unit :=
  match selectMax sqlx table event.aggregateId with
  | .error e => .error (.storage e)
  | .ok latest =>
    let current := toU64 (latest.getD 0)
    if event.version ≠ current + 1 then
      .error (.versionConflict event.aggregateId (current + 1) event.version)
    else .ok ()

/-- The events of an aggregate, by version. -/
def readEvents (aggregateId : String) : Except EventStoreError (List EventEnvelope) :=
  match select sqlx table (·.aggregateId) aggregateId (·.version) with
  | .error e => .error (.storage e)
  | .ok rows => .ok (envelopes sqlx rows)

/-- The events of a type of aggregates, by timestamp. -/
def readAll (aggregateType : String) : Except EventStoreError (List EventEnvelope) :=
  match select sqlx table (·.aggregateType) aggregateType (·.timestamp) with
  | .error e => .error (.storage e)
  | .ok rows => .ok (envelopes sqlx rows)

/-- The largest version of an aggregate, zero where the statement fails. -/
def latestVersion (aggregateId : String) : ℕ :=
  match selectMax sqlx table aggregateId with
  | .ok (some version) => toU64 (max version 0)
  | _ => 0

end Statements

/-! ## Calls of several clients -/

/-- A call of the store. -/
inductive StoreCall where
  | append (event : EventEnvelope)
  | readEvents (aggregateId : String)
  | readAll (aggregateType : String)
  | latestVersion (aggregateId : String)

/-- What a call returns. -/
inductive Response where
  | appended (result : Except EventStoreError Unit)
  | events (result : Except EventStoreError (List EventEnvelope))
  | version (n : ℕ)

/-- A call that has returned. -/
structure Completed (ι : Type) where
  client : ι
  call : StoreCall
  response : Response

/-- The table, the appends between their two statements, and the calls that have returned. -/
structure Database (ι : Type) where
  table : List Row
  pending : ι → Option EventEnvelope
  history : List (Completed ι)

/-- A client issues the first statement of a call, or the second one of its append. -/
inductive Action (ι : Type) where
  | issue (client : ι) (call : StoreCall)
  | proceed (client : ι)

variable {ι : Type} [DecidableEq ι] (sqlx : Sqlx)

/-- The database as it is created. -/
def Database.empty : Database ι := ⟨[], fun _ => none, []⟩

/-- The call returns. -/
def Database.complete (db : Database ι) (client : ι) (call : StoreCall) (response : Response) :
    Database ι :=
  { db with history := db.history ++ [⟨client, call, response⟩] }

/-- One SQL statement.  A client runs one call at a time. -/
def Database.step (db : Database ι) : Action ι → Database ι
  | .issue client call =>
    if (db.pending client).isSome then db
    else
      match call with
      | .append event =>
        match checkVersion sqlx db.table event with
        | .error e => db.complete client call (.appended (.error e))
        | .ok () => { db with pending := Function.update db.pending client (some event) }
      | .readEvents a => db.complete client call (.events (readEvents sqlx db.table a))
      | .readAll t => db.complete client call (.events (readAll sqlx db.table t))
      | .latestVersion a => db.complete client call (.version (latestVersion sqlx db.table a))
  | .proceed client =>
    match db.pending client with
    | none => db
    | some event =>
      let idle := { db with pending := Function.update db.pending client none }
      match insert sqlx db.table (rowOf event) with
      | .error e => idle.complete client (.append event) (.appended (.error (.storage e)))
      | .ok table => { idle with table }.complete client (.append event) (.appended (.ok ()))

/-- Any interleaving of the statements of the clients, from the table as it is created. -/
def run (actions : List (Action ι)) : Database ι := actions.foldl (Database.step sqlx) .empty

end PgEventStore

open PgEventStore

/-- The in-memory store answers a call; `none` is a panic. -/
def InMemoryEventStore.answer (s : InMemoryEventStore) :
    StoreCall → Option Response × InMemoryEventStore
  | .append event =>
    match s.append event with
    | .error e => (some (.appended (.error e)), s)
    | .ok s' => (some (.appended (.ok ())), s')
  | .readEvents a => ((s.readEvents a).map fun found => .events (.ok found), s)
  | .readAll t => ((s.readAll t).map fun found => .events (.ok found), s)
  | .latestVersion a => (some (.version (s.latestVersion a)), s)

/-- The answers to a sequence of calls. -/
def InMemoryEventStore.answers (s : InMemoryEventStore) : List StoreCall → List (Option Response)
  | [] => []
  | call :: calls => (s.answer call).1 :: (s.answer call).2.answers calls

namespace PgEventStore

variable {ι : Type} [DecidableEq ι]

/-- The responses are those of the in-memory store to some sequence of the same calls that keeps each
client's order, and no two stored events of an aggregate share a version. -/
structure Refines (db : Database ι) : Prop where
  sequential : ∃ order : List (Completed ι), order.Perm db.history ∧
    (∀ c, order.filter (·.client = c) = db.history.filter (·.client = c)) ∧
    InMemoryEventStore.new.answers (order.map (·.call)) = order.map fun d => some d.response
  versions : db.table.Pairwise fun a b => a.aggregateId = b.aggregateId → a.version ≠ b.version

/-- What a call returns on an empty table. -/
def emptyResponse (sqlx : Sqlx) : StoreCall → Response
  | .append event =>
    .appended (.error (.storage (if IsText event.aggregateId then sqlx.decodeNull else sqlx.invalidText)))
  | .readEvents text | .readAll text => .events (if IsText text then .ok [] else .error (.storage sqlx.invalidText))
  | .latestVersion _ => .version 0

/-- The call does not append, and it reads events by a text that Postgres takes. -/
def Reads : StoreCall → Prop
  | .append _ => False
  | .readEvents text | .readAll text => IsText text
  | .latestVersion _ => True

/-- The calls that the actions issue. -/
def issued (actions : List (Action ι)) : List (ι × StoreCall) :=
  actions.filterMap fun
    | .issue client call => some (client, call)
    | .proceed _ => none

/-- The database after calls that left the table empty. -/
def untouched (sqlx : Sqlx) (calls : List (ι × StoreCall)) : Database ι where
  table := []
  pending := fun _ => none
  history := calls.map fun (client, call) => ⟨client, call, emptyResponse sqlx call⟩

theorem selectMax_empty (sqlx : Sqlx) (aggregateId : String) : selectMax sqlx [] aggregateId =
    .error (if IsText aggregateId then sqlx.decodeNull else sqlx.invalidText) := by
  unfold selectMax
  split_ifs <;> rfl

theorem select_empty (sqlx : Sqlx) (column : Row → String) (text : String) (key : Row → ℤ) :
    select sqlx [] column text key = if IsText text then .ok [] else .error sqlx.invalidText := by
  simp [select]

theorem step_untouched (sqlx : Sqlx) (calls : List (ι × StoreCall)) (action : Action ι) :
    (untouched sqlx calls).step sqlx action = untouched sqlx (calls ++ issued [action]) := by
  cases action with
  | proceed client => simp [Database.step, untouched, issued]
  | issue client call =>
    have found : issued [Action.issue client call] = [(client, call)] := rfl
    rw [found]
    cases call with
    | append event => simp [Database.step, untouched, Database.complete, checkVersion, selectMax_empty, emptyResponse]
    | readEvents text =>
      by_cases plain : IsText text <;>
        simp [Database.step, untouched, Database.complete, readEvents, select_empty, envelopes, emptyResponse, plain]
    | readAll text =>
      by_cases plain : IsText text <;>
        simp [Database.step, untouched, Database.complete, readAll, select_empty, envelopes, emptyResponse, plain]
    | latestVersion id =>
      simp [Database.step, untouched, Database.complete, latestVersion, selectMax_empty, emptyResponse]

/-- From the empty table no append gets to its insert, whatever the interleaving. -/
theorem run_eq_untouched (sqlx : Sqlx) (actions : List (Action ι)) :
    run sqlx actions = untouched sqlx (issued actions) := by
  induction actions using List.reverseRecOn with
  | nil => rfl
  | append_singleton actions action ih =>
    have split : issued (actions ++ [action]) = issued actions ++ issued [action] :=
      List.filterMap_append
    unfold run at ih ⊢
    rw [List.foldl_append, ih, split]
    exact step_untouched sqlx (issued actions) action

omit [DecidableEq ι] in
theorem mem_issued {actions : List (Action ι)} {client : ι} {call : StoreCall} :
    (client, call) ∈ issued actions ↔ .issue client call ∈ actions := by
  unfold issued
  rw [List.mem_filterMap]
  constructor
  · rintro ⟨_ | _, ha, he⟩ <;> cases he
    exact ha
  · exact fun ha => ⟨_, ha, rfl⟩

omit [DecidableEq ι] in
/-- The in-memory store answers as the empty table only calls that read. -/
theorem reads_of_answers {sqlx : Sqlx} {order : List (Completed ι)} {s : InMemoryEventStore}
    (h : s.answers (order.map (·.call)) = order.map fun d => some d.response)
    {d : Completed ι} (hd : d ∈ order) (empty : d.response = emptyResponse sqlx d.call) : Reads d.call := by
  induction order generalizing s with
  | nil => exact absurd hd List.not_mem_nil
  | cons first rest ih =>
    obtain ⟨now, later⟩ := List.cons.inj h
    rcases List.mem_cons.1 hd with rfl | hd
    · dsimp only at now
      rw [empty] at now
      -- in memory there are no storage errors
      cases call : d.call with
      | append event =>
        rw [call] at now
        unfold InMemoryEventStore.answer InMemoryEventStore.append at now
        dsimp only at now
        split_ifs at now <;> cases now
      | readEvents text =>
        rw [call] at now
        by_contra refused
        have zero : ¬IsText text := refused
        rw [emptyResponse, if_neg zero] at now
        obtain ⟨found, -, same⟩ := Option.map_eq_some_iff.1 now
        cases same
      | readAll text =>
        rw [call] at now
        by_contra refused
        have zero : ¬IsText text := refused
        rw [emptyResponse, if_neg zero] at now
        obtain ⟨found, -, same⟩ := Option.map_eq_some_iff.1 now
        cases same
      | latestVersion id => trivial
    · exact ih later hd

omit [DecidableEq ι] in
/-- Reads of the empty in-memory store. -/
theorem answers_new (sqlx : Sqlx) {calls : List (ι × StoreCall)} (h : ∀ c ∈ calls, Reads c.2) :
    InMemoryEventStore.new.answers (calls.map (·.2)) =
      calls.map fun (_, call) => some (emptyResponse sqlx call) := by
  induction calls with
  | nil => rfl
  | cons first rest ih =>
    have later := ih fun c hm => h c (List.mem_cons_of_mem _ hm)
    have now := h first List.mem_cons_self
    obtain ⟨client, call⟩ := first
    simp only [List.map_cons, InMemoryEventStore.answers]
    cases call with
    | append event => exact absurd now id
    | readEvents text | readAll text =>
      have plain : IsText text := now
      rw [emptyResponse, if_pos plain]
      exact congrArg₂ _ rfl later
    | latestVersion _ => exact congrArg₂ _ rfl later

/-- The statements of any clients in any order refine the in-memory store exactly when none of them
appends, or reads events by an id or a type with a zero character. -/
theorem run_refines_iff (sqlx : Sqlx) (actions : List (Action ι)) :
    Refines (run sqlx actions) ↔ ∀ client call, .issue client call ∈ actions → Reads call := by
  rw [run_eq_untouched]
  constructor
  · rintro ⟨⟨order, perm, -, same⟩, -⟩ client call hm
    have returned : (⟨client, call, emptyResponse sqlx call⟩ : Completed ι) ∈
        order := perm.mem_iff.2 (List.mem_map.2 ⟨_, mem_issued.2 hm, rfl⟩)
    exact reads_of_answers same returned rfl
  · intro reads
    refine ⟨⟨_, List.Perm.refl _, fun _ => rfl, ?_⟩, List.Pairwise.nil⟩
    have answered := answers_new sqlx fun c hm => reads c.1 c.2 (mem_issued.1 hm)
    simpa only [untouched, List.map_map, Function.comp_def] using answered

/-- The error texts of sqlx and Postgres. -/
def sampleSqlx : Sqlx where
  invalidText := "error returned from database: invalid byte sequence for encoding \"UTF8\": 0x00"
  invalidJson _ := none
  decodeNull := "error occurred while decoding column 0: unexpected null; try decoding as an `Option`"
  duplicateKey _ := "duplicate key value violates unique constraint \"kernel_events_pkey\""
  checkViolation _ := "new row violates check constraint \"kernel_events_version_chk\""
  fresh := Ulid.ofNat

/-- The first append of version 1 to a new aggregate fails. -/
theorem run_not_refines :
    ¬ Refines (run sampleSqlx [Action.issue () (.append
      ((SystemEvent.entityDeleted "e1").intoEnvelope 1 (Ulid.ofNat 0) 0))]) := by
  rw [run_eq_untouched]
  rintro ⟨⟨order, perm, -, same⟩, -⟩
  exact reads_of_answers same (perm.mem_iff.2 List.mem_cons_self) rfl

end PgEventStore

end TORdex
