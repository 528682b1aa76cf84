import TORdex.Cluster.Results

/-!
# What the collecting calls return

When calls read no result that another one is about to delete, no result is returned twice.  Calls one after the
other return all results exactly if each is read back for its task and fewer unreadable entries than one call
reads stand before a readable one: nothing deletes them.
-/

namespace TORdex.Cluster

open LogStream

namespace Results

variable {Payload : Type} (serde : Serde Payload)

/-- The entry gives a result. -/
def readable (e : StreamEntry Fields) : Bool := (resultOf serde e).isSome

/-- The results in entries. -/
def takenFrom (entries : List (StreamEntry Fields)) : List Taken :=
  entries.filterMap fun e => (resultOf serde e).map fun result => (e, result)

/-- No call is under way. -/
def Quiet (s : Results) : Prop := ∀ call, s.calls call = none ∨ ∃ results, s.calls call = some (.returned results)

/-- A call of `collect_results` from its start to its end, with nothing in between. -/
def collectOnce (count : ℕ) (s : Results) (call : ℕ) : Results :=
  (.collect call count :: .read call :: List.replicate (count + 1) (.handle call)).foldl (step serde) s

/-- Calls one after the other. -/
def collectRepeatedly (count : ℕ) (calls : List ℕ) (s : Results) : Results :=
  calls.foldl (collectOnce serde count) s

/-- Every published result has been returned, for its task and from its entry. -/
def AllReturned (s : Results) : Prop :=
  ∀ t ∈ s.published, ∃ call results, s.calls call = some (.returned results) ∧
    ∃ u ∈ results, u.1 = t.1 ∧ u.2.taskId = t.2.taskId

/-- Fewer unreadable entries than a call reads stand before each readable one. -/
def Unblocked (count : ℕ) (entries : List (StreamEntry Fields)) : Prop :=
  ∀ before e after, entries = before ++ e :: after → readable serde e →
    before.countP (fun d => !readable serde d) < count

/-- What a call leaves of the stream. -/
def rest (count : ℕ) (entries : List (StreamEntry Fields)) : List (StreamEntry Fields) :=
  (entries.take count).filter (fun e => !readable serde e) ++ entries.drop count

variable {serde}

/-! ## What stands in the stream -/

section Rest

variable {count : ℕ} {entries : List (StreamEntry Fields)}

theorem rest_unblocked (h : Unblocked serde count entries) : Unblocked serde count (rest serde count entries) := by
  intro before e after split readable
  have unreadable : ∀ d ∈ (entries.take count).filter (fun e => !Results.readable serde e),
      !Results.readable serde d := fun d hd => (List.mem_filter.1 hd).2
  rcases List.append_eq_append_iff.1 split with ⟨middle, eq, whole⟩ | ⟨middle, eq, whole⟩
  · have := h (entries.take count ++ middle) e after
      (by rw [List.append_assoc, ← whole, List.take_append_drop]) readable
    rw [eq, List.countP_append, List.countP_filter]
    rw [List.countP_append] at this
    simpa using this
  · cases middle with
    | nil =>
      have := h (entries.take count) e after
        (by rw [show e :: after = entries.drop count from whole, List.take_append_drop]) readable
      rw [List.append_nil] at eq
      rw [← eq, List.countP_filter]
      simpa using this
    | cons d middle =>
      have same : e = d := (List.cons.inj whole).1
      have := unreadable e (eq ▸ List.mem_append_right _ (same ▸ List.mem_cons_self))
      simp [readable] at this

/-- An entry behind too many unreadable ones stays, and they stay before it. -/
theorem rest_blocked {before after : List (StreamEntry Fields)} {e : StreamEntry Fields}
    (h : count ≤ before.countP fun d => !readable serde d) : ∃ before',
      rest serde count (before ++ e :: after) = before' ++ e :: after ∧
        count ≤ before'.countP fun d => !readable serde d := by
  have long : count ≤ before.length := h.trans List.countP_le_length
  refine ⟨rest serde count before, ?_, ?_⟩
  · rw [rest, rest, List.take_append_of_le_length long, List.drop_append_of_le_length long, List.append_assoc]
  · rw [rest, List.countP_append, List.countP_filter]
    calc count ≤ before.countP fun d => !readable serde d := h
      _ = _ := by
        conv_lhs => rw [← List.take_append_drop count before]
        rw [List.countP_append]
        simp

/-- A call takes a result while there is one. -/
theorem countP_rest_lt (h : Unblocked serde count entries) {e : StreamEntry Fields} (mem : e ∈ entries)
    (readable : readable serde e) :
    (rest serde count entries).countP (Results.readable serde) < entries.countP (Results.readable serde) := by
  have none :
      ((entries.take count).filter fun e => !Results.readable serde e).countP (Results.readable serde) = 0 := by
    simp [List.countP_eq_zero]
  conv_rhs => rw [← List.take_append_drop count entries]
  rw [rest, List.countP_append, none, List.countP_append, Nat.zero_add]
  suffices 0 < (entries.take count).countP (Results.readable serde) by omega
  rw [List.countP_pos_iff]
  by_contra all
  simp only [not_exists, not_and] at all
  obtain ⟨before, after, split⟩ := List.append_of_mem mem
  have late : count ≤ before.length := by
    by_contra early
    refine all e ?_ readable
    rw [split, List.mem_take_iff_getElem]
    exact ⟨before.length, by simp; omega, by simp⟩
  have first : entries.take count = before.take count := by
    rw [split, List.take_append_of_le_length late]
  have counted : (before.take count).countP (fun d => !Results.readable serde d) = count := by
    rw [List.countP_eq_length.2, List.length_take, min_eq_left late]
    intro d hd
    simpa using all d (first ▸ hd)
  have := h before e after split readable
  have := (List.take_sublist count before).countP_le (p := fun d => !Results.readable serde d)
  omega

end Rest

/-! ## One call -/

variable {s : Results} {call : ℕ}

/-- The commands of a call after its read, with nothing in between. -/
theorem foldl_handle {left : List (StreamEntry Fields)} {results : List Taken} {steps : ℕ}
    (handling : s.calls call = some (.handling left results)) (enough : left.length < steps) :
    let s' := (List.replicate steps (ResultAction.handle call)).foldl (step serde) s
    s'.calls = Function.update s.calls call (some (.returned (results ++ takenFrom serde left))) ∧
      s'.published = s.published ∧
      s'.stream.entries = s.stream.entries.filter fun e => left.all fun d => !readable serde d || e.id ≠ d.id := by
  induction left generalizing s results steps with
  | nil =>
    obtain ⟨steps, rfl⟩ : ∃ n, steps = n + 1 := ⟨steps - 1, by have := enough; simp at this; omega⟩
    have idle (n : ℕ) : (List.replicate n (ResultAction.handle call)).foldl (step serde)
        (s.setCall call (.returned results)) = s.setCall call (.returned results) := by
      induction n with
      | zero => rfl
      | succ n ih =>
        have : (s.setCall call (.returned results)).handle serde call = s.setCall call (.returned results) := by
          simp [handle, setCall]
        rw [List.replicate_succ, List.foldl_cons, step, this, ih]
    have returns : s.handle serde call = s.setCall call (.returned results) := by
      rw [handle, handling]
    rw [List.replicate_succ, List.foldl_cons, step, returns, idle]
    refine ⟨by simp [setCall, takenFrom], rfl, ?_⟩
    simp [setCall]
  | cons e left ih =>
    obtain ⟨steps, rfl⟩ : ∃ n, steps = n + 1 := ⟨steps - 1, by omega⟩
    rw [List.replicate_succ, List.foldl_cons, step]
    have enough' : left.length < steps := by simpa using enough
    cases found : resultOf serde e with
    | none =>
      have skips : s.handle serde call = s.setCall call (.handling left results) := by
        simp only [handle, handling, found]
      have next : (s.setCall call (.handling left results)).calls call = some (.handling left results) := by
        simp [setCall]
      obtain ⟨calls, published, entries⟩ := ih next enough'
      rw [skips]
      refine ⟨calls.trans ?_, published, entries.trans ?_⟩
      · simp [setCall, takenFrom, found]
      · simp [setCall, readable, found]
    | some result =>
      have takes : s.handle serde call = { s with stream := s.stream.delete e.id }.setCall call
          (.handling left (results ++ [(e, result)])) := by
        simp only [handle, handling, found]
      have next : ({ s with stream := s.stream.delete e.id }.setCall call
          (.handling left (results ++ [(e, result)]))).calls call =
            some (.handling left (results ++ [(e, result)])) := by
        simp [setCall]
      obtain ⟨calls, published, entries⟩ := ih next enough'
      rw [takes]
      refine ⟨calls.trans ?_, published, entries.trans ?_⟩
      · simp [setCall, takenFrom, found]
      · simp only [setCall, Stream.delete, List.filter_filter]
        congr 1
        funext d
        simp [readable, found, Bool.and_comm]

theorem filter_eq_rest (s : Stream Fields) (count : ℕ) : (s.entries.filter fun e =>
    (s.entries.take count).all fun d => !readable serde d || e.id ≠ d.id) = rest serde count s.entries := by
  have split : s.entries = s.entries.take count ++ s.entries.drop count := (List.take_append_drop _ _).symm
  have apart := s.ordered
  rw [split, List.pairwise_append] at apart
  conv_lhs => rw [split]
  rw [List.filter_append, ← split, rest]
  congr 1
  · refine List.filter_congr fun e he => ?_
    have mem : ∀ d ∈ s.entries.take count, d ∈ s.entries := fun d hd => List.mem_of_mem_take hd
    rw [Bool.eq_iff_iff]
    simp only [List.all_eq_true, Bool.or_eq_true, Bool.not_eq_true', decide_eq_true_eq]
    constructor
    · exact fun h => (h e he).resolve_right fun ne => ne rfl
    · intro h d hd
      by_cases same : e.id = d.id
      · exact .inl (s.eq_of_id (mem e he) (mem d hd) same ▸ h)
      · exact .inr same
  · refine List.filter_eq_self.2 fun e he => ?_
    simp only [List.all_eq_true, Bool.or_eq_true, decide_eq_true_eq]
    exact fun d hd => .inr (apart.2.2 d hd e he).ne'

/-- What a call of its own does to the stream and to the calls. -/
theorem collectOnce_spec {count : ℕ} (limited : 0 < count) (fresh : s.calls call = none) :
    (collectOnce serde count s call).calls =
        Function.update s.calls call (some (.returned (takenFrom serde (s.stream.entries.take count)))) ∧
      (collectOnce serde count s call).published = s.published ∧
      (collectOnce serde count s call).stream.entries = rest serde count s.stream.entries := by
  have starts : (s.step serde (.collect call count)).step serde (.read call) =
      (s.setCall call (.reading count)).setCall call (.handling (s.stream.entries.take count) []) := by
    simp [step, fresh, setCall, Stream.read_zero _ limited]
  rw [collectOnce, List.foldl_cons, List.foldl_cons, starts]
  have handling : ((s.setCall call (.reading count)).setCall call
      (.handling (s.stream.entries.take count) [])).calls call =
        some (.handling (s.stream.entries.take count) []) := by
    simp [setCall]
  obtain ⟨calls, published, entries⟩ := @foldl_handle _ serde _ _ _ _ (count + 1) handling
    (Nat.lt_succ_of_le (List.length_take_le _ _))
  refine ⟨calls.trans ?_, published, entries.trans (filter_eq_rest s.stream count)⟩
  simp [setCall]

/-! ## Calls one after the other -/

theorem Quiet.leftOf (quiet : s.Quiet) (call : ℕ) : s.leftOf call = [] := by
  unfold Results.leftOf
  obtain none | ⟨results, returned⟩ := quiet call
  · rw [none]
    rfl
  · rw [returned]
    rfl

theorem Quiet.collectOnce {count : ℕ} (quiet : s.Quiet) (limited : 0 < count) (fresh : s.calls call = none) :
    (collectOnce serde count s call).Quiet := by
  intro other
  rw [(collectOnce_spec limited fresh).1, Function.update_apply]
  split_ifs
  · exact .inr ⟨_, rfl⟩
  · exact quiet other

theorem kept_collectOnce {count : ℕ} (kept : Kept serde s) (quiet : s.Quiet) (fresh : s.calls call = none) :
    Kept serde (collectOnce serde count s call) := by
  have handles : ∀ n (s : Results), Kept serde s →
      Kept serde ((List.replicate n (ResultAction.handle call)).foldl (step serde) s) := by
    intro n
    induction n with
    | zero => exact fun _ kept => kept
    | succ n ih => exact fun s kept => ih _ (kept.handle call)
  have none : s.resultsOf call = [] := by
    rw [resultsOf, fresh]
    rfl
  have starts : s.step serde (.collect call count) = s.setCall call (.reading count) := by
    simp [step, fresh]
  have reads : (s.setCall call (.reading count)).step serde (.read call) =
      (s.setCall call (.reading count)).setCall call (.handling (s.stream.read 0 count) []) := by
    simp [step, setCall]
  rw [collectOnce, List.foldl_cons, List.foldl_cons, starts, reads]
  have begun : Kept serde (s.setCall call (.reading count)) := kept.setCall (List.nil_sublist _) none.symm
  refine handles _ _ (begun.read (by simp [setCall]) ?_)
  intro _ _ e _ _ other
  rw [leftOf_setCall, quiet.leftOf]
  split_ifs <;> exact List.not_mem_nil

/-- When no call is under way, what is not returned is read for no task of its own or stands in the stream. -/
theorem Kept.allReturned_iff (kept : Kept serde s) (quiet : s.Quiet) :
    s.AllReturned ↔ (∀ t ∈ s.published, Reads serde t) ∧ ∀ e ∈ s.stream.entries, ¬readable serde e := by
  constructor
  · intro all
    have taken : ∀ t ∈ s.published, ∃ call, ∃ u ∈ s.resultsOf call, u.1 = t.1 ∧ u.2.taskId = t.2.taskId := by
      intro t published
      obtain ⟨call, results, returned, u, taken, same⟩ := all t published
      exact ⟨call, u, by rw [resultsOf, returned]; exact taken, same⟩
    constructor
    · intro t published
      obtain ⟨call, u, mem, same, task⟩ := taken t published
      exact ⟨u.2, same ▸ kept.taken call u mem, task⟩
    · intro e mem isReadable
      obtain ⟨t, published, rfl⟩ := List.mem_map.1 (kept.only e mem isReadable)
      obtain ⟨call, u, taken, same, -⟩ := taken t published
      exact (kept.gone call u taken).1 (same ▸ mem)
  · rintro ⟨reads, none⟩ t published
    obtain ⟨result, found, task⟩ := reads t published
    obtain present | ⟨call, taken⟩ := kept.somewhere t published
    · exact absurd (by rw [readable, found]; rfl) (none t.1 present)
    · obtain ⟨u, taken, same⟩ := List.mem_map.1 taken
      have read := kept.taken call u taken
      rw [same, found, Option.some.injEq] at read
      obtain idle | ⟨results, returned⟩ := quiet call
      · rw [resultsOf, idle] at taken
        cases taken
      · rw [resultsOf, returned] at taken
        exact ⟨call, results, returned, u, taken, same, read ▸ task⟩

theorem collectRepeatedly_spec {count : ℕ} {calls : List ℕ} (kept : Kept serde s) (quiet : s.Quiet)
    (limited : 0 < count) (nodup : calls.Nodup) (fresh : ∀ call ∈ calls, s.calls call = none) :
    Kept serde (collectRepeatedly serde count calls s) ∧ (collectRepeatedly serde count calls s).Quiet ∧
      (collectRepeatedly serde count calls s).published = s.published ∧
      (collectRepeatedly serde count calls s).stream.entries =
        (rest serde count)^[calls.length] s.stream.entries := by
  induction calls generalizing s with
  | nil => exact ⟨kept, quiet, rfl, rfl⟩
  | cons call calls ih =>
    obtain ⟨new, nodup⟩ := List.nodup_cons.1 nodup
    have here := fresh call List.mem_cons_self
    obtain ⟨after, published, entries⟩ := @collectOnce_spec _ serde _ _ _ limited here
    have fresh' : ∀ c ∈ calls, (collectOnce serde count s call).calls c = none := fun c hc => by
      have ne : c ≠ call := fun same => new (same ▸ hc)
      rw [after, Function.update_apply, if_neg ne]
      exact fresh c (List.mem_cons_of_mem _ hc)
    obtain ⟨kept', quiet', published', spec⟩ :=
      ih (kept_collectOnce kept quiet here) (quiet.collectOnce limited here) nodup fresh'
    refine ⟨kept', quiet', published'.trans published, spec.trans ?_⟩
    rw [entries, List.length_cons, Function.iterate_succ_apply]

theorem iterate_rest_of_unblocked {count n : ℕ} {entries : List (StreamEntry Fields)}
    (h : Unblocked serde count entries) (enough : entries.countP (readable serde) ≤ n) :
    ∀ e ∈ (rest serde count)^[n] entries, ¬readable serde e := by
  induction n generalizing entries with
  | zero =>
    intro e mem
    exact List.countP_eq_zero.1 (Nat.le_zero.1 enough) e mem
  | succ n ih =>
    rw [Function.iterate_succ_apply]
    refine ih (rest_unblocked h) ?_
    by_cases some : ∃ e ∈ entries, readable serde e
    · obtain ⟨e, mem, isReadable⟩ := some
      have := countP_rest_lt h mem isReadable
      omega
    · have none : entries.countP (readable serde) = 0 :=
        List.countP_eq_zero.2 fun e mem isReadable => some ⟨e, mem, isReadable⟩
      have sub : (rest serde count entries).Sublist entries := by
        conv_rhs => rw [← List.take_append_drop count entries]
        exact List.filter_sublist.append (List.Sublist.refl _)
      have := sub.countP_le (p := readable serde)
      omega

theorem iterate_rest_of_blocked {count : ℕ} {before after : List (StreamEntry Fields)} {e : StreamEntry Fields}
    (h : count ≤ before.countP fun d => !readable serde d) (n : ℕ) :
    e ∈ (rest serde count)^[n] (before ++ e :: after) := by
  induction n generalizing before with
  | zero => exact List.mem_append_right _ List.mem_cons_self
  | succ n ih =>
    obtain ⟨before', eq, h'⟩ := @rest_blocked _ serde count before after e h
    rw [Function.iterate_succ_apply, eq]
    exact ih h'

/-- There are no more readable entries than published results. -/
theorem Kept.countP_readable_le (kept : Kept serde s) :
    s.stream.entries.countP (readable serde) ≤ s.published.length := by
  have nodup : (s.stream.entries.filter (readable serde)).Nodup :=
    (s.stream.ordered.imp fun lt same => lt.ne (congrArg StreamEntry.id same)).filter _
  have sub : s.stream.entries.filter (readable serde) ⊆ s.published.map Prod.fst := by
    intro e mem
    obtain ⟨mem, isReadable⟩ := List.mem_filter.1 mem
    exact kept.only e mem isReadable
  rw [List.countP_eq_length_filter, ← List.length_map Prod.fst]
  exact (nodup.subperm sub).length_le

/-- In every run whose calls read no result that another call has read and not deleted yet, no result is taken
twice; and when no call is under way, calls one after the other return all results exactly if each is read back
for its task and fewer unreadable entries than they read stand before each readable one. -/
theorem collected_once (run : Reached (step serde) (Exclusive serde) start s) :
    (∀ call, ((s.resultsOf call).map Prod.fst).Nodup ∧
        ∀ other ≠ call, ∀ t ∈ s.resultsOf call, t.1 ∉ (s.resultsOf other).map Prod.fst) ∧
      ∀ count calls, 0 < count → s.Quiet → calls.Nodup → (∀ call ∈ calls, s.calls call = none) →
        s.published.length ≤ calls.length →
          ((collectRepeatedly serde count calls s).AllReturned ↔
            (∀ t ∈ s.published, Reads serde t) ∧ Unblocked serde count s.stream.entries) := by
  have kept : Kept serde s := run.invariant kept_start fun s a kept exclusive => kept.step exclusive
  refine ⟨fun call => ⟨kept.nodup call, fun other ne t h => kept.once call t h other ne⟩,
    fun count calls limited quiet nodup fresh enough => ?_⟩
  obtain ⟨kept', quiet', published, entries⟩ := @collectRepeatedly_spec _ serde _ _ _ kept quiet limited nodup fresh
  rw [kept'.allReturned_iff quiet', published, entries]
  refine and_congr_right fun _ => ⟨fun none before e after split isReadable => ?_, fun unblocked => ?_⟩
  · by_contra blocked
    rw [split] at none
    exact none e (iterate_rest_of_blocked (not_lt.1 blocked) _) isReadable
  · exact iterate_rest_of_unblocked unblocked (kept.countP_readable_le.trans enough)

/-! ## One result -/

/-- The result of a task that brought a page. -/
def pageResult : TaskResult := .ok (.ofNat 0) (.str "page") "collector" 0

/-- Its text. -/
def pageJson : List UInt8 :=
  ("\x7b\x22task_id\x22:\x2200000000000000000000000000\x22,\x22success\x22:true,\x22data\x22:\x22page\x22," ++
    "\x22error\x22:null,\x22worker_id\x22:\x22collector\x22," ++
    "\x22completed_at\x22:[1970,1,0,0,0,0,0,0,0]\x7d").toUTF8.toList

/-- `serde_json` on the result of one task. -/
def pageSerde : Serde Unit where
  taskToString _ := .error ""
  taskFromStr _ := .error ""
  resultToString result := if result.taskId = pageResult.taskId then .ok pageJson else .error ""
  resultFromStr bytes := if bytes = pageJson then .ok pageResult else .error ""

/-- The entry of the result. -/
def pageFields : Fields := Finmap.singleton "result" (.bulkString pageJson)

theorem resultOf_page (id : ℕ) : resultOf pageSerde ⟨id, pageFields⟩ = some pageResult := by
  have read : pageSerde.resultFromStr pageJson = .ok pageResult := by simp only [pageSerde, if_true]
  rw [resultOf, pageFields, bulkField_singleton, Option.bind_some, read]
  rfl

theorem resultOf_empty (id : ℕ) : resultOf pageSerde ⟨id, ∅⟩ = none := by
  simp [resultOf, bulkField]

theorem resultToString_page : pageSerde.resultToString pageResult = .ok pageJson := by
  simp only [pageSerde, if_true]

theorem step_publish_page (s : Results) (gap : ℕ) : s.step pageSerde (.publish pageResult gap) = { s with
    stream := s.stream.add gap pageFields
    published := s.published ++ [(⟨s.stream.lastId + 1 + gap, pageFields⟩, pageResult)] } := by
  rw [step, publish, resultToString_page]
  rfl

theorem step_write_empty (s : Results) (gap : ℕ) :
    s.step pageSerde (.write ∅ gap) = { s with stream := s.stream.add gap ∅ } := by
  rw [step, write, resultOf_empty]
  rfl

/-- A read is exclusive when only unreadable entries are held. -/
theorem exclusive_of_left {call : ℕ} (h : ∀ other, ∀ e ∈ s.leftOf other, resultOf serde e = none) :
    Exclusive serde s (.read call) := by
  intro _ _ e _ isSome other mem
  rw [h other e mem] at isSome
  cases isSome

/-- Two calls whose reads overlap in an entry without a result: the second call reads when the first one has
taken its result and has that entry left. -/
def overlapping : List ResultAction :=
  [.publish pageResult 0, .write ∅ 0, .collect 0 2, .collect 1 2, .read 0, .handle 0, .publish pageResult 0,
    .read 1, .handle 0, .handle 1, .handle 1, .handle 0, .handle 1, .publish pageResult 0]

theorem overlapping_spec :
    let s := overlapping.foldl (step pageSerde) start
    (s.calls = fun call =>
      if call = 0 then some (.returned [(⟨1, pageFields⟩, pageResult)])
      else if call = 1 then some (.returned [(⟨3, pageFields⟩, pageResult)]) else none) ∧
      s.stream.entries = [⟨2, ∅⟩, ⟨4, pageFields⟩] ∧
      s.published = [1, 3, 4].map fun id => (⟨id, pageFields⟩, pageResult) := by
  rw [overlapping]
  simp only [List.foldl_cons, List.foldl_nil, step_publish_page, step_write_empty]
  simp [step, start, setCall, handle, Stream.read_zero, Stream.empty, Stream.add, Stream.delete, resultOf_page,
    resultOf_empty]
  funext call
  simp only [Function.update_apply]
  grind

theorem collected_once_overlapping :
    let s := overlapping.foldl (step pageSerde) start
    (∀ t ∈ s.resultsOf 0, t.1 ∉ (s.resultsOf 1).map Prod.fst) ∧
      (collectRepeatedly pageSerde 2 [2, 3, 4] s).AllReturned := by
  have run : Along (step pageSerde) (Exclusive pageSerde) start overlapping := by
    refine ⟨trivial, trivial, trivial, trivial, exclusive_of_left ?_, trivial, trivial, exclusive_of_left ?_,
      trivial, trivial, trivial, trivial, trivial, trivial, trivial⟩
    · rw [step_publish_page, step_write_empty]
      simp [step, start, setCall, leftOf, Function.update_apply]
      grind [Collecting.left]
    · rw [step_publish_page, step_write_empty, step_publish_page]
      simp [step, start, setCall, handle, Stream.read_zero, Stream.empty, resultOf_page, leftOf,
        Function.update_apply]
      grind [Collecting.left, resultOf_empty]
  obtain ⟨calls, entries, published⟩ := overlapping_spec
  obtain ⟨once, collects⟩ := collected_once run.reached
  refine ⟨(once 0).2 1 one_ne_zero, (collects 2 [2, 3, 4] Nat.two_pos ?_ (by decide) ?_ ?_).2 ⟨?_, ?_⟩⟩
  · intro call
    rw [calls]
    dsimp only
    split_ifs
    exacts [.inr ⟨_, rfl⟩, .inr ⟨_, rfl⟩, .inl rfl]
  · rw [calls]
    decide
  · rw [published]
    exact le_rfl
  · rw [published]
    simp [Reads, resultOf_page]
  · intro before e after split isReadable
    rw [entries] at split
    have one : before.length ≤ 1 := by
      have := congrArg List.length split
      simp at this
      omega
    exact (List.countP_le_length.trans one).trans_lt Nat.one_lt_two

/-- Two calls that both read before one of them deletes. -/
def twoReaders : Results :=
  ([.publish pageResult 0, .collect 0 1, .collect 1 1, .read 0, .read 1, .handle 0, .handle 0, .handle 1,
    .handle 1] : List ResultAction).foldl (step pageSerde) start

/-- An entry without a result before one with it. -/
def unreadableFirst : Results :=
  ([.write ∅ 0, .publish pageResult 0] : List ResultAction).foldl (step pageSerde) start

theorem unreadableFirst_eq : unreadableFirst = { start with
    stream := (Stream.empty.add 0 ∅).add 0 pageFields
    published := [(⟨2, pageFields⟩, pageResult)] } := by
  rw [unreadableFirst, List.foldl_cons, List.foldl_cons, step_publish_page, step_write_empty]
  rfl

/-- Both calls return the one result; and with the count 1 no number of calls gets past the unreadable entry,
though the result behind it can be read. -/
theorem not_collected_once :
    (∃ t, twoReaders.calls 0 = some (.returned [t]) ∧ twoReaders.calls 1 = some (.returned [t])) ∧
    (∀ t ∈ unreadableFirst.published, Reads pageSerde t) ∧
    ∀ calls : List ℕ, calls.Nodup → ¬(collectRepeatedly pageSerde 1 calls unreadableFirst).AllReturned := by
  have reads : ∀ t ∈ unreadableFirst.published, Reads pageSerde t := by
    rw [unreadableFirst_eq]
    intro t published
    obtain rfl := List.mem_singleton.1 published
    exact ⟨pageResult, resultOf_page 2, rfl⟩
  refine ⟨⟨(⟨1, pageFields⟩, pageResult), ?_⟩, reads, fun calls nodup all => ?_⟩
  · rw [twoReaders, List.foldl_cons, step_publish_page]
    simp [step, start, setCall, handle, Stream.read_zero, Stream.empty, resultOf_page]
  · have kept : Kept pageSerde unreadableFirst :=
      (kept_start.write ∅ 0).publish pageResult 0
    have quiet : unreadableFirst.Quiet := fun _ => .inl (by rw [unreadableFirst_eq]; rfl)
    obtain ⟨kept', quiet', -, entries⟩ := @collectRepeatedly_spec _ pageSerde _ 1 calls kept quiet Nat.one_pos nodup
      fun _ _ => by rw [unreadableFirst_eq]; rfl
    have stream : unreadableFirst.stream.entries = [⟨1, ∅⟩] ++ ⟨2, pageFields⟩ :: [] := by
      rw [unreadableFirst_eq]
      rfl
    rw [stream] at entries
    refine ((kept'.allReturned_iff quiet').1 all).2 ⟨2, pageFields⟩ ?_ (by rw [readable, resultOf_page]; rfl)
    rw [entries]
    exact iterate_rest_of_blocked (by simp [readable, resultOf_empty]) _

end Results

end TORdex.Cluster
