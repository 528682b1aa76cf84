import TORdex.Cluster.Collection
import TORdex.Cluster.TaskQueue

/-!
# No task is lost

Between the acknowledgement of a task and the publication of its result only the worker knows of it.  If no
worker crashes or fails to publish there, then every enqueued task is undelivered, pending, published or in a
running worker.
-/

namespace TORdex.Cluster.Tasks

open LogStream

variable {Payload : Type} (serde : Serde Payload)

/-- What a worker has read belongs to the stream, and its task to the entry. -/
def Sound (s : Tasks Payload) (role : NodeRole) : Working Payload → Prop
  | .idle | .listening => True
  | .received e => e ∈ (s.streams role).stream.entries
  | .processing e task => e ∈ (s.streams role).stream.entries ∧
      ∀ t ∈ s.enqueued, t.2.targetRole = role → t.1 = e → task.id = t.2.id
  | .publishing e result => e ∈ (s.streams role).stream.entries ∧
      ∀ t ∈ s.enqueued, t.2.targetRole = role → t.1 = e → result.taskId = t.2.id

/-- What every action keeps. -/
structure Kept (s : Tasks Payload) : Prop where
  written : ∀ t ∈ s.enqueued, t.1 ∈ (s.streams t.2.targetRole).stream.entries ∧
    ∃ bytes, serde.taskToString t.2 = .ok bytes ∧ bulkField "task" t.1.fields = some bytes
  bounded : ∀ role group, (s.streams role).group = some group →
    group.lastDelivered ≤ (s.streams role).stream.lastId
  sound : ∀ w role phase, s.workers w = some (role, phase) → s.Sound role phase
  noTaskLost : s.NoTaskLost

variable {serde} {s : Tasks Payload}

/-- What was read stays sound when entries are added with tasks of their own. -/
theorem Sound.mono {s' : Tasks Payload} {role : NodeRole} {phase : Working Payload}
    (sound : s.Sound role phase)
    (entries : ∀ e ∈ (s.streams role).stream.entries, e ∈ (s'.streams role).stream.entries)
    (enqueued : ∀ t ∈ s'.enqueued, t.2.targetRole = role → t.1 ∈ (s.streams role).stream.entries →
      t ∈ s.enqueued) : s'.Sound role phase := by
  cases phase with
  | idle => trivial
  | listening => trivial
  | received e => exact entries e sound
  | processing e task =>
    exact ⟨entries e sound.1, fun t mem same eq => sound.2 t (enqueued t mem same (eq ▸ sound.1)) same eq⟩
  | publishing e result =>
    exact ⟨entries e sound.1, fun t mem same eq => sound.2 t (enqueued t mem same (eq ▸ sound.1)) same eq⟩

theorem not_heldBy {w : ℕ} {role : NodeRole} {phase : Working Payload}
    (at_w : s.workers w = some (role, phase))
    (free : phase.held = none) (other : NodeRole) (e : StreamEntry Fields) : ¬s.HeldBy other e w := by
  rintro ⟨_, eq, held⟩
  rw [at_w] at eq
  cases eq
  rw [free] at held
  cases held

theorem kept_start : Kept serde (start : Tasks Payload) where
  written _ h := by simp [start] at h
  bounded _ _ h := by simp [start] at h
  sound _ _ _ h := by simp [start] at h
  noTaskLost _ h := by simp [start] at h

/-- A worker goes on, starts or ends.  If it held a task and does not hold it any more, the task is
settled. -/
theorem Kept.moveWorker (kept : Kept serde s) (w : ℕ) (next : Option (NodeRole × Working Payload))
    (sound : ∀ role phase, next = some (role, phase) → s.Sound role phase)
    (settled : ∀ role e, s.HeldBy role e w →
      (∃ phase, next = some (role, phase) ∧ phase.held = some e) ∨ s.Settled role e) :
    Kept serde { s with workers := Function.update s.workers w next } := by
  have there {other : ℕ} (ne : other ≠ w) :
      { s with workers := Function.update s.workers w next }.workers other = s.workers other :=
    Function.update_of_ne ne _ _
  have here : { s with workers := Function.update s.workers w next }.workers w = next :=
    Function.update_self ..
  refine ⟨kept.written, kept.bounded, fun other role phase h => ?_, fun t mem => ?_⟩
  · by_cases same : other = w
    · rw [same, here] at h
      exact sound role phase h
    · rw [there same] at h
      exact kept.sound other role phase h
  · rcases kept.noTaskLost t mem with place | place | place | ⟨other, phase, at_other, held⟩
    · exact .inl place
    · exact .inr (.inl place)
    · exact .inr (.inr (.inl place))
    · by_cases same : other = w
      · rcases settled _ _ ⟨phase, same ▸ at_other, held⟩ with ⟨phase, eq, held⟩ | place | place
        · exact .inr (.inr (.inr ⟨w, phase, here.trans eq, held⟩))
        · exact .inr (.inl place)
        · exact .inr (.inr (.inl (place t mem rfl rfl)))
      · exact .inr (.inr (.inr ⟨other, phase, (there same).trans at_other, held⟩))

/-- A worker goes on that holds no task. -/
theorem Kept.setWorker (kept : Kept serde s) {w : ℕ} {role : NodeRole} {phase : Working Payload}
    (sound : s.Sound role phase) (free : ∀ role e, ¬s.HeldBy role e w) :
    Kept serde (s.setWorker w role phase) :=
  kept.moveWorker w _ (fun _ _ eq => by cases eq; exact sound) fun role e held => absurd held (free role e)

theorem Kept.setIdle (kept : Kept serde s) {w : ℕ} {role : NodeRole} (free : ∀ role e, ¬s.HeldBy role e w) :
    Kept serde (s.setWorker w role .idle) := kept.setWorker trivial free

/-- The group of a role changes. -/
theorem Kept.setGroup (kept : Kept serde s) {role : NodeRole} {group : ConsumerGroup ℕ}
    (bounded : group.lastDelivered ≤ (s.streams role).stream.lastId)
    (places : ∀ t ∈ s.enqueued, t.2.targetRole = role → s.Undelivered role t.1 ∨ s.Pending role t.1 →
      group.lastDelivered < t.1.id ∨ group.Pending t.1.id ∨ ∃ w, s.HeldBy role t.1 w) :
    Kept serde (s.setGroup role group) := by
  have stream (other : NodeRole) :
      ((s.setGroup role group).streams other).stream = (s.streams other).stream := by
    by_cases same : other = role
    · simp [Tasks.setGroup, same]
    · simp [Tasks.setGroup, same]
  have here : ((s.setGroup role group).streams role).group = some group := by simp [Tasks.setGroup]
  have there {other : NodeRole} (ne : other ≠ role) :
      (s.setGroup role group).streams other = s.streams other := Function.update_of_ne ne _ _
  constructor
  · intro t mem
    rw [stream]
    exact kept.written t mem
  · intro other g eq
    rw [stream]
    by_cases same : other = role
    · rw [same, here, Option.some.injEq] at eq
      rw [same, ← eq]
      exact bounded
    · rw [there same] at eq
      exact kept.bounded other g eq
  · intro w other phase at_w
    exact (kept.sound w other phase at_w).mono (fun e mem => by rwa [stream]) fun t mem _ _ => mem
  · intro t mem
    by_cases same : t.2.targetRole = role
    · have moved (place : s.Undelivered role t.1 ∨ s.Pending role t.1) :
          (s.setGroup role group).Undelivered role t.1 ∨ (s.setGroup role group).Pending role t.1 ∨
            ∃ w, (s.setGroup role group).HeldBy role t.1 w := by
        have place := places t mem same place
        refine place.imp (fun lt g eq => ?_) (Or.imp_left fun pending => ⟨group, here, pending⟩)
        rw [here, Option.some.injEq] at eq
        exact eq ▸ lt
      rcases kept.noTaskLost t mem with place | place | place | place
      · rw [same] at place ⊢
        exact (moved (.inl place)).imp_right (Or.imp_right .inr)
      · rw [same] at place ⊢
        exact (moved (.inr place)).imp_right (Or.imp_right .inr)
      · exact .inr (.inr (.inl place))
      · exact .inr (.inr (.inr place))
    · rcases kept.noTaskLost t mem with place | place | place | place
      · exact .inl fun g eq => place g (there same ▸ eq)
      · obtain ⟨g, eq, pending⟩ := place
        exact .inr (.inl ⟨g, (there same).symm ▸ eq, pending⟩)
      · exact .inr (.inr (.inl place))
      · exact .inr (.inr (.inr place))

/-- Other results may be published. -/
theorem Kept.setResults (kept : Kept serde s) {results : Results}
    (old : ∀ t ∈ s.results.published, t ∈ results.published) : Kept serde { s with results } where
  written := kept.written
  bounded := kept.bounded
  sound := kept.sound
  noTaskLost t mem := by
    rcases kept.noTaskLost t mem with place | place | ⟨u, published, same⟩ | place
    · exact .inl place
    · exact .inr (.inl place)
    · exact .inr (.inr (.inl ⟨u, old u published, same⟩))
    · exact .inr (.inr (.inr place))

/-! ## Every step -/

/-- An entry goes to the stream of a role: groups stay, entries stay, and last ids do not fall. -/
theorem update_add (streams : NodeRole → TaskStream) (role : NodeRole) (gap : ℕ) (fields : Fields)
    (other : NodeRole) :
    (Function.update streams role ⟨(streams role).stream.add gap fields, (streams role).group⟩ other).group =
      (streams other).group ∧
    (∀ e ∈ (streams other).stream.entries,
      e ∈ (Function.update streams role
        ⟨(streams role).stream.add gap fields, (streams role).group⟩ other).stream.entries) ∧
    (streams other).stream.lastId ≤ (Function.update streams role
      ⟨(streams role).stream.add gap fields, (streams role).group⟩ other).stream.lastId := by
  by_cases same : other = role
  · subst same
    rw [Function.update_self]
    refine ⟨rfl, fun e mem => List.mem_append_left _ mem, ?_⟩
    show (streams other).stream.lastId ≤ (streams other).stream.lastId + 1 + gap
    omega
  · rw [Function.update_of_ne same]
    exact ⟨rfl, fun e mem => mem, le_rfl⟩

theorem Kept.enqueue (kept : Kept serde s) (task : ClusterTask Payload) (gap : ℕ) :
    Kept serde (s.enqueue serde task gap) := by
  unfold Tasks.enqueue
  split
  · exact kept
  · next bytes written =>
    dsimp only
    set fields : Fields := Finmap.singleton "task" (.bulkString bytes) with hfields
    set stream := (s.streams task.targetRole).stream with hstream
    set e : StreamEntry Fields := ⟨stream.lastId + 1 + gap, fields⟩ with he
    set s' : Tasks Payload := { s with
      streams := Function.update s.streams task.targetRole
        ⟨stream.add gap fields, (s.streams task.targetRole).group⟩
      enqueued := s.enqueued ++ [(e, task)] } with hs'
    have here : s'.streams task.targetRole = ⟨stream.add gap fields, (s.streams task.targetRole).group⟩ :=
      Function.update_self ..
    have grown := update_add s.streams task.targetRole gap fields
    have group (role : NodeRole) : (s'.streams role).group = (s.streams role).group := (grown role).1
    have entries (role : NodeRole) :
        ∀ d ∈ (s.streams role).stream.entries, d ∈ (s'.streams role).stream.entries := (grown role).2.1
    constructor
    · intro t mem
      rcases List.mem_append.1 mem with mem | mem
      · exact (kept.written t mem).imp_left (entries _ t.1)
      · rw [List.mem_singleton] at mem
        subst mem
        refine ⟨?_, bytes, written, bulkField_singleton _ _⟩
        rw [here]
        exact List.mem_append_right _ (List.mem_singleton_self _)
    · intro role g eq
      rw [group] at eq
      exact (kept.bounded role g eq).trans (grown role).2.2
    · intro w role phase at_w
      refine (kept.sound w role phase at_w).mono (entries role) fun t mem same old => ?_
      rcases List.mem_append.1 mem with mem | mem
      · exact mem
      · rw [List.mem_singleton] at mem
        subst mem
        have := (s.streams role).stream.bounded _ old
        rw [← same] at this
        exact absurd this (by show ¬stream.lastId + 1 + gap ≤ stream.lastId; omega)
    · intro t mem
      rcases List.mem_append.1 mem with mem | mem
      · rcases kept.noTaskLost t mem with place | ⟨g, eq, pending⟩ | place | place
        · exact .inl fun g eq => place g (group _ ▸ eq)
        · exact .inr (.inl ⟨g, (group _).trans eq, pending⟩)
        · exact .inr (.inr (.inl place))
        · exact .inr (.inr (.inr place))
      · rw [List.mem_singleton] at mem
        subst mem
        refine .inl fun g eq => ?_
        rw [group] at eq
        have old : g.lastDelivered ≤ stream.lastId := kept.bounded _ g eq
        show g.lastDelivered < stream.lastId + 1 + gap
        omega

theorem Kept.createGroup (kept : Kept serde s) (w : ℕ) (success : Bool) :
    Kept serde (s.createGroup w success) := by
  unfold Tasks.createGroup
  split
  · next role at_w =>
    have free := not_heldBy at_w rfl
    split
    · next none =>
      have moved : Kept serde (s.setWorker w role .listening) := kept.setWorker trivial free
      split_ifs
      · refine moved.setGroup (Nat.zero_le _) fun t mem same place => ?_
        exact .inl ((s.streams role).stream.positive t.1 (same ▸ (kept.written t mem).1))
      · exact moved
    · exact kept.setWorker trivial free
  · exact kept

theorem Kept.readGroup (kept : Kept serde s) (w : ℕ) (executed replied : Bool) :
    Kept serde (s.readGroup w executed replied) := by
  unfold Tasks.readGroup
  split
  · next role at_w =>
    have free := not_heldBy at_w rfl
    split
    · exact kept.setWorker trivial free
    · next group e found =>
      obtain ⟨g, hasGroup, found⟩ := Option.bind_eq_some_iff.1 found
      obtain ⟨e', next, eq⟩ := Option.map_eq_some_iff.1 found
      cases eq
      obtain ⟨mem_e, -⟩ := ConsumerGroup.mem_of_next next
      cases executed with
      | false => exact kept.setIdle free
      | true =>
        have moved : Kept serde (s.setWorker w role (if replied then .received e else .idle)) := by
          refine kept.setWorker ?_ free
          cases replied with
          | true => exact mem_e
          | false => trivial
        refine moved.setGroup ((s.streams role).stream.bounded e mem_e) fun t mem same place => ?_
        have written := same ▸ (kept.written t mem).1
        rw [ConsumerGroup.pending_deliver]
        rcases place with new | ⟨g', eq, pending⟩
        · have new : group.lastDelivered < t.1.id := new group hasGroup
          rcases lt_trichotomy t.1.id e.id with lt | eq | gt
          · have old := ConsumerGroup.delivered_of_lt_next next written lt
            exact absurd new old.not_gt
          · exact .inr (.inl (.inr eq))
          · exact .inl gt
        · have eq : (s.streams role).group = some g' := eq
          rw [hasGroup] at eq
          cases eq
          exact .inr (.inl (.inl pending))
  · exact kept

theorem Kept.acknowledge (kept : Kept serde s) (keeps : serde.KeepsTaskId) (w : ℕ) (success : Bool) :
    Kept serde (s.acknowledge serde w success) := by
  unfold Tasks.acknowledge
  split
  · next role e at_w =>
    have free := not_heldBy at_w rfl
    have mem_e : e ∈ (s.streams role).stream.entries := kept.sound w role _ at_w
    split
    · exact kept.setIdle free
    · next bytes field =>
      split
      · exact kept.setIdle free
      · next task read =>
        have sound : s.Sound role (.processing e task) := by
          refine ⟨mem_e, fun t mem same eq => ?_⟩
          obtain ⟨written, toString, here⟩ := (kept.written t mem).2
          rw [eq, field, Option.some.injEq] at here
          exact keeps t.2 bytes task (here ▸ toString) read
        have moved : Kept serde (s.setWorker w role (.processing e task)) := kept.setWorker sound free
        split
        · next group hasGroup =>
          cases success with
          | false => exact moved
          | true =>
            have bounded : (group.acknowledge e.id).lastDelivered ≤ (s.streams role).stream.lastId :=
              kept.bounded role group hasGroup
            refine moved.setGroup bounded fun t mem same place => ?_
            rw [ConsumerGroup.pending_acknowledge]
            rcases place with new | ⟨g, eq, pending⟩
            · exact .inl (new group hasGroup)
            · have eq : (s.streams role).group = some g := eq
              rw [hasGroup] at eq
              cases eq
              by_cases acknowledged : t.1.id = e.id
              · have written := same ▸ (kept.written t mem).1
                have eq : t.1 = e := (s.streams role).stream.eq_of_id written mem_e acknowledged
                exact .inr (.inr ⟨w, _, Function.update_self .., congrArg some eq.symm⟩)
              · exact .inr (.inl ⟨pending, acknowledged⟩)
        · exact moved
  · exact kept

theorem Kept.process (kept : Kept serde s) (work : ClusterTask Payload → Except String Json × String) (w : ℕ)
    (now : OffsetDateTime) : Kept serde (s.step serde work (.process w now)) := by
  rw [step]
  split
  · next role e task at_w =>
    obtain ⟨mem_e, sound⟩ := kept.sound w role _ at_w
    refine kept.moveWorker w _ (fun _ _ eq => ?_) fun other d held => .inl ?_
    · cases eq
      exact ⟨mem_e, fun t mem same eq => (process_taskId work task now).trans (sound t mem same eq)⟩
    · obtain ⟨phase, eq, held⟩ := held
      rw [at_w] at eq
      cases eq
      exact ⟨_, rfl, held⟩
  · exact kept

theorem published_publish (results : Results) (result : TaskResult) (gap : ℕ) :
    ∀ t ∈ results.published, t ∈ (results.publish serde result gap).published := by
  unfold Results.publish
  split
  · exact fun t mem => mem
  · exact fun t mem => List.mem_append_left _ mem

theorem exists_published (results : Results) {result : TaskResult} (gap : ℕ)
    (written : (serde.resultToString result).isOk) :
    ∃ t ∈ (results.publish serde result gap).published, t.2 = result := by
  unfold Results.publish
  split
  · next failed =>
    rw [failed] at written
    cases written
  · exact ⟨_, List.mem_append_right _ (List.mem_singleton_self _), rfl⟩

theorem Kept.publish (kept : Kept serde s) (w : ℕ) (success : Bool) (gap : ℕ)
    (careful : Careful serde s (.publish w success gap)) : Kept serde (s.publish serde w success gap) := by
  unfold Tasks.publish
  split
  · next role e result at_w =>
    obtain ⟨-, sound⟩ := kept.sound w role _ at_w
    have old : ∀ t ∈ s.results.published,
        t ∈ (if success then s.results.publish serde result gap else s.results).published := by
      intro t mem
      split_ifs
      · exact published_publish s.results result gap t mem
      · exact mem
    refine (kept.setResults old).moveWorker w _ (fun _ _ eq => by cases eq; trivial)
      fun other d held => .inr ?_
    obtain ⟨phase, eq, held⟩ := held
    have eq : s.workers w = some (other, phase) := eq
    rw [at_w] at eq
    cases eq
    cases held
    rcases careful role e result at_w with ⟨success, ok⟩ | pending | published
    · refine .inr fun t mem same eq => ?_
      obtain ⟨u, new, is⟩ := exists_published s.results gap ok
      refine ⟨u, ?_, is ▸ sound t mem same eq⟩
      rw [if_pos success]
      exact new
    · exact .inl pending
    · refine .inr fun t mem same eq => ?_
      obtain ⟨u, mem, task⟩ := published t mem same eq
      exact ⟨u, old u mem, task⟩
  · exact kept

theorem published_step (results : Results) (action : ResultAction) :
    ∀ t ∈ results.published, t ∈ (results.step serde action).published := by
  intro t mem
  cases action with
  | publish result gap => exact published_publish results result gap t mem
  | write fields gap =>
    rw [Results.step, Results.write]
    split_ifs <;> exact mem
  | collect call count =>
    rw [Results.step]
    split_ifs <;> exact mem
  | read call =>
    rw [Results.step]
    split <;> exact mem
  | handle call =>
    rw [Results.step, Results.handle]
    split
    · split <;> exact mem
    · exact mem
    · exact mem

variable {work : ClusterTask Payload → Except String Json × String}

theorem Kept.next (kept : Kept serde s) (keeps : serde.KeepsTaskId) {a : ClusterAction Payload}
    (careful : Careful serde s a) : Kept serde (s.step serde work a) := by
  cases a with
  | enqueue task gap => exact kept.enqueue task gap
  | results action => exact kept.setResults (published_step s.results action)
  | start w role =>
    rw [step]
    split_ifs with ended
    · refine kept.setIdle ?_
      rintro _ _ ⟨_, eq, -⟩
      rw [eq] at ended
      cases ended
    · exact kept
  | createGroup w success => exact kept.createGroup w success
  | readGroup w executed replied => exact kept.readGroup w executed replied
  | acknowledge w success => exact kept.acknowledge keeps w success
  | process w now => exact kept.process work w now
  | publish w success gap => exact kept.publish w success gap careful
  | crash w =>
    exact kept.moveWorker w none (fun _ _ eq => by cases eq) fun role e held => .inr (careful role e held)

/-- When no worker crashes and no publication fails while only the worker has the task, every enqueued task is
undelivered, pending, published or in a running worker. -/
theorem no_task_lost (keeps : serde.KeepsTaskId) (run : Reached (step serde work) (Careful serde) start s) :
    s.NoTaskLost :=
  (run.invariant kept_start fun _ _ kept careful => kept.next keeps careful).noTaskLost

/-! ## One task -/

/-- A task for a collector. -/
def crawlTask : ClusterTask String := .new (.ofNat 0) 0 .collector "https://example.com"

/-- The text of the task. -/
def crawlJson : List UInt8 :=
  ("\x7b\x22id\x22:\x2200000000000000000000000000\x22,\x22target_role\x22:\x22Collector\x22," ++
    "\x22payload\x22:\x7b\x22type\x22:\x22Collect\x22,\x22url\x22:\x22https://example.com\x22,\x22depth\x22:0," ++
    "\x22collect_images\x22:false,\x22collect_links\x22:false\x7d,\x22status\x22:\x22Queued\x22," ++
    "\x22result\x22:null,\x22worker_id\x22:null,\x22created_at\x22:[1970,1,0,0,0,0,0,0,0]," ++
    "\x22completed_at\x22:null,\x22max_retries\x22:3,\x22retry_count\x22:0\x7d").toUTF8.toList

/-- `serde_json` on one task and its result.  A payload is the URL to collect. -/
def crawlSerde : Serde String where
  taskToString task := if task.id = crawlTask.id then .ok crawlJson else .error ""
  taskFromStr bytes := if bytes = crawlJson then .ok crawlTask else .error ""
  resultToString := Results.pageSerde.resultToString
  resultFromStr := Results.pageSerde.resultFromStr

theorem crawlSerde_keepsTaskId : crawlSerde.KeepsTaskId := by
  intro task bytes task' written read
  simp only [crawlSerde] at written read
  split_ifs at written read with same
  cases read
  exact same.symm

/-- What a collector makes of it. -/
def crawlWork (_ : ClusterTask String) : Except String Json × String := (.ok (.str "page"), "collector")

/-- The entry of the task in its stream. -/
def crawlEntry : StreamEntry Fields := ⟨1, Finmap.singleton "task" (.bulkString crawlJson)⟩

/-- The stream of the task. -/
def crawlStream : Stream Fields := Stream.empty.add 0 crawlEntry.fields

/-- A worker takes the task and acknowledges it. -/
def crawl : List (ClusterAction String) :=
  [.enqueue crawlTask 0, .start 0 .collector, .createGroup 0 true, .readGroup 0 true true,
    .acknowledge 0 true]

/-- A worker is at the task. -/
def crawling : Tasks String where
  streams := Function.update (fun _ => ⟨.empty, none⟩) .collector ⟨crawlStream, some ⟨crawlEntry.id, []⟩⟩
  results := .start
  workers := Function.update (fun _ => none) 0 (some (.collector, .processing crawlEntry crawlTask))
  enqueued := [(crawlEntry, crawlTask)]

/-- For every `serde` that writes and reads the task so: that keeps its evaluation out of the proof. -/
theorem foldl_crawl_of {serde : Serde String} (written : serde.taskToString crawlTask = .ok crawlJson)
    (read : serde.taskFromStr crawlJson = .ok crawlTask) :
    crawl.foldl (step serde crawlWork) start = crawling := by
  have field : bulkField "task" crawlEntry.fields = some crawlJson := bulkField_singleton _ _
  have first : start.enqueue serde crawlTask 0 = { (start : Tasks String) with
      streams := Function.update (fun _ => ⟨.empty, none⟩) .collector ⟨crawlStream, none⟩
      enqueued := [(crawlEntry, crawlTask)] } := by
    rw [Tasks.enqueue, written]
    rfl
  have next : (⟨0, []⟩ : ConsumerGroup ℕ).next crawlStream = some crawlEntry := rfl
  rw [crawl, List.foldl_cons, step, first]
  simp [crawling, step, Tasks.createGroup, Tasks.readGroup, Tasks.acknowledge, Tasks.setWorker,
    Tasks.setGroup, start, read, next, field, ConsumerGroup.deliver, ConsumerGroup.acknowledge]

theorem foldl_crawl : crawl.foldl (step crawlSerde crawlWork) start = crawling :=
  foldl_crawl_of (by simp [crawlSerde]) (by simp [crawlSerde])

/-- A worker that publishes and then crashes. -/
theorem no_task_lost_crawl : ([ClusterAction.process 0 0, .publish 0 true 0, .crash 0].foldl
    (step crawlSerde crawlWork) (crawl.foldl (step crawlSerde crawlWork) start)).NoTaskLost := by
  have begun : Reached (step crawlSerde crawlWork) (Careful crawlSerde) start crawling := by
    rw [← foldl_crawl]
    have along : Along (step crawlSerde crawlWork) (Careful crawlSerde) start crawl :=
      ⟨trivial, trivial, trivial, trivial, trivial, trivial⟩
    exact along.reached
  rw [foldl_crawl]
  refine @no_task_lost _ _ _ crawlWork crawlSerde_keepsTaskId ?_
  refine ((begun.next (a := .process 0 0) trivial).next (a := .publish 0 true 0) ?_).next (a := .crash 0) ?_
  · intro role e result at_w
    have is : Results.pageResult = result := by
      simp only [step, crawling, Tasks.setWorker, Function.update_self, Option.some.injEq, Prod.mk.injEq,
        Working.publishing.injEq] at at_w
      exact at_w.2.2
    have written : crawlSerde.resultToString result = .ok Results.pageJson := is ▸ Results.resultToString_page
    exact .inl ⟨rfl, by rw [written]; rfl⟩
  · intro role e held
    refine absurd held (@not_heldBy _ _ _ .collector .idle ?_ rfl role e)
    simp [step, crawling, Tasks.setWorker, Tasks.publish]

theorem lost {s : Tasks String} (streams : s.streams = crawling.streams)
    (enqueued : s.enqueued = crawling.enqueued) (results : s.results.published = [])
    (free : ∀ w role phase, s.workers w = some (role, phase) → phase.held = none) : ¬s.NoTaskLost := by
  intro kept
  rcases kept (crawlEntry, crawlTask) (by simp [enqueued, crawling]) with
    new | ⟨g, eq, pending⟩ | ⟨t, mem, -⟩ | ⟨w, phase, at_w, held⟩
  · have group : (s.streams crawlTask.targetRole).group = some ⟨crawlEntry.id, []⟩ := by rw [streams]; rfl
    exact lt_irrefl _ (new _ group)
  · have group : (s.streams crawlTask.targetRole).group = some ⟨crawlEntry.id, []⟩ := by rw [streams]; rfl
    rw [group] at eq
    cases eq
    cases pending
  · rw [results] at mem
    cases mem
  · rw [free w _ phase at_w] at held
    cases held

/-- A crash after the acknowledgement loses the task, and so does a publication that fails. -/
theorem not_no_task_lost : crawlSerde.KeepsTaskId ∧
    ¬([ClusterAction.crash 0].foldl (step crawlSerde crawlWork)
      (crawl.foldl (step crawlSerde crawlWork) start)).NoTaskLost ∧
    ¬([ClusterAction.process 0 0, .publish 0 false 0].foldl (step crawlSerde crawlWork)
      (crawl.foldl (step crawlSerde crawlWork) start)).NoTaskLost := by
  rw [foldl_crawl]
  refine ⟨crawlSerde_keepsTaskId, lost rfl rfl rfl fun w role phase at_w => ?_, ?_⟩
  · simp [step, crawling] at at_w
  · have ends : [ClusterAction.process 0 0, .publish 0 false 0].foldl (step crawlSerde crawlWork) crawling =
        crawling.setWorker 0 .collector .idle := by
      simp [step, crawling, Tasks.publish, Tasks.setWorker]
    rw [ends]
    refine lost rfl rfl rfl fun w role phase at_w => ?_
    simp only [Tasks.setWorker, crawling, Function.update_idem, Function.update_apply] at at_w
    split_ifs at at_w
    cases at_w
    rfl

end TORdex.Cluster.Tasks
