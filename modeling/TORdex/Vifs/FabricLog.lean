import TORdex.Fabric.Crawler
import TORdex.Fabric.Log
import TORdex.Vifs.Replay

/-!
# Replaying the log of a fabric

The fabric writes only service events of its tasks, and these project as long as the task ids are
ULIDs.  The crawler makes ids `crawl_<ulid>`: the first link it submits puts an event into the log
that no replay gets past.
-/

namespace TORdex

open KeyedStore InMemoryEventStore CollectionFabric

/-! ## Runs of a fabric and its crawler -/

namespace AdaptiveCrawler

/-- A call on the crawler or its fabric. -/
inductive Operation where
  | submit (task : CollectionTask) (r : Readings)
  | cancel (taskId : String) (r : Readings)
  | processNext (drivers : DriverRegistry) (r : Readings)
  | processResult (taskId targetUrl : String) (depth : ℕ) (result : Json) (rs : ℕ → LinkReadings)

/-- The crawler with its fabric; `poisoned` when a panic has poisoned the lock of the queue. -/
structure World where
  crawler : AdaptiveCrawler
  poisoned : Bool

namespace World

/-- Before the first action. -/
def start (config : CrawlerConfig) : World := ⟨.new (.new .new) config, false⟩

/-- The log of the fabric. -/
def log (w : World) : InMemoryEventStore := w.crawler.fabric.events

/-- The world with another fabric. -/
def withFabric (w : World) (fabric : CollectionFabric) : World :=
  { w with crawler := { w.crawler with fabric } }

/-- The world after a call.  A panic of the queue poisons its lock, and from then on every call panics
at that lock before it reaches the log; a panic of the link extraction leaves all as it was. -/
def step (w : World) (op : Operation) : World :=
  if w.poisoned then w
  else
    match op with
    | .submit task r => w.withFabric (w.crawler.fabric.submit task r).2
    | .cancel taskId r =>
      match w.crawler.fabric.cancel taskId r with
      | none => { w with poisoned := true }
      | some (_, fabric) => w.withFabric fabric
    | .processNext drivers r => w.withFabric (w.crawler.fabric.processNext drivers r).fabric
    | .processResult taskId targetUrl depth result rs =>
      match w.crawler.processResult taskId targetUrl depth result rs with
      | none => w
      | some (_, crawler) => { w with crawler }

/-- The world after a run of calls. -/
def run (w : World) (ops : List Operation) : World := ops.foldl step w

end World

/-- The crawler would submit the link. -/
def wanted (c : AdaptiveCrawler) (link : DiscoveredLink) : Bool :=
  Crawler.shouldCrawl c.config link.url && !(c.seen.lookup link.url).isSome

/-- The call reaches a link that the crawler submits. -/
def Finds (w : World) : Operation → Prop
  | .processResult _ targetUrl depth result _ =>
    w.poisoned = false ∧ depth < w.crawler.config.maxDepth ∧
      0 < w.crawler.config.maxUrlsPerCrawl ∧
      ∃ links, Crawler.extractLinks targetUrl depth result = some links ∧
        ∃ link ∈ links, w.crawler.wanted link
  | _ => False

/-- The id is a ULID string. -/
def IsUlid (id : String) : Prop := (Ulid.fromString id).isSome

/-- The task ids that a client supplies are ULID strings. -/
def Operation.clientUlid : Operation → Prop
  | .submit task _ => IsUlid task.id
  | _ => True

theorem plainId_of_isUlid {id : String} (h : IsUlid id) : PlainId id := by
  rintro taskId rfl
  unfold IsUlid Ulid.fromString at h
  split_ifs at h
  · have prefixed : ("obs_" ++ taskId).toList = 'o' :: 'b' :: 's' :: '_' :: taskId.toList := by
      simp
    have digit : Ulid.decodeDigit 'o' = none := by decide
    rw [prefixed, List.mapM_cons, digit] at h
    cases h
  · cases h

/-- The ids of the crawler are longer than a ULID. -/
theorem not_isUlid_discoverId (u : Ulid) : ¬ IsUlid (discoverId u) := by
  have length : (discoverId u).length = 32 := by
    have six : "crawl_".length = 6 := rfl
    simp [discoverId, Ulid.toString, six]
  have none : Ulid.fromString (discoverId u) = none :=
    Ulid.fromString_of_length_ne (by rw [length]; decide)
  simp [IsUlid, none]

/-! ## The links of a result -/

/-- The crawler after it submitted the task of a link. -/
def submitLink (c : AdaptiveCrawler) (taskId targetUrl : String) (link : DiscoveredLink)
    (r : LinkReadings) : AdaptiveCrawler :=
  { c with
    fabric := (c.fabric.submit (linkTask taskId targetUrl link r) r.submission).2
    seen := c.seen.insert link.url link.depth }

section SubmitLinks

variable {taskId targetUrl : String} {rs : ℕ → LinkReadings} (link : DiscoveredLink)
  (links : List DiscoveredLink) (submitted : ℕ) (c : AdaptiveCrawler)

/-- One link: the limit is reached, the link is passed over, or its task is submitted. -/
theorem submitLinks_cons : ∃ submitted',
    submitLinks taskId targetUrl rs (link :: links) submitted c =
      if c.config.maxUrlsPerCrawl ≤ submitted then (submitted, c)
      else if c.wanted link then
        submitLinks taskId targetUrl rs links submitted'
          (c.submitLink taskId targetUrl link (rs links.length))
      else submitLinks taskId targetUrl rs links submitted c := by
  simp only [submitLinks, wanted, submitLink]
  by_cases hs : Crawler.shouldCrawl c.config link.url = true
  swap
  · exact ⟨0, by simp [hs]⟩
  by_cases hl : (c.seen.lookup link.url).isSome = true
  · exact ⟨0, by simp [hl]⟩
  cases (c.fabric.submit (linkTask taskId targetUrl link (rs links.length))
    (rs links.length).submission).1 with
  | ok _ => exact ⟨submitted + 1, by simp [hs, hl]⟩
  | error _ => exact ⟨submitted, by simp [hs, hl]⟩

/-- Links that are not wanted are passed over. -/
theorem submitLinks_unwanted (h : ∀ link ∈ links, ¬ c.wanted link) :
    submitLinks taskId targetUrl rs links submitted c = (submitted, c) := by
  induction links with
  | nil => rfl
  | cons link links ih =>
    obtain ⟨submitted', first⟩ := submitLinks_cons link links submitted c
    rw [first, if_neg (h link List.mem_cons_self)]
    split_ifs
    · rfl
    · exact ih fun l hl => h l (List.mem_cons_of_mem _ hl)

theorem grows_submitLinks : Grows c.fabric.events
    (submitLinks taskId targetUrl rs links submitted c).2.fabric.events := by
  induction links generalizing submitted c with
  | nil => exact Grows.refl _
  | cons link links ih =>
    obtain ⟨submitted', first⟩ := submitLinks_cons link links submitted c
    rw [first]
    have submitted_grows : Grows c.fabric.events
        (c.submitLink taskId targetUrl link (rs links.length)).fabric.events := grows_submit _ _ _
    split_ifs
    · exact Grows.refl _
    · exact submitted_grows.trans (ih submitted' _)
    · exact ih submitted c

end SubmitLinks

/-- The envelope registers a service under an id that is no ULID. -/
def Unparsable (envelope : EventEnvelope) : Prop :=
  ∃ e version ulid now, envelope = SystemEvent.intoEnvelope e version ulid now ∧
    ServiceEvent (fun id => ¬ IsUlid id) e

/-- A fabric that only knows ULIDs accepts the task of a link and logs it. -/
theorem unparsable_submitLink {c : AdaptiveCrawler} (h : Within IsUlid c.fabric)
    (taskId targetUrl : String) (link : DiscoveredLink) (r : LinkReadings) :
    ∃ envelope ∈ (c.submitLink taskId targetUrl link r).fabric.events.events,
      Unparsable envelope := by
  have fresh : (c.fabric.queue.byId.lookup (linkTask taskId targetUrl link r).id).isSome = false :=
    Bool.eq_false_iff.2 fun known => not_isUlid_discoverId r.ulid (h.named _ known)
  have own : (queuedEvent (linkTask taskId targetUrl link r)).aggregateId =
    (linkTask taskId targetUrl link r).id := rfl
  simp only [submitLink, submit, PriorityQueue.enqueue, fresh, Bool.false_eq_true, if_false]
  rw [emit_own _ _ _ _ own]
  exact ⟨_, List.mem_append_right _ (List.mem_singleton_self _), _, _, _, _, rfl,
    not_isUlid_discoverId r.ulid⟩

/-- So the first wanted link leaves its mark in the log. -/
theorem unparsable_submitLinks {c : AdaptiveCrawler} (h : Within IsUlid c.fabric)
    (limit : 0 < c.config.maxUrlsPerCrawl) (taskId targetUrl : String) (rs : ℕ → LinkReadings)
    {links : List DiscoveredLink} (hw : ∃ link ∈ links, c.wanted link) :
    ∃ envelope ∈ (submitLinks taskId targetUrl rs links 0 c).2.fabric.events.events,
      Unparsable envelope := by
  induction links with
  | nil =>
    obtain ⟨_, hm, -⟩ := hw
    exact absurd hm List.not_mem_nil
  | cons link links ih =>
    obtain ⟨submitted', first⟩ := submitLinks_cons link links 0 c
    rw [first, if_neg (Nat.not_le.2 limit)]
    split_ifs with hl
    · obtain ⟨envelope, hm, bad⟩ := unparsable_submitLink h taskId targetUrl link (rs links.length)
      exact ⟨envelope, (grows_submitLinks links submitted' _).kept envelope hm, bad⟩
    · obtain ⟨wanted, hm, ok⟩ := hw
      rcases List.mem_cons.1 hm with rfl | hm
      · exact absurd ok hl
      · exact ih ⟨wanted, hm, ok⟩

/-! ## One call, and a run of calls -/

namespace World

variable {w : World}

theorem grows_step (w : World) (op : Operation) : Grows w.log (w.step op).log := by
  unfold step
  split_ifs
  · exact Grows.refl _
  cases op with
  | submit task r => exact grows_submit _ _ _
  | processNext drivers r => exact grows_processNext _ _ _
  | cancel taskId r =>
    dsimp only
    split
    · exact Grows.refl _
    · rename_i result fabric hc
      have same : (w.withFabric fabric).log = w.log := events_cancel hc
      rw [same]
      exact Grows.refl _
  | processResult taskId targetUrl depth result rs =>
    dsimp only
    split
    · exact Grows.refl _
    · rename_i submitted crawler hp
      unfold processResult at hp
      split_ifs at hp
      · cases hp
        exact Grows.refl _
      · obtain ⟨links, -, he⟩ := Option.map_eq_some_iff.1 hp
        have after : crawler = (submitLinks taskId targetUrl rs links 0 w.crawler).2 := by rw [he]
        subst after
        exact grows_submitLinks links 0 w.crawler

theorem grows_run (w : World) (ops : List Operation) : Grows w.log (w.run ops).log := by
  induction ops generalizing w with
  | nil => exact Grows.refl _
  | cons op ops ih => exact (grows_step w op).trans (ih (w.step op))

/-- No call of the run finds a link. -/
def NoFinds (w : World) (ops : List Operation) : Prop :=
  ∀ before op after, ops = before ++ op :: after → ¬ Finds (w.run before) op

theorem noFinds_cons {op : Operation} {ops : List Operation} :
    NoFinds w (op :: ops) ↔ ¬ Finds w op ∧ NoFinds (w.step op) ops := by
  constructor
  · intro h
    refine ⟨h [] op ops rfl, fun before op' after hops => ?_⟩
    subst hops
    exact h (op :: before) op' after rfl
  · rintro ⟨first, rest⟩ before op' after hops
    cases before with
    | nil =>
      cases hops
      exact first
    | cons op'' before =>
      cases hops
      exact rest before op' after rfl

/-- A call that finds no link keeps the fabric within the ULIDs. -/
theorem within_step (h : Within IsUlid w.crawler.fabric) {op : Operation} (hc : op.clientUlid)
    (hf : ¬ Finds w op) : Within IsUlid (w.step op).crawler.fabric := by
  unfold step
  split_ifs with poisoned
  · exact h
  cases op with
  | submit task r => exact h.submit hc r
  | processNext drivers r => exact h.processNext (fun _ => plainId_of_isUlid) drivers r
  | cancel taskId r =>
    dsimp only
    split
    · exact h
    · rename_i result fabric hc
      exact h.cancel hc
  | processResult taskId targetUrl depth result rs =>
    dsimp only
    split
    · exact h
    · rename_i submitted crawler hp
      suffices same : crawler = w.crawler by
        rw [same]
        exact h
      unfold processResult at hp
      split_ifs at hp with deep
      · cases hp
        rfl
      · obtain ⟨links, hlinks, he⟩ := Option.map_eq_some_iff.1 hp
        by_cases limit : 0 < w.crawler.config.maxUrlsPerCrawl
        · have unwanted : ∀ link ∈ links, ¬ w.crawler.wanted link := fun link hm hw =>
            hf ⟨by simpa using poisoned, Nat.lt_of_not_le deep, limit, links, hlinks, link, hm, hw⟩
          rw [submitLinks_unwanted links 0 w.crawler unwanted] at he
          cases he
          rfl
        · cases links with
          | nil =>
            cases he
            rfl
          | cons link links =>
            obtain ⟨submitted', first⟩ := submitLinks_cons link links 0 w.crawler
            rw [first, if_pos (Nat.le_of_not_lt limit)] at he
            cases he
            rfl

/-- A call that finds a link leaves an unparsable id in the log. -/
theorem unparsable_step (h : Within IsUlid w.crawler.fabric) {op : Operation} (hf : Finds w op) :
    ∃ envelope ∈ (w.step op).log.events, Unparsable envelope := by
  cases op with
  | processResult taskId targetUrl depth result rs =>
    obtain ⟨poisoned, shallow, limit, links, hlinks, wanted⟩ := hf
    have done : w.crawler.processResult taskId targetUrl depth result rs =
        some (submitLinks taskId targetUrl rs links 0 w.crawler) := by
      unfold processResult
      rw [if_neg (Nat.not_le.2 shallow), hlinks]
      rfl
    simp only [step, poisoned, Bool.false_eq_true, if_false, done]
    exact unparsable_submitLinks h limit taskId targetUrl rs wanted
  | submit _ _ | cancel _ _ | processNext _ _ => exact hf.elim

/-- Either no call of a run finds a link and all ids stay ULIDs, or the log ends up with an id that is
none. -/
theorem run_cases (h : Within IsUlid w.crawler.fabric) {ops : List Operation}
    (hc : ∀ op ∈ ops, op.clientUlid) :
    (NoFinds w ops ∧ Within IsUlid (w.run ops).crawler.fabric) ∨
      (¬ NoFinds w ops ∧ ∃ envelope ∈ (w.run ops).log.events, Unparsable envelope) := by
  induction ops generalizing w with
  | nil => exact .inl ⟨fun before op after hops => absurd hops (by simp), h⟩
  | cons op ops ih =>
    rw [noFinds_cons]
    by_cases hf : Finds w op
    · obtain ⟨envelope, hm, bad⟩ := unparsable_step h hf
      exact .inr ⟨fun none => none.1 hf, envelope,
        (grows_run (w.step op) ops).kept envelope hm, bad⟩
    · have next := within_step h (hc op List.mem_cons_self) hf
      rcases ih next fun o ho => hc o (List.mem_cons_of_mem _ ho) with ⟨none, within⟩ | ⟨some, bad⟩
      · exact .inl ⟨⟨hf, none⟩, within⟩
      · exact .inr ⟨fun none => some none.2, bad⟩

end World

end AdaptiveCrawler

/-! ## Replaying service events -/

namespace Vifs

open AdaptiveCrawler

/-- Envelopes that decode one by one decode. -/
theorem decoded_of_forall {Q : SystemEvent F64 → Prop} {envelopes : List EventEnvelope}
    (h : ∀ envelope ∈ envelopes, ∃ e, SystemEvent.fromValue envelope.data = some e ∧ Q e) :
    ∃ es, decoded envelopes = some es ∧ ∀ e ∈ es, Q e := by
  induction envelopes with
  | nil => exact ⟨[], rfl, fun _ hm => absurd hm List.not_mem_nil⟩
  | cons envelope envelopes ih =>
    obtain ⟨e, he, hq⟩ := h envelope List.mem_cons_self
    obtain ⟨es, hes, hall⟩ := ih fun x hx => h x (List.mem_cons_of_mem _ hx)
    refine ⟨e :: es, decoded_cons_eq_some.2 ⟨e, es, he, hes, rfl⟩, fun x hx => ?_⟩
    rcases List.mem_cons.1 hx with rfl | hx
    · exact hq
    · exact hall x hx

theorem fromValue_service {P : String → Prop} {e : SystemEvent F64} (h : ServiceEvent P e) :
    SystemEvent.fromValue e.toValue = some e := by
  cases e <;> first | rfl | exact h.elim

theorem aggregateType_service {P : String → Prop} {e : SystemEvent F64} (h : ServiceEvent P e) :
    e.aggregateType ∈ aggTypes := by
  cases e <;> first | (dsimp only [SystemEvent.aggregateType]; decide) | exact h.elim

/-- Every file is a service. -/
def OnlyServices (v : Vifs) : Prop := ∀ k x, v.lookup k = some x → x.directory = "services"

variable {rs : ℕ → Readings} {r : Readings} {v : Vifs} {e : SystemEvent F64}

theorem OnlyServices.insert (h : OnlyServices v) (k : String) (s : Service) :
    OnlyServices (v.insert k (.service s)) := by
  intro k' x hx
  by_cases hk : k' = k
  · subst hk
    rw [Finmap.lookup_insert] at hx
    cases hx
    rfl
  · rw [Finmap.lookup_insert_of_ne _ hk] at hx
    exact h k' x hx

theorem write_service (v : Vifs) (u : Ulid) (s : Service) :
    v.write (.service u) (.service s) = .ok (v.insert (VifsPath.service u).toKey (.service s)) := by
  have below : stripTrailing "/services/" = "/" ++ "services" := by rfl
  have hk := VifsPath.toKey_join below u
  rw [String.append_assoc, String.append_assoc] at hk
  exact write_eq hk v (.service s)

/-- The service event of a ULID projects on files of services. -/
theorem projectEvent_service (h : OnlyServices v) (he : ServiceEvent IsUlid e) :
    ∃ v', projectEvent r v e = .ok v' ∧ OnlyServices v' := by
  cases e with
  | serviceRegistered id name kind locator status version =>
    obtain ⟨u, hu⟩ := Option.isSome_iff_exists.1 he
    simp only [projectEvent, parseId, hu, bind, Except.bind, write_service]
    exact ⟨_, rfl, h.insert _ _⟩
  | serviceUpdated id name status version =>
    obtain ⟨u, hu⟩ := Option.isSome_iff_exists.1 he
    rcases Option.eq_none_or_eq_some (v.lookup (VifsPath.service u).toKey) with hv | ⟨x, hv⟩
    · simp only [projectEvent, parseId, hu, bind, Except.bind, modify, existsAt, hv,
        Option.isSome_none, Bool.false_eq_true, if_false]
      exact ⟨v, rfl, h⟩
    · obtain ⟨s, hs⟩ := asService_ok (h _ x hv)
      simp only [projectEvent, parseId, hu, bind, Except.bind, modify, existsAt, read, hv,
        Option.isSome_some, if_true, hs, write_service]
      exact ⟨_, rfl, h.insert _ _⟩
  | _ => exact he.elim

/-- The service event of another id does not project at all. -/
theorem projectEvent_unparsable (he : ServiceEvent (fun id => ¬ IsUlid id) e) (v : Vifs) :
    ∃ err, projectEvent r v e = .error err := by
  cases e with
  | serviceRegistered id _ _ _ _ _ | serviceUpdated id _ _ _ =>
    have none : Ulid.fromString id = none := by simpa [ServiceEvent, IsUlid] using he
    simp only [projectEvent, parseId, none]
    exact ⟨_, rfl⟩
  | _ => exact he.elim

theorem projectFrom_service {es : List (SystemEvent F64)} (hes : ∀ e ∈ es, ServiceEvent IsUlid e)
    (k : ℕ) (h : OnlyServices v) : ∃ v', projectFrom rs k es v = .ok v' := by
  induction es generalizing k v with
  | nil => exact ⟨v, rfl⟩
  | cons e es ih =>
    obtain ⟨v₁, hv₁, only⟩ := projectEvent_service (r := rs k) h (hes e List.mem_cons_self)
    rw [projectFrom, hv₁]
    exact ih (fun x hx => hes x (List.mem_cons_of_mem _ hx)) (k + 1) only

theorem projectFrom_ok_mem {es : List (SystemEvent F64)} {k : ℕ} {v' : Vifs}
    (h : projectFrom rs k es v = .ok v') (he : e ∈ es) :
    ∃ r v₁ v₂, projectEvent r v₁ e = .ok v₂ := by
  induction es generalizing k v with
  | nil => exact absurd he List.not_mem_nil
  | cons first es ih =>
    obtain ⟨v₁, hv₁, rest⟩ := bind_eq_ok.1 h
    rcases List.mem_cons.1 he with rfl | he
    · exact ⟨_, _, _, hv₁⟩
    · exact ih rest he

/-- A log of service events of ULIDs replays. -/
theorem replay_within {f : CollectionFabric} (h : Within IsUlid f) :
    ∃ n v', replayFromEventStore rs ∅ f.events = some (.ok n, v') := by
  have each : ∀ envelope ∈ readBack f.events aggTypes, ∃ e,
      SystemEvent.fromValue envelope.data = some e ∧ ServiceEvent IsUlid e := by
    intro envelope hm
    obtain ⟨e, version, ulid, now, rfl, he⟩ := h.logged envelope (mem_readBack.1 hm).1
    exact ⟨e, fromValue_service he, he⟩
  obtain ⟨es, hes, services⟩ := decoded_of_forall each
  have nothing : OnlyServices ∅ := fun k x hx => by simp at hx
  obtain ⟨v', hv'⟩ : ∃ v', projectFrom rs 0 es ∅ = .ok v' := projectFrom_service services 0 nothing
  exact ⟨es.length, v', (replayFromEventStore_eq_ok h.indexed).2 ⟨es, hes, hv', rfl⟩⟩

/-- A log with an unparsable id does not replay. -/
theorem not_replay_unparsable {store : InMemoryEventStore} (hi : store.Indexed)
    (h : ∃ envelope ∈ store.events, Unparsable envelope) (n : ℕ) (v v' : Vifs) :
    replayFromEventStore rs v store ≠ some (.ok n, v') := by
  rintro hr
  obtain ⟨es, hes, hv', -⟩ := (replayFromEventStore_eq_ok hi).1 hr
  obtain ⟨_, hm, e, version, ulid, now, rfl, he⟩ := h
  have read := mem_readBack.2 ⟨hm, aggregateType_service he⟩
  obtain ⟨r, v₁, v₂, ok⟩ := projectFrom_ok_mem hv'
    ((mem_decoded hes).2 ⟨_, read, fromValue_service he⟩)
  obtain ⟨err, bad⟩ := projectEvent_unparsable (r := r) he v₁
  rw [bad] at ok
  cases ok

/-- The log of a run of client calls with ULIDs replays exactly when the crawler never finds a
link. -/
theorem run_replays_iff (config : CrawlerConfig) {ops : List Operation}
    (hc : ∀ op ∈ ops, op.clientUlid) (rs : ℕ → Readings) :
    (∃ n v', replayFromEventStore rs ∅ ((World.start config).run ops).log = some (.ok n, v')) ↔
      ∀ before op after, ops = before ++ op :: after →
        ¬ Finds ((World.start config).run before) op := by
  have new : Within IsUlid (World.start config).crawler.fabric := within_new IsUlid
  rcases World.run_cases new hc with ⟨none, within⟩ | ⟨some, bad⟩
  · exact iff_of_true (replay_within within) none
  · have indexed := (World.grows_run (World.start config) ops).indexed new.indexed
    exact iff_of_false (fun ⟨n, v', hr⟩ => not_replay_unparsable indexed bad n ∅ v' hr) some

/-- A client submits and processes one task. -/
theorem run_replays_sample :
    (∃ n v', replayFromEventStore (fun _ => frozen) ∅ ((World.start .default).run
        [.submit (sampleTask "01ARZ3NDEKTSV4RRFFQ69G5FAV" 3) sampleReadings]).log =
      some (.ok n, v')) ↔
    ∀ before op after,
      [.submit (sampleTask "01ARZ3NDEKTSV4RRFFQ69G5FAV" 3) sampleReadings] =
        before ++ op :: after → ¬ Finds ((World.start .default).run before) op :=
  run_replays_iff .default (fun op hm => by
    rw [List.mem_singleton.1 hm]
    exact (by decide : (Ulid.fromString "01ARZ3NDEKTSV4RRFFQ69G5FAV").isSome)) fun _ => frozen

/-- A page with a link, as the first result that a crawler sees. -/
def linkedPage : Operation :=
  .processResult "01ARZ3NDEKTSV4RRFFQ69G5FAV" "https://example.com" 0
    (.obj [("body", .str "<a href=\"/x\">")]) fun _ => ⟨Ulid.ofNat 0, 0, sampleReadings⟩

/-- The page puts an id into the log at which the replay stops. -/
theorem run_not_replays :
    ¬ ∃ n v', replayFromEventStore (fun _ => frozen) ∅
      ((World.start .default).run [linkedPage]).log = some (.ok n, v') := by
  have new : Within IsUlid (World.start .default).crawler.fabric := within_new IsUlid
  have found : Finds (World.start .default) linkedPage :=
    ⟨rfl, by decide, by decide, _, rfl, _, List.mem_singleton_self _, by rfl⟩
  rintro ⟨n, v', hr⟩
  exact not_replay_unparsable ((World.grows_step _ linkedPage).indexed new.indexed)
    (World.unparsable_step new found) n ∅ v' hr

end Vifs

end TORdex
