import TORdex.Fabric.Crawler
import TORdex.Lib.Runs

/-!
# Calls of the crawler that run at one time

The seen URLs and the parts of the fabric have a lock each, and a call of `process_result` takes one after the
other: between two of its sections the sections of other calls run.  Other users of the fabric leave it as they
like.
-/

namespace TORdex

open Crawler

/-- What a call of `process_result` keeps while it runs: its arguments, the links it has not looked at, and the
number of tasks it has submitted. -/
structure CrawlCall where
  taskId : String
  targetUrl : String
  links : List DiscoveredLink
  submitted : ℕ

/-- What a call does next. -/
inductive CrawlStage where
  /-- Look at the next link, and mark its URL as seen. -/
  | choosing
  /-- Create the session of the task. -/
  | creating (task : CollectionTask)
  | enqueuing (task : CollectionTask)
  /-- Read the latest version of the task's events. -/
  | versioning (task : CollectionTask)
  | appending (task : CollectionTask) (version : ℕ)

/-- How far a call is. -/
inductive CallState where
  | waiting
  | running (call : CrawlCall) (stage : CrawlStage)
  | returned (submitted : ℕ)
  | panicked

/-- A task that a call has given to the queue. -/
structure Submission (ι : Type) where
  call : ι
  task : CollectionTask
  accepted : Bool

/-- A crawler, its calls, and what they have given to the queue. -/
structure Crawl (ι : Type) where
  crawler : AdaptiveCrawler
  calls : ι → CallState
  log : List (Submission ι)

/-- The actions of the callers, and of others that use the fabric. -/
inductive CrawlAction (ι : Type) where
  | begin (i : ι) (taskId targetUrl : String) (depth : ℕ) (result : Json)
  /-- The next section of a call. -/
  | advance (i : ι) (r : AdaptiveCrawler.LinkReadings)
  /-- A lock of the fabric is poisoned. -/
  | panic (i : ι)
  /-- What other users of the fabric leave. -/
  | others (fabric : CollectionFabric)
  | reset

namespace Crawl

variable {ι : Type}

/-- Before the first action. -/
def start (crawler : AdaptiveCrawler) : Crawl ι := ⟨crawler, fun _ => .waiting, []⟩

section Steps

variable [DecidableEq ι]

/-- Set how far a call is. -/
def setCall (s : Crawl ι) (i : ι) (state : CallState) : Crawl ι :=
  { s with calls := Function.update s.calls i state }

/-- A call up to its loop. -/
def enter (config : CrawlerConfig) (taskId targetUrl : String) (depth : ℕ) (result : Json) : CallState :=
  if config.maxDepth ≤ depth then .returned 0
  else
    match extractLinks targetUrl depth result with
    | none => .panicked
    | some links => .running ⟨taskId, targetUrl, links, 0⟩ .choosing

/-- The next section of a running call. -/
def advance (s : Crawl ι) (i : ι) (r : AdaptiveCrawler.LinkReadings) (call : CrawlCall) : CrawlStage → Crawl ι
  | .choosing =>
    match call.links with
    | [] => s.setCall i (.returned call.submitted)
    | link :: links =>
      if s.crawler.config.maxUrlsPerCrawl ≤ call.submitted then s.setCall i (.returned call.submitted)
      else if !shouldCrawl s.crawler.config link.url then s.setCall i (.running { call with links } .choosing)
      else if (s.crawler.seen.lookup link.url).isSome then s.setCall i (.running { call with links } .choosing)
      else
        { s.setCall i (.running { call with links }
            (.creating (AdaptiveCrawler.linkTask call.taskId call.targetUrl link r))) with
          crawler.seen := s.crawler.seen.insert link.url link.depth }
  | .creating task =>
    { s.setCall i (.running call (.enqueuing task)) with
      crawler.fabric.sessions := s.crawler.fabric.sessions.create task.id task.target.locator task.driver
        task.capability task.maxRetries task.metadata (r.submission.now 0) }
  | .enqueuing task =>
    match s.crawler.fabric.queue.enqueue task (r.submission.now 1) with
    | .error _ => { s.setCall i (.running call .choosing) with log := s.log ++ [⟨i, task, false⟩] }
    | .ok queue =>
      { s.setCall i (.running call (.versioning task)) with
        crawler.fabric.queue := queue
        log := s.log ++ [⟨i, task, true⟩] }
  | .versioning task =>
    s.setCall i (.running call (.appending task (s.crawler.fabric.events.latestVersion task.id + 1)))
  | .appending task version =>
    { s.setCall i (.running { call with submitted := call.submitted + 1 } .choosing) with
      crawler.fabric.events := s.crawler.fabric.events.appendOk
        ((CollectionFabric.queuedEvent task).intoEnvelope version (r.submission.ulid 0) (r.submission.now 2)) }

/-- The effect of an action. -/
def step (s : Crawl ι) : CrawlAction ι → Crawl ι
  | .begin i taskId targetUrl depth result =>
    match s.calls i with
    | .waiting => s.setCall i (enter s.crawler.config taskId targetUrl depth result)
    | _ => s
  | .advance i r =>
    match s.calls i with
    | .running call stage => s.advance i r call stage
    | _ => s
  | .panic i =>
    match s.calls i with
    | .running _ _ => s.setCall i .panicked
    | _ => s
  | .others fabric => { s with crawler.fabric := fabric }
  | .reset => { s with crawler.seen := ∅ }

/-- The effect of a list of actions. -/
def run (s : Crawl ι) (actions : List (CrawlAction ι)) : Crawl ι := actions.foldl step s

end Steps

/-- The URLs given to the queue. -/
def urls (s : Crawl ι) : List String := s.log.map fun x => x.task.target.locator

/-- The number of tasks that a call has submitted. -/
def accepted [DecidableEq ι] (s : Crawl ι) (i : ι) : ℕ := s.log.countP fun x => x.call = i && x.accepted

end Crawl

/-! ## The sections of a call -/

/-- What the section of a call does to the seen URLs and the queue. -/
inductive CallEvent where
  | silent
  | marks (url : String) (depth : ℕ)
  | gives (task : CollectionTask) (accepted : Bool)

namespace CallEvent

/-- What an event adds to the seen URLs. -/
def seen (event : CallEvent) (urls : HashMap String ℕ) : HashMap String ℕ :=
  match event with
  | marks url depth => urls.insert url depth
  | _ => urls

/-- What an event gives to the fabric. -/
def given (event : CallEvent) {ι : Type} (i : ι) : List (Submission ι) :=
  match event with
  | gives task accepted => [⟨i, task, accepted⟩]
  | _ => []

/-- The number of tasks the queue has accepted. -/
def accepted : CallEvent → ℕ
  | gives _ true => 1
  | _ => 0

end CallEvent

open AdaptiveCrawler in
/-- What one section of a call can do. -/
inductive CallStep (config : CrawlerConfig) (seen : HashMap String ℕ) :
    CallState → CallEvent → CallState → Prop
  | refuse : CallStep config seen .waiting .silent (.returned 0)
  | abort : CallStep config seen .waiting .silent .panicked
  | begin (call : CrawlCall) (fresh : call.submitted = 0)
    (depths : ∀ link ∈ call.links, link.depth ≤ config.maxDepth) :
    CallStep config seen .waiting .silent (.running call .choosing)
  | leave (call : CrawlCall) :
    CallStep config seen (.running call .choosing) .silent (.returned call.submitted)
  | pass (call : CrawlCall) (link : DiscoveredLink) (links : List DiscoveredLink) (next : call.links = link :: links) :
    CallStep config seen (.running call .choosing) .silent (.running { call with links } .choosing)
  | mark (call : CrawlCall) (link : DiscoveredLink) (links : List DiscoveredLink) (r : LinkReadings)
    (next : call.links = link :: links) (room : call.submitted < config.maxUrlsPerCrawl)
    (unseen : seen.lookup link.url = none) :
    CallStep config seen (.running call .choosing) (.marks link.url link.depth)
      (.running { call with links } (.creating (linkTask call.taskId call.targetUrl link r)))
  | create (call : CrawlCall) (task : CollectionTask) :
    CallStep config seen (.running call (.creating task)) .silent (.running call (.enqueuing task))
  | reject (call : CrawlCall) (task : CollectionTask) :
    CallStep config seen (.running call (.enqueuing task)) (.gives task false) (.running call .choosing)
  | enqueue (call : CrawlCall) (task : CollectionTask) :
    CallStep config seen (.running call (.enqueuing task)) (.gives task true) (.running call (.versioning task))
  | version (call : CrawlCall) (task : CollectionTask) (version : ℕ) :
    CallStep config seen (.running call (.versioning task)) .silent (.running call (.appending task version))
  | append (call : CrawlCall) (task : CollectionTask) (version : ℕ) :
    CallStep config seen (.running call (.appending task version)) .silent
      (.running { call with submitted := call.submitted + 1 } .choosing)
  | panic (call : CrawlCall) (stage : CrawlStage) :
    CallStep config seen (.running call stage) .silent .panicked

/-! ## Invariants of a call -/

/-- The task that is on its way to the queue. -/
def CrawlStage.task : CrawlStage → Option CollectionTask
  | creating task | enqueuing task => some task
  | _ => none

/-- The depth in the metadata of a task is within the limit. -/
def ShallowTask (maxDepth : ℕ) (task : CollectionTask) : Prop :=
  ∃ depth ≤ maxDepth, task.metadata.lookup "crawl_depth" = some (toString depth)

theorem shallowTask_linkTask {maxDepth : ℕ} {link : DiscoveredLink} (h : link.depth ≤ maxDepth)
    (taskId targetUrl : String) (r : AdaptiveCrawler.LinkReadings) :
    ShallowTask maxDepth (AdaptiveCrawler.linkTask taskId targetUrl link r) := by
  refine ⟨link.depth, h, ?_⟩
  simp only [AdaptiveCrawler.linkTask]
  rw [Finmap.lookup_insert_of_ne _ (by decide), Finmap.lookup_insert_of_ne _ (by decide),
    Finmap.lookup_insert_of_ne _ (by decide), Finmap.lookup_insert]

namespace CallState

/-- The URL that a call has marked and not yet given to the queue. -/
def pending : CallState → Option String
  | running _ stage => stage.task.map (·.target.locator)
  | _ => none

/-- The links of a call and the task it is about to give to the queue are within the depth limit. -/
def Shallow (maxDepth : ℕ) : CallState → Prop
  | running call stage =>
    (∀ link ∈ call.links, link.depth ≤ maxDepth) ∧ ∀ task ∈ stage.task, ShallowTask maxDepth task
  | _ => True

/-- What the count of a call has to do with the tasks the queue has accepted from it.  There is room for the
task that is on its way. -/
def Within (limit accepted : ℕ) : CallState → Prop
  | waiting => accepted = 0
  | running call .choosing => accepted = call.submitted ∧ accepted ≤ limit
  | running call (.creating _) | running call (.enqueuing _) => accepted = call.submitted ∧ accepted < limit
  | running call (.versioning _) | running call (.appending _ _) =>
    accepted = call.submitted + 1 ∧ accepted ≤ limit
  | returned submitted => accepted = submitted ∧ accepted ≤ limit
  | panicked => accepted ≤ limit

theorem Within.le {limit accepted : ℕ} {state : CallState} (h : state.Within limit accepted) :
    accepted ≤ limit := by
  unfold Within at h
  split at h <;> omega

end CallState

namespace CallStep

variable {config : CrawlerConfig} {seen : HashMap String ℕ} {state state' : CallState} {event : CallEvent}

theorem shallow (step : CallStep config seen state event state') (h : state.Shallow config.maxDepth) :
    state'.Shallow config.maxDepth := by
  cases step with
  | refuse | abort | leave | panic => trivial
  | begin call fresh depths => exact ⟨depths, by simp [CrawlStage.task]⟩
  | pass call link links next =>
    exact ⟨fun l hl => h.1 l (next ▸ List.mem_cons_of_mem _ hl), by simp [CrawlStage.task]⟩
  | mark call link links r next room unseen =>
    refine ⟨fun l hl => h.1 l (next ▸ List.mem_cons_of_mem _ hl), ?_⟩
    rintro task ⟨⟩
    exact shallowTask_linkTask (h.1 link (next ▸ List.mem_cons_self)) _ _ _
  | create call task => exact h
  | reject | enqueue | version | append => exact ⟨h.1, by simp [CrawlStage.task]⟩

theorem within (step : CallStep config seen state event state') {accepted : ℕ}
    (h : state.Within config.maxUrlsPerCrawl accepted) :
    state'.Within config.maxUrlsPerCrawl (accepted + event.accepted) := by
  cases step with
  | refuse => exact ⟨h, h ▸ Nat.zero_le _⟩
  | abort => exact h ▸ Nat.zero_le _
  | begin call fresh depths => exact ⟨h.trans fresh.symm, h ▸ Nat.zero_le _⟩
  | leave | pass | create | version => exact h
  | reject call task => exact ⟨h.1, h.2.le⟩
  | mark call link links r next room unseen => exact ⟨h.1, h.1 ▸ room⟩
  | enqueue call task => exact ⟨congrArg (· + 1) h.1, h.2⟩
  | append call task version => exact h
  | panic call stage => exact h.le

/-- What a call is about to give to the queue is what it has marked, and nobody had marked it before. -/
theorem pending (step : CallStep config seen state event state') : match event with
    | .silent => ∀ u ∈ state'.pending, u ∈ state.pending
    | .marks url _ => state'.pending = some url ∧ seen.lookup url = none
    | .gives task _ => state.pending = some task.target.locator ∧ state'.pending = none := by
  cases step with
  | mark call link links r next room unseen => exact ⟨rfl, unseen⟩
  | create call task => exact fun u hu => hu
  | reject | enqueue => exact ⟨rfl, rfl⟩
  | _ => exact fun u hu => by cases hu

theorem shallow_given (step : CallStep config seen state event state') (h : state.Shallow config.maxDepth)
    {ι : Type} {i : ι} {x : Submission ι} (hx : x ∈ event.given i) : ShallowTask config.maxDepth x.task := by
  cases step with
  | reject call task | enqueue call task =>
    cases List.mem_singleton.1 hx
    exact h.2 task rfl
  | _ => cases hx

end CallStep

/-! ## Depths -/

namespace Crawler

theorem depth_tagLink {base content : Text} {depth : ℕ} {tag attr : String} {links : List DiscoveredLink}
    (h : tagLink base depth tag attr content = some links) {link : DiscoveredLink} (hl : link ∈ links) :
    link.depth = depth + 1 := by
  unfold tagLink at h
  split at h
  · cases h
    cases hl
  · cases h
    cases hl
  · obtain ⟨url, -, rfl⟩ := Option.map_eq_some_iff.1 h
    rw [List.mem_singleton.1 hl]

theorem depth_extractAttrLoop {base : Text} {depth : ℕ} {tag attr : String} {rounds : ℕ} {html : Text}
    {links : List DiscoveredLink} (h : extractAttrLoop base depth tag attr rounds html = some links)
    {link : DiscoveredLink} (hl : link ∈ links) : link.depth = depth + 1 := by
  induction rounds generalizing html links with
  | zero =>
    cases h
    cases hl
  | succ rounds ih =>
    unfold extractAttrLoop at h
    split at h
    · cases h
      cases hl
    split at h
    · cases h
      cases hl
    obtain ⟨first, hfirst, h⟩ := Option.bind_eq_some_iff.1 h
    obtain ⟨rest, hrest, h⟩ := Option.bind_eq_some_iff.1 h
    cases h
    rcases List.mem_append.1 hl with hl | hl
    · exact depth_tagLink hfirst hl
    · exact ih hrest hl

theorem depth_extractFromHtml {base html : Text} {depth : ℕ} {links : List DiscoveredLink}
    (h : extractFromHtml base depth html = some links) {link : DiscoveredLink} (hl : link ∈ links) :
    link.depth = depth + 1 := by
  simp only [extractFromHtml, Option.bind_eq_bind, Option.bind_eq_some_iff] at h
  obtain ⟨a, ha, img, himg, script, hscript, link', hlink, form, hform, iframe, hiframe, frame, hframe, h⟩ := h
  cases h
  simp only [List.mem_append] at hl
  rcases hl with (((((hl | hl) | hl) | hl) | hl) | hl) | hl
  · exact depth_extractAttrLoop ha hl
  · exact depth_extractAttrLoop himg hl
  · exact depth_extractAttrLoop hscript hl
  · exact depth_extractAttrLoop hlink hl
  · exact depth_extractAttrLoop hform hl
  · exact depth_extractAttrLoop hiframe hl
  · exact depth_extractAttrLoop hframe hl

theorem depth_linksOf {base : Text} {depth : ℕ} {html : Option Json} {links : List DiscoveredLink}
    (h : linksOf base depth html = some links) {link : DiscoveredLink} (hl : link ∈ links) :
    link.depth = depth + 1 := by
  unfold linksOf at h
  split at h
  · exact depth_extractFromHtml h hl
  · cases h
    cases hl

/-- The links of a page are one deeper than the page. -/
theorem depth_extractLinks {base : String} {depth : ℕ} {result : Json} {links : List DiscoveredLink}
    (h : extractLinks base depth result = some links) {link : DiscoveredLink} (hl : link ∈ links) :
    link.depth = depth + 1 := by
  simp only [extractLinks, Option.bind_eq_bind, Option.bind_eq_some_iff] at h
  obtain ⟨body, hbody, html, hhtml, data, hdata, h⟩ := h
  cases h
  simp only [List.mem_append] at hl
  rcases hl with (hl | hl) | hl
  · exact depth_linksOf hbody hl
  · exact depth_linksOf hhtml hl
  · exact depth_linksOf hdata hl

end Crawler

namespace Crawl

section Steps

variable {ι : Type} [DecidableEq ι] (s : Crawl ι)

/-- A section of one call, with what it leaves of the other parts of the state. -/
def Moves (s s' : Crawl ι) : Prop :=
  ∃ i event state, CallStep s.crawler.config s.crawler.seen (s.calls i) event state ∧
    s'.calls = Function.update s.calls i state ∧ s'.crawler.config = s.crawler.config ∧
    s'.crawler.seen = event.seen s.crawler.seen ∧ s'.log = s.log ++ event.given i

theorem moves_setCall {i : ι} {state : CallState}
    (h : CallStep s.crawler.config s.crawler.seen (s.calls i) .silent state) : Moves s (s.setCall i state) :=
  ⟨i, .silent, state, h, rfl, rfl, rfl, (List.append_nil _).symm⟩

theorem moves_advance {i : ι} {call : CrawlCall} {stage : CrawlStage} (h : s.calls i = .running call stage)
    (r : AdaptiveCrawler.LinkReadings) : Moves s (s.advance i r call stage) := by
  cases stage with
  | choosing =>
    unfold advance
    cases next : call.links with
    | nil => exact s.moves_setCall (h ▸ .leave call)
    | cons link links =>
      dsimp only
      split_ifs with full skip known
      · exact s.moves_setCall (h ▸ .leave call)
      · exact s.moves_setCall (h ▸ .pass call link links next)
      · exact s.moves_setCall (h ▸ .pass call link links next)
      · refine ⟨i, .marks link.url link.depth, _, h ▸ .mark call link links r next (Nat.lt_of_not_le full) ?_,
          rfl, rfl, rfl, (List.append_nil _).symm⟩
        simpa using known
  | creating task => exact ⟨i, .silent, _, h ▸ .create call task, rfl, rfl, rfl, (List.append_nil _).symm⟩
  | enqueuing task =>
    simp only [advance]
    split
    · exact ⟨i, .gives task false, _, h ▸ .reject call task, rfl, rfl, rfl, rfl⟩
    · exact ⟨i, .gives task true, _, h ▸ .enqueue call task, rfl, rfl, rfl, rfl⟩
  | versioning task => exact s.moves_setCall (h ▸ .version call task _)
  | appending task version =>
    exact ⟨i, .silent, _, h ▸ .append call task version, rfl, rfl, rfl, (List.append_nil _).symm⟩

/-- Every action but a reset is a section of one call, or leaves the calls, the seen URLs and the log
alone. -/
theorem moves_step (a : CrawlAction ι) (kept : a ≠ .reset) : Moves s (s.step a) ∨
    (s.step a).calls = s.calls ∧ (s.step a).crawler.config = s.crawler.config ∧
      (s.step a).crawler.seen = s.crawler.seen ∧ (s.step a).log = s.log := by
  cases a with
  | begin i taskId targetUrl depth result =>
    simp only [step]
    split
    next waiting =>
      refine .inl (s.moves_setCall (waiting ▸ ?_))
      unfold enter
      split_ifs with deep
      · exact .refuse
      · split
        · exact .abort
        next links found =>
          refine .begin _ rfl fun link hl => ?_
          rw [depth_extractLinks found hl]
          exact Nat.lt_of_not_le deep
    next => exact .inr ⟨rfl, rfl, rfl, rfl⟩
  | advance i r =>
    simp only [step]
    split
    next call stage running => exact .inl (s.moves_advance running r)
    next => exact .inr ⟨rfl, rfl, rfl, rfl⟩
  | panic i =>
    simp only [step]
    split
    next call stage running => exact .inl (s.moves_setCall (running ▸ .panic call stage))
    next => exact .inr ⟨rfl, rfl, rfl, rfl⟩
  | others fabric => exact .inr ⟨rfl, rfl, rfl, rfl⟩
  | reset => exact absurd rfl kept

/-! ## Invariants of a crawl -/

/-- Every call is within the limits, and so is what it has given to the queue. -/
structure Limited (s : Crawl ι) : Prop where
  within : ∀ i, (s.calls i).Within s.crawler.config.maxUrlsPerCrawl (s.accepted i)
  shallow : ∀ i, (s.calls i).Shallow s.crawler.config.maxDepth
  given : ∀ x ∈ s.log, ShallowTask s.crawler.config.maxDepth x.task

/-- The URLs given to the queue and those on their way are seen, and no two are the same. -/
structure Distinct (s : Crawl ι) : Prop where
  nodup : s.urls.Nodup
  seen : ∀ u ∈ s.urls, (s.crawler.seen.lookup u).isSome
  marked : ∀ i, ∀ u ∈ (s.calls i).pending, (s.crawler.seen.lookup u).isSome ∧ u ∉ s.urls
  apart : ∀ i j, ∀ u ∈ (s.calls i).pending, u ∈ (s.calls j).pending → i = j

variable {s} {s' : Crawl ι}

theorem accepted_append (i j : ι) (event : CallEvent) (h : s'.log = s.log ++ event.given i) :
    s'.accepted j = s.accepted j + if i = j then event.accepted else 0 := by
  rw [accepted, h, List.countP_append]
  refine congrArg _ ?_
  cases event with
  | silent | marks url depth => simp [CallEvent.given, CallEvent.accepted]
  | gives task accepted =>
    cases accepted <;> by_cases same : i = j <;> simp [CallEvent.given, CallEvent.accepted, same]

theorem Limited.moves (h : Limited s) (moves : Moves s s') : Limited s' := by
  obtain ⟨i, event, state, step, calls, config, -, log⟩ := moves
  refine ⟨fun j => ?_, fun j => ?_, fun x hx => ?_⟩
  · rw [accepted_append i j event log, calls, config]
    by_cases same : i = j
    · subst same
      rw [Function.update_self, if_pos rfl]
      exact step.within (h.within i)
    · rw [Function.update_of_ne (Ne.symm same), if_neg same]
      exact h.within j
  · rw [calls, config]
    by_cases same : i = j
    · subst same
      rw [Function.update_self]
      exact step.shallow (h.shallow i)
    · rw [Function.update_of_ne (Ne.symm same)]
      exact h.shallow j
  · rw [config]
    rw [log, List.mem_append] at hx
    rcases hx with hx | hx
    · exact h.given x hx
    · exact step.shallow_given (h.shallow i) hx

/-- A section that marks no URL and gives none to the queue. -/
theorem Distinct.silent (h : Distinct s) {i : ι} {state : CallState}
    (calls : s'.calls = Function.update s.calls i state)
    (seen : s'.crawler.seen = s.crawler.seen) (log : s'.log = s.log)
    (less : ∀ u ∈ state.pending, u ∈ (s.calls i).pending) : Distinct s' := by
  have urls : s'.urls = s.urls := by rw [Crawl.urls, log, Crawl.urls]
  have before : ∀ j, ∀ u ∈ (s'.calls j).pending, u ∈ (s.calls j).pending := by
    intro j u hu
    rw [calls] at hu
    by_cases same : j = i
    · subst same
      rw [Function.update_self] at hu
      exact less u hu
    · rwa [Function.update_of_ne same] at hu
  constructor
  · exact urls ▸ h.nodup
  · rw [urls, seen]
    exact h.seen
  · intro j u hu
    rw [urls, seen]
    exact h.marked j u (before j u hu)
  · exact fun j k u hj hk => h.apart j k u (before j u hj) (before k u hk)

theorem Distinct.marks (h : Distinct s) {i : ι} {state : CallState} {url : String} {depth : ℕ}
    (calls : s'.calls = Function.update s.calls i state) (seen : s'.crawler.seen = s.crawler.seen.insert url depth)
    (log : s'.log = s.log) (pending : state.pending = some url) (unseen : s.crawler.seen.lookup url = none) :
    Distinct s' := by
  have urls : s'.urls = s.urls := by rw [Crawl.urls, log, Crawl.urls]
  have kept : ∀ {u}, (s.crawler.seen.lookup u).isSome → (s'.crawler.seen.lookup u).isSome ∧ u ≠ url := by
    intro u hu
    have other : u ≠ url := by
      rintro rfl
      simp [unseen] at hu
    rw [seen, Finmap.lookup_insert_of_ne _ other]
    exact ⟨hu, other⟩
  -- a call is about to give what it was about to give before, or the new URL
  have before : ∀ j, ∀ u ∈ (s'.calls j).pending, j = i ∧ u = url ∨ j ≠ i ∧ u ∈ (s.calls j).pending := by
    intro j u hu
    rw [calls] at hu
    by_cases same : j = i
    · subst same
      rw [Function.update_self, pending] at hu
      exact .inl ⟨rfl, (Option.some_inj.1 hu).symm⟩
    · rw [Function.update_of_ne same] at hu
      exact .inr ⟨same, hu⟩
  constructor
  · exact urls ▸ h.nodup
  · intro u hu
    rw [urls] at hu
    exact (kept (h.seen u hu)).1
  · intro j u hu
    rw [urls]
    rcases before j u hu with ⟨-, rfl⟩ | ⟨-, hu⟩
    · refine ⟨by rw [seen, Finmap.lookup_insert]; rfl, fun given => ?_⟩
      exact (kept (h.seen u given)).2 rfl
    · exact ⟨(kept (h.marked j u hu).1).1, (h.marked j u hu).2⟩
  · intro j k u hj hk
    rcases before j u hj with ⟨rfl, rfl⟩ | ⟨-, hj⟩ <;> rcases before k u hk with ⟨rfl, eq⟩ | ⟨-, hk⟩
    · rfl
    · exact absurd rfl (kept (h.marked k u hk).1).2
    · exact absurd eq (kept (h.marked j u hj).1).2
    · exact h.apart j k u hj hk

theorem Distinct.gives (h : Distinct s) {i : ι} {state : CallState} {task : CollectionTask} {accepted : Bool}
    (calls : s'.calls = Function.update s.calls i state) (seen : s'.crawler.seen = s.crawler.seen)
    (log : s'.log = s.log ++ [⟨i, task, accepted⟩]) (before : (s.calls i).pending = some task.target.locator)
    (after : state.pending = none) : Distinct s' := by
  have urls : s'.urls = s.urls ++ [task.target.locator] := by
    rw [Crawl.urls, log, List.map_append]
    rfl
  have own := h.marked i task.target.locator before
  have others : ∀ j, ∀ u ∈ (s'.calls j).pending, j ≠ i ∧ u ∈ (s.calls j).pending := by
    intro j u hu
    rw [calls] at hu
    by_cases same : j = i
    · subst same
      rw [Function.update_self, after] at hu
      cases hu
    · rw [Function.update_of_ne same] at hu
      exact ⟨same, hu⟩
  constructor
  · rw [urls, List.nodup_append]
    refine ⟨h.nodup, List.nodup_singleton _, fun u hu v hv => ?_⟩
    rw [List.mem_singleton.1 hv]
    rintro rfl
    exact own.2 hu
  · intro u hu
    rw [seen]
    rw [urls, List.mem_append, List.mem_singleton] at hu
    rcases hu with hu | rfl
    · exact h.seen u hu
    · exact own.1
  · intro j u hu
    obtain ⟨other, hu⟩ := others j u hu
    rw [seen, urls, List.mem_append, List.mem_singleton]
    refine ⟨(h.marked j u hu).1, ?_⟩
    rintro (given | rfl)
    · exact (h.marked j u hu).2 given
    · exact other (h.apart j i _ hu before)
  · exact fun j k u hj hk => h.apart j k u (others j u hj).2 (others k u hk).2

theorem Distinct.moves (h : Distinct s) (moves : Moves s s') : Distinct s' := by
  obtain ⟨i, event, state, step, calls, -, seen, log⟩ := moves
  have pending := step.pending
  cases event with
  | silent => exact h.silent calls seen (log.trans (List.append_nil _)) pending
  | marks url depth => exact h.marks calls seen (log.trans (List.append_nil _)) pending.1 pending.2
  | gives task accepted => exact h.gives calls seen log pending.1 pending.2

/-- The invariants depend on the calls, the configuration, the seen URLs and the log. -/
theorem invariants_same (h : Limited s ∧ Distinct s) (calls : s'.calls = s.calls)
    (config : s'.crawler.config = s.crawler.config) (seen : s'.crawler.seen = s.crawler.seen)
    (log : s'.log = s.log) : Limited s' ∧ Distinct s' := by
  have urls : s'.urls = s.urls := by rw [Crawl.urls, log, Crawl.urls]
  have accepted : ∀ i, s'.accepted i = s.accepted i := fun i => by rw [Crawl.accepted, log, Crawl.accepted]
  constructor
  · constructor
    · intro i
      rw [calls, config, accepted]
      exact h.1.within i
    · rw [calls, config]
      exact h.1.shallow
    · rw [log, config]
      exact h.1.given
  · constructor
    · exact urls ▸ h.2.nodup
    · rw [urls, seen]
      exact h.2.seen
    · rw [calls, urls, seen]
      exact h.2.marked
    · rw [calls]
      exact h.2.apart

theorem invariants_step (h : Limited s ∧ Distinct s) (a : CrawlAction ι) (kept : a ≠ .reset) :
    Limited (s.step a) ∧ Distinct (s.step a) := by
  rcases s.moves_step a kept with moves | ⟨calls, config, seen, log⟩
  · exact ⟨h.1.moves moves, h.2.moves moves⟩
  · exact invariants_same h calls config seen log

theorem invariants_start (crawler : AdaptiveCrawler) :
    Limited (start crawler : Crawl ι) ∧ Distinct (start crawler : Crawl ι) := by
  constructor
  · exact ⟨fun _ => rfl, fun _ => trivial, fun _ hx => absurd hx List.not_mem_nil⟩
  · exact ⟨List.nodup_nil, fun _ hu => absurd hu List.not_mem_nil, fun _ _ hu => (by cases hu),
      fun _ _ _ hu => (by cases hu)⟩

theorem config_step (a : CrawlAction ι) : (s.step a).crawler.config = s.crawler.config := by
  by_cases kept : a = .reset
  · subst kept
    rfl
  · rcases s.moves_step a kept with ⟨i, event, state, -, -, config, -⟩ | ⟨-, config, -⟩
    · exact config
    · exact config

theorem config_run (actions : List (CrawlAction ι)) : (s.run actions).crawler.config = s.crawler.config := by
  induction actions generalizing s with
  | nil => rfl
  | cons a actions ih => exact ih.trans (config_step a)

/-- A call from its start to the submission of a link. -/
def sampleCrawl : List (CrawlAction ℕ) :=
  let r : AdaptiveCrawler.LinkReadings := ⟨Ulid.ofNat 0, 0, CollectionFabric.sampleReadings⟩
  [.begin 0 "t" "https://example.com/" 0 (.obj [("html", .str "<a href=\"/x\">")]),
    .advance 0 r, .advance 0 r, .advance 0 r]

/-- Between two resets no URL is given to the queue twice, no call submits more tasks than the limit, and the
depth of every task is within the limit. -/
theorem crawl_bounded (crawler : AdaptiveCrawler) (actions : List (CrawlAction ι)) (kept : .reset ∉ actions) :
    ((start crawler).run actions).urls.Nodup ∧
      (∀ i, ((start crawler).run actions).accepted i ≤ crawler.config.maxUrlsPerCrawl) ∧
      ∀ x ∈ ((start crawler).run actions).log, ShallowTask crawler.config.maxDepth x.task := by
  have reached : Reached step (fun _ a => a ≠ .reset) (start crawler) ((start crawler).run actions) :=
    Along.reached (along_of_forall fun a ha eq => kept (eq ▸ ha))
  have invariants := reached.invariant (P := fun s => Limited s ∧ Distinct s) (invariants_start crawler)
    fun s a h ha => invariants_step h a ha
  have config : ((start crawler).run actions).crawler.config = crawler.config := config_run actions
  refine ⟨invariants.2.nodup, fun i => ?_, ?_⟩
  · rw [← config]
    exact (invariants.1.within i).le
  · rw [← config]
    exact invariants.1.given

theorem crawl_bounded_sample :
    ((start (.new (.new .new) .default)).run sampleCrawl).urls.Nodup ∧
      (∀ i, ((start (.new (.new .new) .default)).run sampleCrawl).accepted i ≤
        CrawlerConfig.default.maxUrlsPerCrawl) ∧
      ∀ x ∈ ((start (.new (.new .new) .default)).run sampleCrawl).log,
        ShallowTask CrawlerConfig.default.maxDepth x.task :=
  crawl_bounded (.new (.new .new) .default) sampleCrawl (by simp [sampleCrawl])

/-! ## A call alone -/

section Alone

open AdaptiveCrawler

variable (taskId targetUrl : String) (rs : ℕ → LinkReadings) (i : ι)

/-- The sections of a call that find the readings `rounds`. -/
def sections (rounds : List LinkReadings) : List (CrawlAction ι) := rounds.map (.advance i)

theorem run_append (s : Crawl ι) (a b : List (CrawlAction ι)) : s.run (a ++ b) = (s.run a).run b :=
  List.foldl_append

/-- The call is at the head of its loop. -/
def AtLoop (s : Crawl ι) (links : List DiscoveredLink) (submitted : ℕ) : Prop :=
  s.calls i = .running ⟨taskId, targetUrl, links, submitted⟩ .choosing

variable {taskId targetUrl i} {link : DiscoveredLink} {links : List DiscoveredLink} {submitted : ℕ}
  {s : Crawl ι}

/-- The five sections of a submission, or three when the queue rejects it. -/
theorem run_submission (h : AtLoop taskId targetUrl i s (link :: links) submitted) (r : LinkReadings)
    (room : ¬ s.crawler.config.maxUrlsPerCrawl ≤ submitted) (crawl : shouldCrawl s.crawler.config link.url = true)
    (unseen : s.crawler.seen.lookup link.url = none) :
    ∃ rounds, (s.run (sections i rounds)).crawler = { s.crawler with
        fabric := (s.crawler.fabric.submit (linkTask taskId targetUrl link r) r.submission).2
        seen := s.crawler.seen.insert link.url link.depth } ∧
      AtLoop taskId targetUrl i (s.run (sections i rounds)) links
        (match (s.crawler.fabric.submit (linkTask taskId targetUrl link r) r.submission).1 with
          | .ok _ => submitted + 1
          | .error _ => submitted) := by
  unfold AtLoop at h
  cases queued : s.crawler.fabric.queue.enqueue (linkTask taskId targetUrl link r) (r.submission.now 1) with
  | error e =>
    refine ⟨[r, r, r], ?_, ?_⟩
    · simp [sections, run, step, advance, setCall, h, room, crawl, unseen, queued, CollectionFabric.submit]
    · simp [AtLoop, sections, run, step, advance, setCall, h, room, crawl, unseen, queued, CollectionFabric.submit]
  | ok queue =>
    refine ⟨[r, r, r, r, r], ?_, ?_⟩
    · simp [sections, run, step, advance, setCall, h, room, crawl, unseen, queued, CollectionFabric.submit,
        CollectionFabric.emit]
    · simp [AtLoop, sections, run, step, advance, setCall, h, room, crawl, unseen, queued, CollectionFabric.submit]

/-- A link that is not submitted. -/
theorem run_pass (h : AtLoop taskId targetUrl i s (link :: links) submitted) (r : LinkReadings)
    (room : ¬ s.crawler.config.maxUrlsPerCrawl ≤ submitted)
    (passed : shouldCrawl s.crawler.config link.url = false ∨ (s.crawler.seen.lookup link.url).isSome = true) :
    (s.run (sections i [r])).crawler = s.crawler ∧
      AtLoop taskId targetUrl i (s.run (sections i [r])) links submitted := by
  unfold AtLoop at h
  rcases passed with skip | known
  · simp [AtLoop, sections, run, step, advance, setCall, h, room, skip]
  · simp [AtLoop, sections, run, step, advance, setCall, h, room, known]

/-- Some sections of the call lead to its return. -/
def Returns (i : ι) (s : Crawl ι) (result : ℕ × AdaptiveCrawler) : Prop :=
  ∃ rounds, (s.run (sections i rounds)).crawler = result.2 ∧
    (s.run (sections i rounds)).calls i = .returned result.1

theorem Returns.after (rounds : List LinkReadings) {result : ℕ × AdaptiveCrawler}
    (h : Returns i (s.run (sections i rounds)) result) : Returns i s result := by
  obtain ⟨rest, crawler, calls⟩ := h
  refine ⟨rounds ++ rest, ?_⟩
  rw [sections, List.map_append, run_append]
  exact ⟨crawler, calls⟩

theorem returns_submitLinks (rs : ℕ → LinkReadings) (h : AtLoop taskId targetUrl i s links submitted) :
    Returns i s (submitLinks taskId targetUrl rs links submitted s.crawler) := by
  induction links generalizing s submitted with
  | nil =>
    refine ⟨[rs 0], ?_⟩
    unfold AtLoop at h
    simp [sections, run, step, advance, setCall, h, submitLinks]
  | cons link links ih =>
    rw [submitLinks]
    split_ifs with full skip known
    · refine ⟨[rs 0], ?_⟩
      unfold AtLoop at h
      simp [sections, run, step, advance, setCall, h, full]
    · obtain ⟨crawler, loop⟩ := run_pass h (rs 0) full (.inl (by simpa using skip))
      exact Returns.after [rs 0] (crawler ▸ ih loop)
    · obtain ⟨crawler, loop⟩ := run_pass h (rs 0) full (.inr known)
      exact Returns.after [rs 0] (crawler ▸ ih loop)
    · obtain ⟨rounds, crawler, loop⟩ := run_submission h (rs links.length) full (by simpa using skip)
        (by simpa using known)
      have rest := ih loop
      rw [crawler] at rest
      refine Returns.after rounds ?_
      revert rest
      dsimp only
      cases s.crawler.fabric.submit (linkTask taskId targetUrl link (rs links.length)) (rs links.length).submission with
      | mk answer fabric => cases answer <;> exact id

/-- The sections of a call that nobody disturbs are `processResult`. -/
theorem returns_processResult (c : AdaptiveCrawler) (taskId targetUrl : String) (depth : ℕ) (result : Json)
    (rs : ℕ → LinkReadings) {returned : ℕ × AdaptiveCrawler}
    (h : c.processResult taskId targetUrl depth result rs = some returned) :
    Returns i ((start c).step (.begin i taskId targetUrl depth result)) returned := by
  unfold processResult at h
  split_ifs at h with deep
  · cases h
    exact ⟨[], by simp [sections, run, step, start, setCall, enter, deep]⟩
  · obtain ⟨links, found, rfl⟩ := Option.map_eq_some_iff.1 h
    refine returns_submitLinks (s := (start c).step (.begin i taskId targetUrl depth result)) rs ?_
    simp [AtLoop, step, start, setCall, enter, deep, found]

end Alone

end Steps

end Crawl

end TORdex
