import TORdex.Lib.FiniteMap
import TORdex.Monitoring.Engine

/-!
# Watchers that compare

The watchers of APIs, onions and packages keep the last value that they read for each of their subjects, and
report how the next answer compares with it.
-/

namespace TORdex.Monitoring

/-- The id and the time that a new change draws. -/
structure Draw where
  id : Ulid
  now : OffsetDateTime

/-- A change without a previous state. -/
def ChangeEvent.new (draw : Draw) (watcherKind subject changeType : String) (currentState : Json) : ChangeEvent where
  id := draw.id.toString
  watcherKind := watcherKind
  subject := subject
  changeType := changeType
  previousState := none
  currentState := currentState
  detectedAt := draw.now
  metadata := ∅

/-- A watcher that keeps the last value of each of its subjects. -/
structure Probe (K V : Type) where
  watcherKind : String
  subject : K → String
  read : Json → V
  changeType : Option V → V → String
  currentState : K → Option V → Json → Json
  failure : K → String → Json

/-- A poll: its keys in their order, what the driver answers, and the readings for the changes. -/
structure Poll (K : Type) where
  keys : List K
  response : K → Except String Json
  draw : K → Draw

namespace Probe

variable {K V : Type} (probe : Probe K V)

/-- The change for a key, and the values kept after it. -/
def pollKey (p : Poll K) (known : HashMap String V) (key : K) : ChangeEvent × HashMap String V :=
  let change := ChangeEvent.new (p.draw key) probe.watcherKind (probe.subject key)
  match p.response key with
  | .ok resp =>
    let prev := known.lookup (probe.subject key)
    let value := probe.read resp
    (change (probe.changeType prev value) (probe.currentState key prev resp),
      known.insert (probe.subject key) value)
  | .error e => (change "poll_failed" (probe.failure key e), known)

/-- Poll subjects one after another. -/
def pollKeys (p : Poll K) : List K → HashMap String V → List ChangeEvent × HashMap String V
  | [], known => ([], known)
  | key :: keys, known =>
    let first := probe.pollKey p known key
    let rest := pollKeys p keys first.2
    (first.1 :: rest.1, rest.2)

/-- Poll all subjects. -/
def poll (p : Poll K) (known : HashMap String V) : List ChangeEvent × HashMap String V :=
  probe.pollKeys p p.keys known

/-- The values kept after some polls. -/
def run (polls : List (Poll K)) (known : HashMap String V) : HashMap String V :=
  polls.foldl (fun known p => (probe.poll p known).2) known

/-- The value of a key in a poll that reached it. -/
def answered (p : Poll K) (key : K) : Option V := (p.response key).toOption.map probe.read

/-- The last value that was read for a key. -/
def lastRead (polls : List (Poll K)) (key : K) : Option V :=
  (polls.filterMap fun p => probe.answered p key).getLast?

/-- The change type of a key, by the value kept before the poll. -/
def verdict (prev : Option V) (response : Except String Json) : String :=
  match response with
  | .ok resp => probe.changeType prev (probe.read resp)
  | .error _ => "poll_failed"

end Probe

section Compare

variable {K V : Type} {probe : Probe K V} {p : Poll K} {known : HashMap String V}

namespace Probe

theorem pollKey_of_ok {key : K} {resp : Json} (ok : p.response key = .ok resp) :
    ((probe.pollKey p known key).1.subject, (probe.pollKey p known key).1.changeType) =
        (probe.subject key, probe.verdict (known.lookup (probe.subject key)) (p.response key)) ∧
      (probe.pollKey p known key).2 = known.insert (probe.subject key) (probe.read resp) := by
  rw [pollKey, ok]
  exact ⟨rfl, rfl⟩

theorem pollKey_of_error {key : K} {e : String} (failed : p.response key = .error e) :
    ((probe.pollKey p known key).1.subject, (probe.pollKey p known key).1.changeType) =
        (probe.subject key, probe.verdict (known.lookup (probe.subject key)) (p.response key)) ∧
      (probe.pollKey p known key).2 = known := by
  rw [pollKey, failed]
  exact ⟨rfl, rfl⟩

/-- What a poll reports for a key, and what it leaves for each subject. -/
theorem pollKey_spec (key : K) :
    ((probe.pollKey p known key).1.subject, (probe.pollKey p known key).1.changeType) =
        (probe.subject key, probe.verdict (known.lookup (probe.subject key)) (p.response key)) ∧
      (probe.pollKey p known key).2.lookup (probe.subject key) =
        (probe.answered p key).or (known.lookup (probe.subject key)) ∧
      ∀ subject ≠ probe.subject key, (probe.pollKey p known key).2.lookup subject = known.lookup subject := by
  cases answer : p.response key with
  | ok resp =>
    obtain ⟨reported, kept⟩ := @pollKey_of_ok K V probe p known key resp answer
    rw [answer] at reported
    rw [kept, Finmap.lookup_insert, answered, answer]
    exact ⟨reported, rfl, fun subject other => Finmap.lookup_insert_of_ne _ other⟩
  | error e =>
    obtain ⟨reported, kept⟩ := @pollKey_of_error K V probe p known key e answer
    rw [answer] at reported
    rw [kept, answered, answer]
    exact ⟨reported, rfl, fun subject _ => rfl⟩

theorem pollKeys_spec {keys : List K} (nodup : (keys.map probe.subject).Nodup) (known : HashMap String V) :
    ((probe.pollKeys p keys known).1.map fun change => (change.subject, change.changeType)) =
        (keys.map fun key =>
          (probe.subject key, probe.verdict (known.lookup (probe.subject key)) (p.response key))) ∧
      (∀ key ∈ keys, (probe.pollKeys p keys known).2.lookup (probe.subject key) =
        (probe.answered p key).or (known.lookup (probe.subject key))) ∧
      ∀ subject, subject ∉ keys.map probe.subject →
        (probe.pollKeys p keys known).2.lookup subject = known.lookup subject := by
  induction keys generalizing known with
  | nil => exact ⟨rfl, fun _ h => absurd h List.not_mem_nil, fun _ _ => rfl⟩
  | cons key keys ih =>
    obtain ⟨first, later⟩ := List.nodup_cons.1 nodup
    obtain ⟨reported, own, others⟩ := @pollKey_spec K V probe p known key
    obtain ⟨reported', own', others'⟩ := ih later (probe.pollKey p known key).2
    have apart : ∀ key' ∈ keys, probe.subject key' ≠ probe.subject key := fun key' mem same =>
      first (same ▸ List.mem_map_of_mem mem)
    refine ⟨?_, ?_, fun subject outside => ?_⟩
    · rw [pollKeys, List.map_cons, List.map_cons, reported', reported]
      refine congrArg (List.cons _) (List.map_congr_left fun key' mem => ?_)
      rw [others _ (apart key' mem)]
    · intro key' mem
      rw [pollKeys]
      rcases List.mem_cons.1 mem with rfl | mem
      · exact (others' _ first).trans own
      · rw [own' key' mem, others _ (apart key' mem)]
    · rw [List.map_cons, List.mem_cons, not_or] at outside
      rw [pollKeys, others' _ outside.2, others _ outside.1]

theorem lastRead_concat (polls : List (Poll K)) (p : Poll K) (key : K) :
    probe.lastRead (polls ++ [p]) key = (probe.answered p key).or (probe.lastRead polls key) := by
  rw [lastRead, lastRead, List.filterMap_append]
  cases answer : probe.answered p key with
  | none =>
    rw [List.filterMap_cons_none (f := fun p => probe.answered p key) answer, List.filterMap_nil,
      List.append_nil, Option.none_or]
  | some value =>
    rw [List.filterMap_cons_some (f := fun p => probe.answered p key) answer, List.filterMap_nil,
      List.getLast?_concat, Option.some_or]

/-- After some polls the watcher keeps, for each key, the last value that was read. -/
theorem lookup_run {keys : List K} (nodup : (keys.map probe.subject).Nodup) {polls : List (Poll K)}
    (same : ∀ p ∈ polls, p.keys.Perm keys) (known : HashMap String V) {key : K} (mem : key ∈ keys) :
    (probe.run polls known).lookup (probe.subject key) =
      (probe.lastRead polls key).or (known.lookup (probe.subject key)) := by
  induction polls using List.reverseRecOn with
  | nil => rfl
  | append_singleton polls p ih =>
    have perm := same p (List.mem_append_right _ List.mem_cons_self)
    have earlier := ih fun q hq => same q (List.mem_append_left _ hq)
    have step : probe.run (polls ++ [p]) known = (probe.poll p (probe.run polls known)).2 := by
      rw [run, List.foldl_append]
      rfl
    rw [step, poll, (pollKeys_spec ((perm.map probe.subject).nodup_iff.2 nodup) _).2.1 key (perm.mem_iff.2 mem),
      earlier, lastRead_concat, Option.or_assoc]

/-- Each poll reports, for every key, how its answer compares with the last one before it. -/
theorem poll_run {keys : List K} (nodup : (keys.map probe.subject).Nodup) {polls : List (Poll K)}
    (same : ∀ p ∈ polls, p.keys.Perm keys) (known : HashMap String V) {p : Poll K} (perm : p.keys.Perm keys) :
    ((probe.poll p (probe.run polls known)).1.map fun change => (change.subject, change.changeType)) =
      p.keys.map fun key => (probe.subject key,
        probe.verdict ((probe.lastRead polls key).or (known.lookup (probe.subject key))) (p.response key)) := by
  rw [poll, (pollKeys_spec ((perm.map probe.subject).nodup_iff.2 nodup) _).1]
  refine List.map_congr_left fun key mem => ?_
  rw [lookup_run nodup same known (perm.mem_iff.1 mem)]

end Probe

end Compare

/-- `resp.get("status_code").and_then(|v| v.as_u64()).unwrap_or(0)`. -/
def statusCode (resp : Json) : ℕ := ((resp.get "status_code").bind Json.asU64).getD 0

/-- What the API watcher keeps for an endpoint: the text of its status before the first answer, and then the status
code. -/
inductive EndpointState where
  | unpolled (status : String)
  | polled (statusCode : ℕ)
  deriving DecidableEq, Repr

/-- The API watcher. -/
def apiWatcher : Probe String EndpointState where
  watcherKind := "api"
  subject url := url
  read resp := .polled (statusCode resp)
  changeType prev current := if prev = some current then "no_change" else "changed"
  currentState url _ resp := .obj [("reachable", .bool (statusCode resp = 200)),
    ("status_code", .int (statusCode resp)), ("url", .str url)]
  failure url e := .obj [("error", .str e), ("url", .str url)]

/-- The endpoints after `init`, from the labels of the `monitored_api` objects. -/
def apiEndpoints (labels : List String) : HashMap String EndpointState :=
  let existing := labels.foldl (fun endpoints label =>
    if label ∈ endpoints then endpoints else endpoints.insert label (.unpolled "unknown")) ∅
  if existing.keys = ∅ then
    (existing.insert "https://api.github.com" (.unpolled "pending")).insert "https://httpbin.org/get"
      (.unpolled "pending")
  else existing

/-- The status code is one of an answer. -/
def reachable (resp : Json) : Bool := 0 < statusCode resp && statusCode resp < 600

/-- The onion watcher. -/
def onionWatcher : Probe String String where
  watcherKind := "onion"
  subject address := address
  read resp := if reachable resp then "online" else "offline"
  changeType prev current := if prev ≠ some current then "status_changed" else "no_change"
  currentState address _ resp := .obj [("address", .str address), ("reachable", .bool (reachable resp)),
    ("status", .str (if reachable resp then "online" else "offline")), ("status_code", .int (statusCode resp))]
  failure address e := .obj [("address", .str address), ("error", .str e)]

/-- The addresses after `init`, from the labels of the `monitored_onion` objects. -/
def onionTracked (labels : List String) : HashMap String String :=
  labels.foldl (fun tracked label => if label ∈ tracked then tracked else tracked.insert label "active") ∅

/-- The version in the answer of a registry. -/
def packageVersion (resp : Json) : String :=
  (((resp.get "version").or ((resp.get "crate").bind (·.get "max_version"))).or
    ((resp.get "info").bind (·.get "version"))).bind Json.asStr |>.getD "unknown"

/-- The ecosystem and the name of a package. -/
def packageKey (package : String × String) : String := package.1 ++ ":" ++ package.2

/-- The package watcher. -/
def packageWatcher : Probe (String × String) String where
  watcherKind := "package"
  subject := packageKey
  read := packageVersion
  changeType
    | some prev, version => if prev ≠ version then "version_changed" else "no_change"
    | none, _ => "initial"
  currentState package prev resp := .obj [("ecosystem", .str package.1), ("package", .str package.2),
    ("previous_version", (prev.map .str).getD .null), ("version", .str (packageVersion resp))]
  failure package e := .obj [("ecosystem", .str package.1), ("error", .str e), ("package", .str package.2)]

/-- The packages after `init`, from the ecosystems and labels of the `monitored_package` objects. -/
def packageTracked (found : List (String × String)) : List (String × String) :=
  found.foldl (fun tracked package => if package ∈ tracked then tracked else tracked ++ [package])
    [("cargo", "serde"), ("cargo", "tokio"), ("npm", "react"), ("pypi", "requests")]

/-- The packages that are polled: those of an ecosystem with a registry. -/
def packagesPolled (tracked : List (String × String)) : List (String × String) :=
  tracked.filter fun package => package.1 = "npm" ∨ package.1 = "cargo" ∨ package.1 = "pypi"

/-! What the three watchers report, in every poll of every run. -/

/-- All values of a map have a property. -/
def AllValues {V : Type} (P : V → Prop) (m : HashMap String V) : Prop :=
  ∀ key value, m.lookup key = some value → P value

theorem allValues_empty {V : Type} {P : V → Prop} : AllValues P ∅ := by
  intro key value found
  rw [Finmap.lookup_empty] at found
  cases found

/-- The labels of some objects, each added with a first value. -/
theorem allValues_foldl {V : Type} {P : V → Prop} {first : V} (holds : P first) (labels : List String) :
    AllValues P (labels.foldl (fun m label => if label ∈ m then m else m.insert label first) ∅) := by
  refine List.foldlRecOn (motive := AllValues P) labels _ allValues_empty fun m h label _ => ?_
  split_ifs
  · exact h
  · exact FiniteMap.forall_insert h holds

theorem unpolled_apiEndpoints (labels : List String) :
    AllValues (fun status => ∃ text, status = .unpolled text) (apiEndpoints labels) := by
  rw [apiEndpoints]
  have existing := allValues_foldl (P := fun status => ∃ text, status = EndpointState.unpolled text)
    ⟨"unknown", rfl⟩ labels
  split_ifs
  · exact FiniteMap.forall_insert (FiniteMap.forall_insert existing ⟨_, rfl⟩) ⟨_, rfl⟩
  · exact existing

theorem active_onionTracked (labels : List String) :
    AllValues (fun status => status = "active") (onionTracked labels) :=
  allValues_foldl (P := fun status => status = "active") rfl labels

theorem nodup_packageTracked (found : List (String × String)) : (packageTracked found).Nodup := by
  refine List.foldlRecOn (motive := List.Nodup) found _ (by decide) fun tracked nodup package _ => ?_
  split_ifs with known
  · exact nodup
  · refine List.nodup_append.2 ⟨nodup, List.nodup_singleton _, fun a ha b hb same => ?_⟩
    rw [List.mem_singleton.1 hb] at same
    exact known (same ▸ ha)

/-- No two packages that are polled have the same key. -/
theorem packageKey_inj {a b : String × String} (ha : a.1 = "npm" ∨ a.1 = "cargo" ∨ a.1 = "pypi")
    (hb : b.1 = "npm" ∨ b.1 = "cargo" ∨ b.1 = "pypi") (same : packageKey a = packageKey b) : a = b := by
  obtain ⟨a, name⟩ := a
  obtain ⟨b, name'⟩ := b
  have first := congrArg (fun s => s.toList[0]?) same
  have cancel : ∀ eco : String, eco ++ ":" ++ name = eco ++ ":" ++ name' → name = name' := fun eco h =>
    (String.append_right_inj _).1 h
  simp only [packageKey, String.toList_append] at ha hb same first
  rcases ha with rfl | rfl | rfl <;> rcases hb with rfl | rfl | rfl
  all_goals first
    | rw [cancel _ same]
    | exact absurd first (by simp)

/-- What the API watcher reports, by the last value that was read. -/
def apiVerdict (last : Option EndpointState) : Except String Json → String
  | .ok resp => if last = some (.polled (statusCode resp)) then "no_change" else "changed"
  | .error _ => "poll_failed"

/-- What is reported of an onion. -/
def onionVerdict (last : Option String) : Except String Json → String
  | .ok resp => if last = some (if reachable resp then "online" else "offline") then "no_change" else "status_changed"
  | .error _ => "poll_failed"

/-- What is reported of a package. -/
def packageVerdict (last : Option String) : Except String Json → String
  | .ok resp =>
    match last with
    | some version => if version = packageVersion resp then "no_change" else "version_changed"
    | none => "initial"
  | .error _ => "poll_failed"

/-- The first status of an endpoint is like no answer. -/
theorem api_verdict (last : Option EndpointState) (labels : List String) (url : String)
    (response : Except String Json) :
    apiWatcher.verdict (last.or ((apiEndpoints labels).lookup url)) response = apiVerdict last response := by
  cases response with
  | error e => rfl
  | ok resp =>
    cases last with
    | some value => rfl
    | none =>
      refine if_neg fun same => ?_
      obtain ⟨text, unpolled⟩ := unpolled_apiEndpoints labels url _ same
      cases unpolled

theorem onion_verdict (last : Option String) (labels : List String) (address : String)
    (response : Except String Json) :
    onionWatcher.verdict (last.or ((onionTracked labels).lookup address)) response = onionVerdict last response := by
  cases response with
  | error e => rfl
  | ok resp =>
    cases last with
    | some value => exact ite_not _ _ _
    | none =>
      refine if_pos fun same => ?_
      have active := active_onionTracked labels address _ same
      cases up : reachable resp <;> simp [onionWatcher, up] at active

theorem package_verdict (last : Option String) (package : String × String) (response : Except String Json) :
    packageWatcher.verdict (last.or ((∅ : HashMap String String).lookup (packageKey package))) response =
      packageVerdict last response := by
  rw [Finmap.lookup_empty, Option.or_none]
  cases response with
  | error e => rfl
  | ok resp =>
    cases last with
    | some version => exact ite_not _ _ _
    | none => rfl

/-- **In every run of polls an endpoint is reported unchanged exactly when the last answer before has the same
status code, an onion exactly when it was then as reachable as now, and a package exactly when it had the same
version**; a poll that fails is reported as such and is not remembered. -/
theorem comparisons (labels : List String) :
    (∀ (polls : List (Poll String)) (p : Poll String),
      (∀ q ∈ p :: polls, (q.keys : Multiset String) = (apiEndpoints labels).keys.val) →
      ((apiWatcher.poll p (apiWatcher.run polls (apiEndpoints labels))).1.map fun c => (c.subject, c.changeType)) =
        p.keys.map fun url => (url, apiVerdict (apiWatcher.lastRead polls url) (p.response url))) ∧
    (∀ (polls : List (Poll String)) (p : Poll String),
      (∀ q ∈ p :: polls, (q.keys : Multiset String) = (onionTracked labels).keys.val) →
      ((onionWatcher.poll p (onionWatcher.run polls (onionTracked labels))).1.map fun c =>
        (c.subject, c.changeType)) =
        p.keys.map fun address =>
          (address, onionVerdict (onionWatcher.lastRead polls address) (p.response address))) ∧
    ∀ (found : List (String × String)) (polls : List (Poll (String × String))) (p : Poll (String × String)),
      (∀ q ∈ p :: polls, q.keys = packagesPolled (packageTracked found)) →
      ((packageWatcher.poll p (packageWatcher.run polls ∅)).1.map fun c => (c.subject, c.changeType)) =
        p.keys.map fun package => (packageKey package,
          packageVerdict (packageWatcher.lastRead polls package) (p.response package)) := by
  refine ⟨fun polls p keys => ?_, fun polls p keys => ?_, fun found polls p keys => ?_⟩
  · obtain ⟨last, earlier⟩ := List.forall_mem_cons.1 keys
    have nodup : (p.keys.map apiWatcher.subject).Nodup := by
      rw [show apiWatcher.subject = id from rfl, List.map_id, ← Multiset.coe_nodup, last]
      exact (apiEndpoints labels).keys.nodup
    rw [Probe.poll_run nodup (fun q hq => Multiset.coe_eq_coe.1 ((earlier q hq).trans last.symm)) _ (.refl _)]
    exact List.map_congr_left fun url _ => congrArg (Prod.mk url) (api_verdict _ labels url _)
  · obtain ⟨last, earlier⟩ := List.forall_mem_cons.1 keys
    have nodup : (p.keys.map onionWatcher.subject).Nodup := by
      rw [show onionWatcher.subject = id from rfl, List.map_id, ← Multiset.coe_nodup, last]
      exact (onionTracked labels).keys.nodup
    rw [Probe.poll_run nodup (fun q hq => Multiset.coe_eq_coe.1 ((earlier q hq).trans last.symm)) _ (.refl _)]
    exact List.map_congr_left fun address _ => congrArg (Prod.mk address) (onion_verdict _ labels address _)
  · obtain ⟨last, earlier⟩ := List.forall_mem_cons.1 keys
    have nodup : (p.keys.map packageWatcher.subject).Nodup := by
      rw [last]
      refine List.Nodup.map_on (fun a ha b hb same => ?_) ((nodup_packageTracked found).filter _)
      exact packageKey_inj (by simpa using (List.mem_filter.1 ha).2) (by simpa using (List.mem_filter.1 hb).2) same
    rw [Probe.poll_run nodup (fun q hq => ((earlier q hq).trans last.symm) ▸ .refl _) _ (.refl _)]
    exact List.map_congr_left fun package _ => congrArg (Prod.mk (packageKey package)) (package_verdict _ package _)

/-- The polls of one onion that answers with a status code, or not at all. -/
def onionPoll (status : Option ℤ) : Poll String where
  keys := ["a.onion"]
  response _ :=
    match status with
    | some code => .ok (.obj [("status_code", .int code)])
    | none => .error "timeout"
  draw _ := ⟨.ofNat 1, 0⟩

/-- A failed poll between two answers goes unnoticed. -/
theorem comparisons_onion :
    ((onionWatcher.poll (onionPoll (some 301)) (onionWatcher.run [onionPoll (some 200), onionPoll none]
      (onionTracked ["a.onion"]))).1.map fun c => (c.subject, c.changeType)) = [("a.onion", "no_change")] := by
  refine ((comparisons ["a.onion"]).2.1 [onionPoll (some 200), onionPoll none] (onionPoll (some 301)) ?_).trans
    (by decide)
  intro q mem
  have keys : q.keys = ["a.onion"] := by
    rcases List.mem_cons.1 mem with rfl | mem
    · rfl
    · rcases List.mem_cons.1 mem with rfl | mem
      · rfl
      · exact List.mem_singleton.1 mem ▸ rfl
  rw [keys]
  decide

end TORdex.Monitoring
