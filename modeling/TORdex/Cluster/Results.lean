import Mathlib.Logic.Function.Basic
import TORdex.Cluster.Task
import TORdex.Lib.Runs

/-!
# Collecting results

Calls of `publish_result` and `collect_results` run side by side, and each Redis command is a step.  A call
reads the oldest entries of the result stream and then deletes those whose results it has taken, one by one;
in between another call may read them too.
-/

namespace TORdex.Cluster

open LogStream

/-- A result, with the entry of the stream that it was read from. -/
abbrev Taken := StreamEntry Fields × TaskResult

/-- A call of `collect_results` between two of its commands. -/
inductive Collecting where
  | reading (count : ℕ)
  | handling (left : List (StreamEntry Fields)) (results : List Taken)
  | returned (results : List Taken)

namespace Collecting

/-- The entries that have been read and not handled. -/
def left : Collecting → List (StreamEntry Fields)
  | handling left _ => left
  | _ => []

/-- The results that have been taken. -/
def results : Collecting → List Taken
  | reading _ => []
  | handling _ results | returned results => results

end Collecting

/-- The result stream, the calls, and all results that were published, each with its entry. -/
structure Results where
  stream : Stream Fields
  calls : ℕ → Option Collecting
  published : List Taken

/-- A Redis command of `publish_result` or `collect_results`, the start of a call, or an entry of another
writer. -/
inductive ResultAction where
  | publish (result : TaskResult) (gap : ℕ)
  | write (fields : Fields) (gap : ℕ)
  | collect (call count : ℕ)
  | read (call : ℕ)
  | handle (call : ℕ)

namespace Results

variable {Payload : Type} (serde : Serde Payload)

/-- The result in an entry, if there is one that can be read. -/
def resultOf (e : StreamEntry Fields) : Option TaskResult :=
  (bulkField "result" e.fields).bind fun bytes => (serde.resultFromStr bytes).toOption

/-- Before the first command. -/
def start : Results := ⟨.empty, fun _ => none, []⟩

/-- A call comes to a phase. -/
def setCall (s : Results) (call : ℕ) (phase : Collecting) : Results :=
  { s with calls := Function.update s.calls call (some phase) }

/-- `XADD`. -/
def publish (s : Results) (result : TaskResult) (gap : ℕ) : Results :=
  match serde.resultToString result with
  | .error _ => s
  | .ok bytes =>
    let fields := Finmap.singleton "result" (RedisValue.bulkString bytes)
    { s with
      stream := s.stream.add gap fields
      published := s.published ++ [(⟨s.stream.lastId + 1 + gap, fields⟩, result)] }

/-- An entry that holds no result. -/
def write (s : Results) (fields : Fields) (gap : ℕ) : Results :=
  if (resultOf serde ⟨0, fields⟩).isNone then { s with stream := s.stream.add gap fields } else s

/-- The loop of `collect_results` on one entry, with `XDEL`; after the last one it returns. -/
def handle (s : Results) (call : ℕ) : Results :=
  match s.calls call with
  | some (.handling (e :: left) results) =>
    match resultOf serde e with
    | none => s.setCall call (.handling left results)
    | some result => { s with stream := s.stream.delete e.id }.setCall call
        (.handling left (results ++ [(e, result)]))
  | some (.handling [] results) => s.setCall call (.returned results)
  | _ => s

/-- The effect of an action.  A call reads from the head of the stream. -/
def step (s : Results) : ResultAction → Results
  | .publish result gap => s.publish serde result gap
  | .write fields gap => s.write serde fields gap
  | .collect call count => if (s.calls call).isNone then s.setCall call (.reading count) else s
  | .read call =>
    match s.calls call with
    | some (.reading count) => s.setCall call (.handling (s.stream.read 0 count) [])
    | _ => s
  | .handle call => s.handle serde call

/-- What a call has read and not handled. -/
def leftOf (s : Results) (call : ℕ) : List (StreamEntry Fields) := (s.calls call).elim [] Collecting.left

/-- What a call has taken. -/
def resultsOf (s : Results) (call : ℕ) : List Taken := (s.calls call).elim [] Collecting.results

/-- A call reads no result that another call has read and not deleted yet. -/
def Exclusive (s : Results) : ResultAction → Prop
  | .read call => ∀ count, s.calls call = some (.reading count) → ∀ e ∈ s.stream.read 0 count,
    (resultOf serde e).isSome → ∀ other, e ∉ s.leftOf other
  | _ => True

/-- The entry gives a result for the task of the published one. -/
def Reads (t : Taken) : Prop := ∃ result, resultOf serde t.1 = some result ∧ result.taskId = t.2.taskId

/-- What the runs keep. -/
structure Kept (s : Results) : Prop where
  /-- Entries that are read and hold a result are in the stream, and only one call has them. -/
  held : ∀ call, ∀ e ∈ s.leftOf call, (resultOf serde e).isSome → e ∈ s.stream.entries
  apart : ∀ call, ∀ e ∈ s.leftOf call, (resultOf serde e).isSome → ∀ other ≠ call, e ∉ s.leftOf other
  rising : ∀ call, (s.leftOf call).Pairwise fun a b => a.id < b.id
  /-- Results that are taken are gone from the stream, and only one call has them. -/
  gone : ∀ call, ∀ t ∈ s.resultsOf call, t.1 ∉ s.stream.entries ∧ t.1.id ≤ s.stream.lastId
  once : ∀ call, ∀ t ∈ s.resultsOf call, ∀ other ≠ call, t.1 ∉ (s.resultsOf other).map Prod.fst
  nodup : ∀ call, ((s.resultsOf call).map Prod.fst).Nodup
  taken : ∀ call, ∀ t ∈ s.resultsOf call, resultOf serde t.1 = some t.2
  /-- The entry of a published result is in the stream or taken; and no other entry holds a result. -/
  somewhere : ∀ t ∈ s.published, t.1 ∈ s.stream.entries ∨ ∃ call, t.1 ∈ (s.resultsOf call).map Prod.fst
  only : ∀ e ∈ s.stream.entries, (resultOf serde e).isSome → e ∈ s.published.map Prod.fst

variable {serde} {s : Results}

theorem leftOf_setCall (call : ℕ) (phase : Collecting) (other : ℕ) :
    (s.setCall call phase).leftOf other = if other = call then phase.left else s.leftOf other := by
  simp only [leftOf, setCall, Function.update_apply]
  split_ifs <;> rfl

theorem resultsOf_setCall (call : ℕ) (phase : Collecting) (other : ℕ) :
    (s.setCall call phase).resultsOf other = if other = call then phase.results else s.resultsOf other := by
  simp only [resultsOf, setCall, Function.update_apply]
  split_ifs <;> rfl

theorem leftOf_setCall_sublist {call : ℕ} {phase : Collecting} (left : phase.left.Sublist (s.leftOf call))
    (other : ℕ) :
    ((s.setCall call phase).leftOf other).Sublist (s.leftOf other) := by
  rw [leftOf_setCall]
  split_ifs with h
  · exact h ▸ left
  · exact List.Sublist.refl _

theorem resultsOf_setCall_eq {call : ℕ} {phase : Collecting} (results : phase.results = s.resultsOf call)
    (other : ℕ) :
    (s.setCall call phase).resultsOf other = s.resultsOf other := by
  rw [resultsOf_setCall]
  split_ifs with h
  · rw [results, h]
  · rfl

theorem kept_start : Kept serde start where
  held _ _ h := by simp [leftOf, start] at h
  apart _ _ h := by simp [leftOf, start] at h
  rising _ := List.Pairwise.nil
  gone _ _ h := by simp [resultsOf, start] at h
  once _ _ h := by simp [resultsOf, start] at h
  nodup _ := List.nodup_nil
  taken _ _ h := by simp [resultsOf, start] at h
  somewhere _ h := by simp [start] at h
  only _ h := by simp [start, Stream.empty] at h

/-- The stream has another entry. -/
theorem Kept.add (kept : Kept serde s) {fields : Fields} {gap : ℕ} {published : List Taken}
    (old : ∀ t ∈ s.published, t ∈ published)
    (new : ∀ t ∈ published, t ∈ s.published ∨ t.1 = ⟨s.stream.lastId + 1 + gap, fields⟩)
    (only : (resultOf serde ⟨s.stream.lastId + 1 + gap, fields⟩).isSome →
      ⟨s.stream.lastId + 1 + gap, fields⟩ ∈ published.map Prod.fst) :
    Kept serde { s with stream := s.stream.add gap fields, published := published } where
  held call e h some := List.mem_append_left _ (kept.held call e h some)
  apart := kept.apart
  rising := kept.rising
  gone call t h := by
    obtain ⟨out, le⟩ := kept.gone call t h
    refine ⟨fun mem => ?_, le.trans (by show _ ≤ _ + 1 + gap; omega)⟩
    rcases List.mem_append.1 mem with mem | mem
    · exact out mem
    · rw [List.mem_singleton.1 mem] at le
      exact absurd le (by show ¬ _ + 1 + gap ≤ _; omega)
  once := kept.once
  nodup := kept.nodup
  taken := kept.taken
  somewhere t h := by
    rcases new t h with h | eq
    · exact (kept.somewhere t h).imp_left (List.mem_append_left _)
    · exact .inl (eq ▸ List.mem_append_right _ (List.mem_singleton_self _))
  only e h some := by
    rcases List.mem_append.1 h with h | h
    · exact List.map_subset _ old (kept.only e h some)
    · rw [List.mem_singleton] at h
      subst h
      exact only some

theorem Kept.publish (kept : Kept serde s) (result : TaskResult) (gap : ℕ) :
    Kept serde (s.publish serde result gap) := by
  unfold Results.publish
  split
  · exact kept
  · next bytes =>
    refine kept.add (fun t h => List.mem_append_left _ h) (fun t h => ?_) fun _ => ?_
    · rcases List.mem_append.1 h with h | h
      · exact .inl h
      · rw [List.mem_singleton] at h
        exact .inr (h ▸ rfl)
    · rw [List.map_append]
      exact List.mem_append_right _ (List.mem_singleton_self _)

theorem Kept.write (kept : Kept serde s) (fields : Fields) (gap : ℕ) :
    Kept serde (s.write serde fields gap) := by
  unfold Results.write
  split_ifs with none
  · refine kept.add (fun t h => h) (fun t h => .inl h) fun some => ?_
    have same : resultOf serde ⟨s.stream.lastId + 1 + gap, fields⟩ = resultOf serde ⟨0, fields⟩ := rfl
    rw [same, Option.isNone_iff_eq_none.1 none] at some
    cases some
  · exact kept

/-- A call comes to a phase in which it has nothing new. -/
theorem Kept.setCall (kept : Kept serde s) {call : ℕ} {phase : Collecting}
    (left : phase.left.Sublist (s.leftOf call)) (results : phase.results = s.resultsOf call) :
    Kept serde (s.setCall call phase) := by
  have sub := leftOf_setCall_sublist left
  have same := resultsOf_setCall_eq results
  refine ⟨fun c e h => kept.held c e ((sub c).subset h), fun c e h some other ne mem => ?_,
    fun c => (kept.rising c).sublist (sub c), ?_, ?_, ?_, ?_, ?_, kept.only⟩
  · exact kept.apart c e ((sub c).subset h) some other ne ((sub other).subset mem)
  · simp only [same]
    exact kept.gone
  · simp only [same]
    exact kept.once
  · simp only [same]
    exact kept.nodup
  · simp only [same]
    exact kept.taken
  · simp only [same]
    exact kept.somewhere

theorem Kept.read (kept : Kept serde s) {call count : ℕ} (reading : s.calls call = some (.reading count))
    (exclusive : Exclusive serde s (.read call)) :
    Kept serde (s.setCall call (.handling (s.stream.read 0 count) [])) := by
  have none : s.resultsOf call = [] := by rw [resultsOf, reading]; rfl
  have mine := exclusive count reading
  have inStream : ∀ e ∈ s.stream.read 0 count, e ∈ s.stream.entries := fun e h =>
    (s.stream.read_sublist 0 count).subset h
  have same := resultsOf_setCall_eq
    (show (Collecting.handling (s.stream.read 0 count) []).results = _ from none.symm)
  refine ⟨fun c e h some => ?_, fun c e h some other ne mem => ?_, fun c => ?_, ?_, ?_, ?_, ?_, ?_, kept.only⟩
  · rw [leftOf_setCall] at h
    split_ifs at h
    · exact inStream e h
    · exact kept.held c e h some
  · rw [leftOf_setCall] at h mem
    split_ifs at h mem with hc ho ho
    · exact ne (ho.trans hc.symm)
    · exact mine e h some other mem
    · exact mine e mem some c h
    · exact kept.apart c e h some other ne mem
  · rw [leftOf_setCall]
    split_ifs
    · exact s.stream.ordered.sublist (s.stream.read_sublist 0 count)
    · exact kept.rising c
  · simp only [same]
    exact kept.gone
  · simp only [same]
    exact kept.once
  · simp only [same]
    exact kept.nodup
  · simp only [same]
    exact kept.taken
  · simp only [same]
    exact kept.somewhere

/-- An entry of the stream has not been taken. -/
theorem Kept.notMem_taken (kept : Kept serde s) {e : StreamEntry Fields} (present : e ∈ s.stream.entries)
    (call : ℕ) : e ∉ (s.resultsOf call).map Prod.fst := by
  intro h
  obtain ⟨t, ht, same⟩ := List.mem_map.1 h
  exact (kept.gone call t ht).1 (same ▸ present)

/-- A result goes to the results of a call, and its entry, which no call has any more, is deleted. -/
theorem Kept.record (kept : Kept serde s) {call : ℕ} {e : StreamEntry Fields}
    {left : List (StreamEntry Fields)} {results : List Taken} {result : TaskResult}
    (handling : s.calls call = some (.handling left results))
    (present : e ∈ s.stream.entries) (unheld : ∀ c, e ∉ s.leftOf c) (some : resultOf serde e = some result) :
    Kept serde ({ s with stream := s.stream.delete e.id }.setCall call
      (.handling left (results ++ [(e, result)]))) := by
  set t : Results := { s with stream := s.stream.delete e.id } with ht
  have hleft : s.leftOf call = left := by rw [leftOf, handling]; rfl
  have hresults : s.resultsOf call = results := by rw [resultsOf, handling]; rfl
  -- whatever else is held is another entry
  have other {d : StreamEntry Fields} (mem : d ∈ s.stream.entries) (ne : d ≠ e) : d ∈ t.stream.entries :=
    Stream.mem_delete.2 ⟨mem, fun same => ne (s.stream.eq_of_id mem present same)⟩
  have taken (c : ℕ) : (t.setCall call (.handling left (results ++ [(e, result)]))).resultsOf c =
      if c = call then results ++ [(e, result)] else s.resultsOf c := resultsOf_setCall _ _ _
  have mem_taken {c : ℕ} {u : Taken} :
      u ∈ (t.setCall call (.handling left (results ++ [(e, result)]))).resultsOf c ↔
        u ∈ s.resultsOf c ∨ c = call ∧ u = (e, result) := by
    rw [taken]
    split_ifs with hc
    · rw [List.mem_append, List.mem_singleton, hc, hresults, and_iff_right rfl]
    · rw [or_iff_left fun h => hc h.1]
  have sub (c : ℕ) :
      ((t.setCall call (.handling left (results ++ [(e, result)]))).leftOf c).Sublist (s.leftOf c) :=
    leftOf_setCall_sublist (s := t) (hleft ▸ List.Sublist.refl left) c
  constructor
  · intro c d h hd
    exact other (kept.held c d ((sub c).subset h) hd) fun same => unheld c (same ▸ (sub c).subset h)
  · intro c d h hd o ne mem
    exact kept.apart c d ((sub c).subset h) hd o ne ((sub o).subset mem)
  · exact fun c => (kept.rising c).sublist (sub c)
  · intro c u h
    rcases mem_taken.1 h with h | ⟨-, rfl⟩
    · exact (kept.gone c u h).imp_left fun out mem => out (Stream.mem_delete.1 mem).1
    · exact ⟨fun mem => (Stream.mem_delete.1 mem).2 rfl, s.stream.bounded e present⟩
  · intro c u h o ne mem
    obtain ⟨v, hv, same⟩ := List.mem_map.1 mem
    rcases mem_taken.1 h with old | ⟨rfl, rfl⟩ <;> rcases mem_taken.1 hv with old' | ⟨rfl, rfl⟩
    · exact kept.once c u old o ne (same ▸ List.mem_map_of_mem old')
    · exact kept.notMem_taken present c (List.mem_map.2 ⟨u, old, same.symm⟩)
    · exact kept.notMem_taken present o (List.mem_map.2 ⟨v, old', same⟩)
    · exact ne rfl
  · intro c
    rw [taken]
    split_ifs
    · rw [List.map_append, ← hresults]
      refine List.nodup_append.2 ⟨kept.nodup call, List.nodup_singleton _, fun u hu v hv same => ?_⟩
      rw [same, List.mem_singleton.1 hv] at hu
      exact kept.notMem_taken present call hu
    · exact kept.nodup c
  · intro c u h
    rcases mem_taken.1 h with h | ⟨-, rfl⟩
    · exact kept.taken c u h
    · exact some
  · intro u h
    by_cases same : u.1 = e
    · exact .inr ⟨call, List.mem_map.2 ⟨(e, result), mem_taken.2 (.inr ⟨rfl, rfl⟩), same.symm⟩⟩
    · refine (kept.somewhere u h).imp (fun mem => other mem same) fun ⟨c, mem⟩ => ⟨c, ?_⟩
      obtain ⟨v, hv, eq⟩ := List.mem_map.1 mem
      exact eq ▸ List.mem_map_of_mem (mem_taken.2 (.inl hv))
  · intro d h hd
    exact kept.only d (Stream.mem_delete.1 h).1 hd

/-- A call takes a result and deletes its entry. -/
theorem Kept.take (kept : Kept serde s) {call : ℕ} {e : StreamEntry Fields} {left : List (StreamEntry Fields)}
    {results : List Taken} {result : TaskResult} (handling : s.calls call =
      some (.handling (e :: left) results))
    (some : resultOf serde e = some result) :
    Kept serde ({ s with stream := s.stream.delete e.id }.setCall call
      (.handling left (results ++ [(e, result)]))) := by
  have hleft : s.leftOf call = e :: left := by rw [leftOf, handling]; rfl
  have hresults : s.resultsOf call = results := by rw [resultsOf, handling]; rfl
  have here : e ∈ s.leftOf call := hleft ▸ List.mem_cons_self
  have present : e ∈ s.stream.entries := kept.held call e here (some ▸ rfl)
  -- first the call gives the entry up, and then no call has it
  set t := s.setCall call (.handling left results) with ht
  have passed : Kept serde t := kept.setCall (hleft ▸ List.sublist_cons_self e left) hresults.symm
  have unheld : ∀ c, e ∉ t.leftOf c := by
    intro c h
    rw [leftOf_setCall] at h
    split_ifs at h with hc
    · have later := kept.rising call
      rw [hleft] at later
      exact lt_irrefl _ ((List.pairwise_cons.1 later).1 e h)
    · exact kept.apart call e here (some ▸ rfl) c hc h
  have at_call : t.calls call = Option.some (.handling left results) := Function.update_self _ _ _
  have recorded := passed.record at_call present unheld some
  simp only [ht, Results.setCall, Function.update_idem] at recorded
  exact recorded

theorem Kept.handle (kept : Kept serde s) (call : ℕ) : Kept serde (s.handle serde call) := by
  unfold Results.handle
  split
  · next e left results handling =>
    split
    · refine kept.setCall ?_ ?_
      · rw [leftOf, handling]
        exact List.sublist_cons_self _ _
      · rw [resultsOf, handling]
        rfl
    · next result some => exact kept.take handling some
  · next results handling =>
    refine kept.setCall ?_ ?_
    · exact List.nil_sublist _
    · rw [resultsOf, handling]
      rfl
  · exact kept

theorem Kept.step (kept : Kept serde s) {a : ResultAction}
    (exclusive : Exclusive serde s a) : Kept serde (s.step serde a) := by
  cases a with
  | publish result gap => exact kept.publish result gap
  | write fields gap => exact kept.write fields gap
  | collect call count =>
    rw [Results.step]
    split_ifs with none
    · refine kept.setCall (List.nil_sublist _) ?_
      rw [resultsOf, Option.isNone_iff_eq_none.1 none]
      rfl
    · exact kept
  | read call =>
    rw [Results.step]
    split
    · next count reading => exact kept.read reading exclusive
    · exact kept
  | handle call => exact kept.handle call

end Results

end TORdex.Cluster
