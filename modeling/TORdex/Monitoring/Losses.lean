import Mathlib.Data.List.Perm.Subperm
import TORdex.Monitoring.Engine

/-!
# Changes that a pass loses

`attempts` is what a pass does when nothing stops it.  The background loop does exactly that; `poll_due` ends
after the first emission that fails, with the changes and the due watchers that come later.
-/

namespace TORdex.Monitoring

variable {W : Type} (host : Host W)

/-! ## What the host answers -/

/-- The emissions of some changes, one after the other. -/
def emissions : List ChangeEvent → W → List Step × W
  | [], w => ([], w)
  | change :: changes, w =>
    let emitted := emitChange host change w
    let later := emissions changes emitted.2
    (.emitted change emitted.1 :: later.1, later.2)

/-- The polls of some watchers with the emissions of their changes. -/
def attempts : List ℕ → W → List Step
  | [], _ => []
  | idx :: due, w =>
    let polled := host.poll idx w
    let emitted := emissions host (changesOf polled.1) polled.2
    .polled idx polled.1 :: (emitted.1 ++ attempts due emitted.2)

/-- An emission that failed. -/
def Step.fails : Step → Bool
  | .emitted _ (.error _) => true
  | _ => false

/-- The steps up to the first emission that fails. -/
def untilFailure : List Step → List Step
  | [] => []
  | step :: steps => if step.fails then [step] else step :: untilFailure steps

theorem untilFailure_append (a b : List Step) :
    untilFailure (a ++ b) = if a.any Step.fails then untilFailure a else a ++ untilFailure b := by
  induction a with
  | nil => rfl
  | cons step a ih =>
    simp only [List.cons_append, untilFailure, ih, List.any_cons]
    by_cases here : step.fails
    · simp [here]
    · by_cases later : a.any Step.fails <;> simp [here, later]

theorem untilFailure_of_not_any {steps : List Step} (h : ¬steps.any Step.fails) :
    untilFailure steps = steps := by
  have whole := untilFailure_append steps []
  rwa [if_neg h, List.append_nil, untilFailure, List.append_nil] at whole

theorem untilFailure_eq_self {steps : List Step} (h : ∀ step ∈ steps.dropLast, ¬step.fails) :
    untilFailure steps = steps := by
  induction steps with
  | nil => rfl
  | cons step steps ih =>
    cases steps with
    | nil => simp [untilFailure]
    | cons next steps =>
      have here : ¬step.fails := h step (by simp)
      rw [untilFailure, if_neg here, ih fun s hs => h s (by simp [hs])]

/-- A failure with steps after it is the end of a part of the steps. -/
theorem untilFailure_eq_of_fails {steps : List Step} (h : ∃ step ∈ steps.dropLast, step.fails) :
    ∃ rest, rest ≠ [] ∧ steps = untilFailure steps ++ rest := by
  induction steps with
  | nil => simp at h
  | cons step steps ih =>
    cases steps with
    | nil => simp at h
    | cons next steps =>
      cases here : step.fails with
      | true => exact ⟨next :: steps, List.cons_ne_nil _ _, by simp [untilFailure, here]⟩
      | false =>
        obtain ⟨s, hs, fails⟩ := h
        have later : s ∈ (next :: steps).dropLast := by
          rcases List.mem_cons.1 hs with rfl | hs
          · rw [here] at fails
            cases fails
          · exact hs
        obtain ⟨rest, some, split⟩ := ih ⟨s, later, fails⟩
        refine ⟨rest, some, ?_⟩
        rw [untilFailure, if_neg (by rw [here]; exact Bool.false_ne_true), List.cons_append, ← split]

/-! ## The loops take these steps -/

section Loops

variable {host}

attribute [grind =] Pass.emitAll Pass.pollAll emissions attempts untilFailure

/-- The background loop attempts every emission. -/
theorem emitAll_goesOn (changes : List ChangeEvent) (p : Pass W) :
    ∃ total, p.emitAll host false changes =
      (.ok (), ⟨p.watchers, (emissions host changes p.world).2, total,
        p.steps ++ (emissions host changes p.world).1⟩) := by
  induction changes generalizing p with
  | nil => exact ⟨p.total, by simp [Pass.emitAll, emissions]⟩
  | cons change changes ih =>
    obtain ⟨total, ih⟩ := ih ⟨p.watchers, (emitChange host change p.world).2, p.total + 1,
      p.steps ++ [.emitted change (emitChange host change p.world).1]⟩
    refine ⟨total, ?_⟩
    rw [List.append_assoc] at ih
    rcases outcome : emitChange host change p.world with ⟨_ | _, w⟩ <;>
      simpa [Pass.emitAll, Pass.emit, emissions, outcome] using ih

/-- `poll_due` attempts the emissions up to a failure. -/
theorem emitAll_stops (changes : List ChangeEvent) (p : Pass W) :
    let steps := (emissions host changes p.world).1
    let after := p.emitAll host true changes
    after.2.watchers = p.watchers ∧ after.2.steps = p.steps ++ untilFailure steps ∧
      if steps.any Step.fails then ∃ e, after.1 = .error e
      else after.1 = .ok () ∧ after.2.world = (emissions host changes p.world).2 := by
  induction changes generalizing p with
  | nil => simp [Pass.emitAll, emissions, untilFailure]
  | cons change changes ih =>
    have ih := ih ⟨p.watchers, (emitChange host change p.world).2, p.total + 1,
      p.steps ++ [.emitted change (emitChange host change p.world).1]⟩
    rcases outcome : emitChange host change p.world with ⟨_ | _, w⟩
    · simp [Pass.emitAll, Pass.emit, emissions, outcome, untilFailure, Step.fails]
    · simpa [Pass.emitAll, Pass.emit, emissions, outcome, untilFailure, Step.fails] using ih

theorem length_markPolled (watchers : List WatcherEntry) (idx : ℕ) (now : ℕ) :
    (markPolled watchers idx now).length = watchers.length := List.length_modify ..

theorem pollAll_goesOn {now : ℕ → ℕ} {due : List ℕ} {p : Pass W}
    (h : ∀ idx ∈ due, idx < p.watchers.length) :
    (p.pollAll host false now due).2.steps = p.steps ++ attempts host due p.world := by
  induction due generalizing p with
  | nil => simp [Pass.pollAll, attempts]
  | cons idx due ih =>
    obtain ⟨here, later⟩ := List.forall_mem_cons.1 h
    obtain ⟨total, emitted⟩ := @emitAll_goesOn W host (changesOf (host.poll idx p.world).1)
      (p.pollWatcher host idx (now idx)).2
    have emitted' : (p.pollWatcher host idx (now idx)).2.emitAll host false
      (p.pollWatcher host idx (now idx)).1 = _ := emitted
    rw [Pass.pollAll, if_neg (by omega)]
    simp only [emitted']
    rw [ih fun i hi => by
      show i < (markPolled _ _ _).length
      rw [length_markPolled]
      exact later i hi]
    simp [Pass.pollWatcher, attempts]

theorem pollAll_stops {now : ℕ → ℕ} {due : List ℕ} {p : Pass W}
    (h : ∀ idx ∈ due, idx < p.watchers.length) :
    (p.pollAll host true now due).2.steps = p.steps ++ untilFailure (attempts host due p.world) := by
  induction due generalizing p with
  | nil => simp [Pass.pollAll, attempts, untilFailure]
  | cons idx due ih =>
    obtain ⟨here, later⟩ := List.forall_mem_cons.1 h
    obtain ⟨watchers, steps, ends⟩ := @emitAll_stops W host (changesOf (host.poll idx p.world).1)
      (p.pollWatcher host idx (now idx)).2
    rw [Pass.pollAll, if_neg (by omega)]
    simp only [Pass.pollWatcher, attempts, untilFailure, Step.fails, Bool.false_eq_true, if_false] at *
    rw [untilFailure_append]
    rcases outcome : Pass.emitAll host true (changesOf (host.poll idx p.world).1)
      ⟨markPolled p.watchers idx (now idx), (host.poll idx p.world).2, p.total,
        p.steps ++ [.polled idx (host.poll idx p.world).1]⟩ with ⟨result, q⟩
    simp only [outcome] at watchers steps ends ⊢
    split_ifs at ends ⊢ with fails
    · obtain ⟨e, rfl⟩ := ends
      simp [steps]
    · obtain ⟨rfl, world⟩ := ends
      have inside : ∀ i ∈ due, i < q.watchers.length := by
        rw [watchers, length_markPolled]
        exact later
      simp [ih inside, steps, world, untilFailure_of_not_any fails]

end Loops

/-! ## What is lost -/

/-- The watchers that were polled. -/
def polledWatchers (steps : List Step) : List ℕ :=
  steps.filterMap fun
    | .polled idx _ => some idx
    | .emitted .. => none

/-- The changes that the polls returned. -/
def returned (steps : List Step) : List ChangeEvent :=
  steps.flatMap fun
    | .polled _ result => changesOf result
    | .emitted .. => []

/-- The changes whose emission was attempted: each is emitted, or reported as failed. -/
def handled (steps : List Step) : List ChangeEvent :=
  steps.filterMap fun
    | .polled .. => none
    | .emitted change _ => some change

/-- Every due watcher is polled, and every change that a poll returned is emitted or reported as failed. -/
structure LosesNothing (due : List ℕ) (steps : List Step) : Prop where
  polled : due ⊆ polledWatchers steps
  changes : (returned steps).Subperm (handled steps)

section Append

variable (a b : List Step)

theorem polledWatchers_append : polledWatchers (a ++ b) = polledWatchers a ++ polledWatchers b :=
  List.filterMap_append ..

theorem returned_append : returned (a ++ b) = returned a ++ returned b := List.flatMap_append ..

theorem handled_append : handled (a ++ b) = handled a ++ handled b := List.filterMap_append ..

end Append

theorem emissions_steps (changes : List ChangeEvent) (w : W) :
    polledWatchers (emissions host changes w).1 = [] ∧ returned (emissions host changes w).1 = [] ∧
      handled (emissions host changes w).1 = changes := by
  induction changes generalizing w with
  | nil => exact ⟨rfl, rfl, rfl⟩
  | cons change changes ih =>
    obtain ⟨polled, none, all⟩ := ih (emitChange host change w).2
    exact ⟨polled, none, congrArg (change :: ·) all⟩

/-- When nothing stops the pass, each due watcher is polled once and each change is emitted once. -/
theorem attempts_steps (due : List ℕ) (w : W) :
    polledWatchers (attempts host due w) = due ∧
      returned (attempts host due w) = handled (attempts host due w) := by
  induction due generalizing w with
  | nil => exact ⟨rfl, rfl⟩
  | cons idx due ih =>
    let polled := host.poll idx w
    let emitted := emissions host (changesOf polled.1) polled.2
    obtain ⟨none, nothing, all⟩ := emissions_steps host (changesOf polled.1) polled.2
    obtain ⟨others, same⟩ := ih emitted.2
    have split : attempts host (idx :: due) w =
      [.polled idx polled.1] ++ (emitted.1 ++ attempts host due emitted.2) := rfl
    rw [split]
    simp only [polledWatchers_append, returned_append, handled_append, emitted, none, nothing, all, others,
      same]
    exact ⟨rfl, by simp [returned, handled]⟩

theorem attempts_losesNothing (due : List ℕ) (w : W) : LosesNothing due (attempts host due w) where
  polled _ isDue := (attempts_steps host due w).1.symm ▸ isDue
  changes := (attempts_steps host due w).2 ▸ List.Subperm.refl _

theorem returned_eq_nil {steps : List Step} (h : polledWatchers steps = []) : returned steps = [] := by
  induction steps with
  | nil => rfl
  | cons step steps ih =>
    cases step with
    | polled => simp [polledWatchers] at h
    | emitted => exact ih h

/-- Some step is missing at the end of a pass that loses nothing only when it is no step at all. -/
theorem LosesNothing.of_append {due : List ℕ} {done rest : List Step} (h : LosesNothing due done)
    (nodup : due.Nodup) (polled : polledWatchers (done ++ rest) = due)
    (same : returned (done ++ rest) = handled (done ++ rest)) : rest = [] := by
  have noPoll : polledWatchers rest = [] := by
    apply List.eq_nil_iff_forall_not_mem.2
    intro idx hidx
    rw [← polled, polledWatchers_append] at nodup
    have isDue : idx ∈ due := polled ▸ polledWatchers_append done rest ▸ List.mem_append_right _ hidx
    exact (List.disjoint_of_nodup_append nodup) (h.polled isDue) hidx
  have noEmission : handled rest = [] := by
    have lengths := congrArg List.length same
    have fewer := h.changes.length_le
    rw [returned_append, returned_eq_nil noPoll, handled_append, List.append_nil,
      List.length_append] at lengths
    apply List.length_eq_zero_iff.1
    omega
  cases rest with
  | nil => rfl
  | cons step rest => cases step <;> simp [polledWatchers, handled] at noPoll noEmission

/-! ## The two loops -/

section Loops

variable (watchers : List WatcherEntry) (listed polled : ℕ → ℕ) (w : W)

theorem lt_length_of_due :
    ∀ idx ∈ dueWatchers watchers listed, idx < (Pass.begin watchers w).watchers.length := by
  intro idx due
  obtain ⟨entry, at_idx, -⟩ := mem_dueWatchers.1 due
  exact (List.getElem?_eq_some_iff.1 at_idx).1

theorem backgroundPass_steps : (backgroundPass host watchers listed polled w).steps =
    attempts host (dueWatchers watchers listed) w :=
  pollAll_goesOn (lt_length_of_due watchers listed w)

theorem pollDue_steps : (pollDue host watchers listed polled w).2.steps =
    untilFailure (attempts host (dueWatchers watchers listed) w) := by
  have steps := @pollAll_stops W host polled _ _ (lt_length_of_due watchers listed w)
  rw [pollDue]
  split
  · rename_i outcome
    rw [outcome] at steps
    exact steps
  · rename_i outcome
    rw [outcome] at steps
    exact steps

/-- A round of the background loop loses nothing, whatever fails. -/
theorem backgroundPass_losesNothing : LosesNothing (dueWatchers watchers listed)
    (backgroundPass host watchers listed polled w).steps := by
  rw [backgroundPass_steps]
  exact attempts_losesNothing host _ w

/-- `poll_due` loses nothing exactly when no emission fails that a poll or an emission should follow. -/
theorem pollDue_losesNothing_iff : LosesNothing (dueWatchers watchers listed)
    (pollDue host watchers listed polled w).2.steps ↔
      ∀ step ∈ (attempts host (dueWatchers watchers listed) w).dropLast, ¬step.fails := by
  rw [pollDue_steps]
  obtain ⟨polledOnce, same⟩ := attempts_steps host (dueWatchers watchers listed) w
  constructor
  · intro keeps
    by_contra fails
    simp only [not_forall, not_not] at fails
    obtain ⟨step, early, fails⟩ := fails
    obtain ⟨rest, some, split⟩ := untilFailure_eq_of_fails ⟨step, early, fails⟩
    rw [split] at polledOnce same
    exact some (keeps.of_append (nodup_dueWatchers watchers listed) polledOnce same)
  · intro ends
    rw [untilFailure_eq_self ends]
    exact attempts_losesNothing host _ w

end Loops

/-! ## A lost change -/

/-- A change of a package. -/
def sampleChange (id : String) : ChangeEvent := ⟨id, "cve", "openssl", "updated", none, .null, 0, ∅⟩

/-- One watcher, which returns two changes; the event store refuses the first append. -/
def refusingHost : Host ℕ where
  poll _ w := (.ok [sampleChange "a", sampleChange "b"], w)
  latestVersion _ _ := 0
  fresh w := (.ofNat w, 0, w)
  append _ w := (if w = 0 then .error (.storage "connection lost") else .ok (), w + 1)
  create _ _ _ w := w
  publish _ _ w := w
  timeText _ := ""

/-- A watcher that has not been polled. -/
def newWatcher : List WatcherEntry := [⟨⟨"cves", 10⟩, none⟩]

/-- The second change is neither emitted nor reported. -/
theorem pollDue_loses : ¬LosesNothing (dueWatchers newWatcher fun _ => 0)
    (pollDue refusingHost newWatcher (fun _ => 0) (fun _ => 0) 0).2.steps := by
  intro keeps
  have two : (returned (pollDue refusingHost newWatcher (fun _ => 0) (fun _ => 0) 0).2.steps).length = 2 := rfl
  have one : (handled (pollDue refusingHost newWatcher (fun _ => 0) (fun _ => 0) 0).2.steps).length = 1 := rfl
  have fewer := keeps.changes.length_le
  omega

end TORdex.Monitoring
