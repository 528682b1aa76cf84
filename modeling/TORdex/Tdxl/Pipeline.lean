import TORdex.Lib.Loops
import TORdex.Tdxl.Regroup

/-!
# The extracted pipeline

The walk as the loop of the source, which may go round forever or look up an operation that is not there.  It
does neither: every round visits an operation that has not been visited before.
-/

namespace TORdex.QueryOptimizer

/-- One round of the loop: the result when it breaks, or the next operation and what has been visited. -/
def walkRound (ops : List KirOp) : ℕ × List ℕ → Option (List ℕ ⊕ (ℕ × List ℕ))
  | (current, pipeline) =>
    if current ∈ pipeline then some (.inl pipeline)
    else
      let pipeline := pipeline ++ [current]
      ops[current]?.map fun op =>
        match op.outputId with
        | some out =>
          match (consumers ops out).filter (· ∉ pipeline) with
          | [next] => .inr (next, pipeline)
          | _ => .inl pipeline
        | none => .inl pipeline

/-- The second operation consumes the value of the first, and no other operation that has not been visited
does. -/
def OnlyConsumer (ops : List KirOp) (visited : List ℕ) (i j : ℕ) : Prop :=
  ∃ out, outputAt ops i = some out ∧
    ∀ k, ((∃ op, ops[k]? = some op ∧ out ∈ op.inputIds) ∧ k ∉ visited) ↔ k = j

/-- Different indices of operations, each after the first one the only consumer left of the one before. -/
structure SimplePath (ops : List KirOp) (pipeline : List ℕ) : Prop where
  nodup : pipeline.Nodup
  inRange : ∀ i ∈ pipeline, i < ops.length
  follows : ∀ before i j after, pipeline = before ++ i :: j :: after → OnlyConsumer ops (before ++ [i]) i j

section Walk

variable {ops : List KirOp} {pipeline : List ℕ} {current : ℕ}

theorem SimplePath.length_le (path : SimplePath ops pipeline) : pipeline.length ≤ ops.length := by
  have sub : pipeline ⊆ List.range ops.length := fun i hi => List.mem_range.2 (path.inRange i hi)
  have le := (path.nodup.subperm sub).length_le
  rwa [List.length_range] at le

theorem simplePath_nil : SimplePath ops [] where
  nodup := List.nodup_nil
  inRange _ h := absurd h List.not_mem_nil
  follows _ _ _ _ h := absurd h (by simp)

theorem simplePath_singleton (h : current < ops.length) : SimplePath ops [current] where
  nodup := List.nodup_singleton current
  inRange i hi := by rwa [List.mem_singleton.1 hi]
  follows before i j after h := by
    have := congrArg List.length h
    simp at this
    omega

/-- Going on to the only consumer that is left. -/
theorem SimplePath.concat (path : SimplePath ops (pipeline ++ [current])) {next : ℕ}
    (sole : OnlyConsumer ops (pipeline ++ [current]) current next) :
    SimplePath ops (pipeline ++ [current] ++ [next]) := by
  have ⟨out, _, consumes⟩ := sole
  obtain ⟨⟨op, there, -⟩, unvisited⟩ := (consumes next).2 rfl
  refine ⟨?_, fun i hi => ?_, fun before i j after h => ?_⟩
  · exact List.nodup_append.2 ⟨path.nodup, List.nodup_singleton next, fun a ha b hb => by
      rw [List.mem_singleton.1 hb]
      exact fun same => unvisited (same ▸ ha)⟩
  · rcases List.mem_append.1 hi with hi | hi
    · exact path.inRange i hi
    · rw [List.mem_singleton.1 hi]
      exact (List.getElem?_eq_some_iff.1 there).1
  · rcases List.eq_nil_or_concat after with rfl | ⟨after, last, rfl⟩
    · -- the new step
      have split : pipeline ++ [current] ++ [next] = (before ++ [i]) ++ [j] := by simpa using h
      obtain ⟨visited, last⟩ := List.append_inj' split rfl
      obtain ⟨-, here⟩ := List.append_inj' visited rfl
      cases last
      cases here
      rw [← visited]
      exact sole
    · have split : pipeline ++ [current] ++ [next] = (before ++ i :: j :: after) ++ [last] := by simpa using h
      exact path.follows before i j after (List.append_inj' split rfl).1

/-- From a path the loop goes on to a path: with as many rounds as there are operations left, and as the loop
of the source. -/
theorem walk_spec {rounds : ℕ} (path : SimplePath ops (pipeline ++ [current]))
    (enough : ops.length ≤ pipeline.length + rounds) :
    SimplePath ops (walk ops rounds current pipeline) ∧
      (∃ rest, walk ops rounds current pipeline = pipeline ++ current :: rest) ∧
      Loops.Returns (walkRound ops) (current, pipeline) (walk ops rounds current pipeline) := by
  induction rounds generalizing pipeline current with
  | zero =>
    have le := path.length_le
    rw [List.length_append, List.length_singleton] at le
    omega
  | succ rounds ih =>
    have unvisited : current ∉ pipeline := fun mem =>
      List.disjoint_of_nodup_append path.nodup mem List.mem_cons_self
    have here : current < ops.length := path.inRange current (by simp)
    have there : ops[current]? = some ops[current] := List.getElem?_eq_getElem here
    have unfolded : walk ops (rounds + 1) current pipeline =
        match ops[current].outputId with
        | some out =>
          match (consumers ops out).filter (· ∉ pipeline ++ [current]) with
          | [next] => walk ops rounds next (pipeline ++ [current])
          | _ => pipeline ++ [current]
        | none => pipeline ++ [current] := by
      rw [walk, if_neg unvisited, there]
      rfl
    have round : walkRound ops (current, pipeline) = some (
        match ops[current].outputId with
        | some out =>
          match (consumers ops out).filter (· ∉ pipeline ++ [current]) with
          | [next] => .inr (next, pipeline ++ [current])
          | _ => .inl (pipeline ++ [current])
        | none => .inl (pipeline ++ [current])) := by
      rw [walkRound, if_neg unvisited, there]
      rfl
    rw [unfolded]
    have stop (ends : walkRound ops (current, pipeline) = some (.inl (pipeline ++ [current]))) :
        SimplePath ops (pipeline ++ [current]) ∧ (∃ rest, pipeline ++ [current] = pipeline ++ current :: rest) ∧
          Loops.Returns (walkRound ops) (current, pipeline) (pipeline ++ [current]) :=
      ⟨path, ⟨[], rfl⟩, Loops.returns_of_inl ends⟩
    cases output : ops[current].outputId with
    | none =>
      rw [output] at round
      exact stop round
    | some out =>
      rw [output] at round
      simp only at round ⊢
      split
      · rename_i next left
        rw [left] at round
        have sole : OnlyConsumer ops (pipeline ++ [current]) current next := by
          refine ⟨out, by rw [outputAt, there]; exact output, fun k => ?_⟩
          rw [← mem_consumers, ← List.mem_singleton, ← left, List.mem_filter, decide_eq_true_eq]
        obtain ⟨path', ⟨rest, eq⟩, returns⟩ := ih (path.concat sole) (by
          rw [List.length_append, List.length_singleton]
          omega)
        exact ⟨path', ⟨next :: rest, by rw [eq, List.append_assoc, List.singleton_append]⟩,
          returns.of_inr round⟩
      · rename_i several
        refine stop ?_
        rw [round]
        congr 1
        split
        · rename_i next left
          exact absurd left (several next)
        · rfl

end Walk

/-- **The pipeline is a simple path** from the first source: the loop returns it after finitely many rounds, and
every operation in it is the only consumer left of the one before. -/
theorem pipelineOps_simplePath (program : KirProgram) :
    (pipelineOps program).head? = program.ops.findIdx? KirOp.isSource ∧
      SimplePath program.ops (pipelineOps program) ∧
      ∀ start, program.ops.findIdx? KirOp.isSource = some start →
        Loops.Returns (walkRound program.ops) (start, []) (pipelineOps program) := by
  unfold pipelineOps
  cases found : program.ops.findIdx? KirOp.isSource with
  | none => exact ⟨rfl, simplePath_nil, fun start h => absurd h (by simp)⟩
  | some start =>
    have inRange := (List.findIdx?_eq_some_iff_getElem.1 found).1
    have single : SimplePath program.ops ([] ++ [start]) := simplePath_singleton inRange
    obtain ⟨path, ⟨rest, eq⟩, returns⟩ := walk_spec single (Nat.le_add_left program.ops.length _)
    refine ⟨?_, path, fun start' same => ?_⟩
    · simp only [eq, List.nil_append, List.head?_cons]
    · cases same
      exact returns

end TORdex.QueryOptimizer
