import Mathlib.Data.Nat.SuccPred
import Mathlib.Order.SuccPred.Relation
import TORdex.Core.Primitives

/-!
# Control flow graphs

The graph of a function body, built line by line.  Every block is linked to the one before it, so the blocks
form a chain; the only other jumps are those of loops to themselves.
-/

namespace TORdex

/-- The kind of a block. -/
inductive BlockKind where
  | entry
  | exit
  | statement
  | conditional
  | loop
  | branch
  deriving DecidableEq, Repr

/-- A block of lines. -/
structure BasicBlock where
  id : ℕ
  label : String
  startLine : UInt64
  endLine : UInt64
  kind : BlockKind
  deriving DecidableEq, Repr

/-- The blocks of a function, and the jumps between them. -/
structure ControlFlowGraph where
  functionName : String
  blocks : List BasicBlock
  /-- Edges: from one block id to another. -/
  jumps : List (ℕ × ℕ)
  deriving DecidableEq, Repr

namespace ControlFlowGraph

/-! ## The construction -/

/-- What the branches of the loop tell apart. -/
inductive LineKind where
  | conditional
  | elseBranch
  | loop
  | leave
  | other
  deriving DecidableEq, Repr

/-- The branch that a trimmed line takes. -/
def lineKind (line : List Char) : LineKind :=
  let startsWith (start : String) : Bool := start.toList.isPrefixOf line
  if startsWith "if " || startsWith "else if " then .conditional
  else if startsWith "else" then .elseBranch
  else if startsWith "for " || startsWith "while " || startsWith "loop" then .loop
  else if startsWith "return" || startsWith "break" || startsWith "continue" then .leave
  else .other

/-- The variables of the loop. -/
structure Builder where
  blocks : List BasicBlock
  jumps : List (ℕ × ℕ)
  blockId : ℕ
  prevBlock : ℕ

namespace Builder

/-- The entry block alone. -/
def start (startLine : UInt64) : Builder := ⟨[⟨0, "entry", startLine, startLine, .entry⟩], [], 1, 0⟩

/-- A block with the next id, a jump to it from the previous block, and the pointers moved on. -/
def addBlock (label : ℕ → String) (line : UInt64) (kind : BlockKind) (b : Builder) : Builder where
  blocks := b.blocks ++ [⟨b.blockId, label b.blockId, line, line, kind⟩]
  jumps := b.jumps ++ [(b.prevBlock, b.blockId)]
  blockId := b.blockId + 1
  prevBlock := b.blockId

/-- The jump of the last block to itself. -/
def addSelfLoop (b : Builder) : Builder := { b with jumps := b.jumps ++ [(b.prevBlock, b.prevBlock)] }

/-- One round of the loop. -/
def addLine (line : UInt64) (b : Builder) : LineKind → Builder
  | .conditional =>
    (b.addBlock (fun id => "if_" ++ toString id) line .conditional).addBlock
      (fun id => "then_" ++ toString id) line .branch
  | .elseBranch => b.addBlock (fun id => "else_" ++ toString id) line .branch
  | .loop => (b.addBlock (fun id => "loop_" ++ toString id) line .loop).addSelfLoop
  | .leave => b.addBlock (fun id => "exit_" ++ toString id) line .exit
  | .other => b

end Builder

/-- `start_line + i`.  A build that checks for overflow panics, another one wraps. -/
def lineNumber (checked : Bool) (startLine : UInt64) (i : ℕ) : Option UInt64 :=
  if checked && startLine.toNat + i > usizeMax then none else some (startLine + UInt64.ofNat i)

/-- Add the lines of a body one after another. -/
def scan (checked : Bool) (startLine : UInt64) : ℕ → List (List Char) → Builder → Option Builder
  | _, [], b => some b
  | i, line :: rest, b => do
    let ln ← lineNumber checked startLine i
    scan checked startLine (i + 1) rest (b.addLine ln (lineKind (trimText line)))

/-- The graph of a body. -/
def build (checked : Bool) (functionName : String) (body : List Char) (startLine : UInt64) :
    Option ControlFlowGraph := do
  let b ← scan checked startLine 0 (textLines body) (.start startLine)
  let ln ← lineNumber checked startLine (textLines body).length
  let b := b.addBlock (fun _ => "exit") ln .exit
  some ⟨functionName, b.blocks, b.jumps⟩

/-- The number of blocks. -/
def blockCount (g : ControlFlowGraph) : ℕ := g.blocks.length

/-- The number of jumps. -/
def jumpCount (g : ControlFlowGraph) : ℕ := g.jumps.length

/-- The cyclomatic complexity, at least 1. -/
def cyclomaticComplexity (g : ControlFlowGraph) : ℕ :=
  if g.blockCount = 0 then 1 else max (g.jumpCount + 2 - g.blockCount) 1

/-! ## The chain of blocks -/

/-- The blocks have their places as ids, each is linked to the next one, and beyond these links there are the
jumps of `loops` loops. -/
structure Builder.Chain (b : Builder) (loops : ℕ) : Prop where
  ids : b.blocks.map BasicBlock.id = List.range b.blockId
  entry : ∃ block ∈ b.blocks.head?, block.kind = .entry
  prev : b.prevBlock + 1 = b.blockId
  within : ∀ j ∈ b.jumps, j.1 < b.blockId ∧ j.2 < b.blockId
  links : ∀ k, k + 1 < b.blockId → (k, k + 1) ∈ b.jumps
  count : b.jumps.length + 1 = b.blockId + loops

namespace Builder

variable {b : Builder} {loops : ℕ}

theorem chain_start (startLine : UInt64) : (start startLine).Chain 0 where
  ids := rfl
  entry := ⟨_, rfl, rfl⟩
  prev := rfl
  within _ h := absurd h List.not_mem_nil
  links k h := absurd h (by simp [start])
  count := rfl

theorem Chain.addBlock (chain : b.Chain loops) (label : ℕ → String) (line : UInt64) (kind : BlockKind) :
    (b.addBlock label line kind).Chain loops where
  ids := by
    simp only [Builder.addBlock, List.map_append, List.map_cons, List.map_nil, chain.ids, List.range_succ]
  entry := by
    obtain ⟨block, head, kind⟩ := chain.entry
    refine ⟨block, ?_, kind⟩
    simp only [Builder.addBlock, List.head?_append, Option.mem_def.1 head, Option.some_or, Option.mem_def]
  prev := rfl
  within j hj := by
    have := chain.prev
    simp only [Builder.addBlock, List.mem_append, List.mem_singleton] at hj ⊢
    rcases hj with hj | rfl
    · have := chain.within j hj
      omega
    · simp only
      omega
  links k hk := by
    simp only [Builder.addBlock, List.mem_append, List.mem_singleton] at hk ⊢
    by_cases last : k + 1 < b.blockId
    · exact .inl (chain.links k last)
    · have := chain.prev
      exact .inr (Prod.ext (show k = b.prevBlock by omega) (show k + 1 = b.blockId by omega))
  count := by
    have := chain.count
    simp only [Builder.addBlock, List.length_append, List.length_singleton]
    omega

theorem Chain.addSelfLoop (chain : b.Chain loops) : b.addSelfLoop.Chain (loops + 1) where
  ids := chain.ids
  entry := chain.entry
  prev := chain.prev
  within j hj := by
    rcases List.mem_append.1 hj with hj | hj
    · exact chain.within j hj
    · have last : b.prevBlock < b.blockId := by
        have := chain.prev
        omega
      rw [List.mem_singleton.1 hj]
      exact ⟨last, last⟩
  links k hk := List.mem_append_left _ (chain.links k hk)
  count := by
    have := chain.count
    simp only [Builder.addSelfLoop, List.length_append, List.length_singleton]
    omega

theorem Chain.addLine (chain : b.Chain loops) (line : UInt64) (kind : LineKind) :
    (b.addLine line kind).Chain (loops + if kind = .loop then 1 else 0) := by
  cases kind with
  | conditional =>
    exact (chain.addBlock (fun id => "if_" ++ toString id) line .conditional).addBlock
      (fun id => "then_" ++ toString id) line .branch
  | elseBranch => exact chain.addBlock (fun id => "else_" ++ toString id) line .branch
  | loop => exact (chain.addBlock (fun id => "loop_" ++ toString id) line .loop).addSelfLoop
  | leave => exact chain.addBlock (fun id => "exit_" ++ toString id) line .exit
  | other => exact chain

end Builder

/-- The number of lines of a kind. -/
def countLines (kind : LineKind) (lines : List (List Char)) : ℕ :=
  lines.countP fun line => lineKind (trimText line) = kind

theorem countLines_cons (kind : LineKind) (line : List Char) (lines : List (List Char)) :
    countLines kind (line :: lines) =
      (if lineKind (trimText line) = kind then 1 else 0) + countLines kind lines := by
  unfold countLines
  rw [List.countP_cons, Nat.add_comm]
  simp only [decide_eq_true_eq]

section Scan

variable {checked : Bool} {startLine : UInt64}

theorem chain_scan {lines : List (List Char)} {i loops : ℕ} {b b' : Builder} (chain : b.Chain loops)
    (h : scan checked startLine i lines b = some b') : b'.Chain (loops + countLines .loop lines) := by
  induction lines generalizing i b loops with
  | nil =>
    cases h
    exact chain
  | cons line lines ih =>
    obtain ⟨ln, -, h⟩ := Option.bind_eq_some_iff.1 h
    rw [countLines_cons, ← Nat.add_assoc]
    exact ih (chain.addLine ln _) h

theorem lineNumber_isSome {i : ℕ} :
    (lineNumber checked startLine i).isSome ↔ (checked = true → startLine.toNat + i ≤ usizeMax) := by
  unfold lineNumber
  cases checked <;> simp [apply_ite Option.isSome]

/-- The scan goes through if the number of the line after the last one does. -/
theorem scan_isSome {lines : List (List Char)} {i : ℕ} {b : Builder}
    (fits : checked = true → startLine.toNat + (i + lines.length) ≤ usizeMax) :
    (scan checked startLine i lines b).isSome := by
  induction lines generalizing i b with
  | nil => rfl
  | cons line lines ih =>
    rw [List.length_cons] at fits
    obtain ⟨ln, number⟩ := Option.isSome_iff_exists.1
      (lineNumber_isSome.2 fun check => (by have := fits check; omega : startLine.toNat + i ≤ usizeMax))
    rw [scan, number]
    exact ih fun check => by
      have := fits check
      omega

end Scan

/-! ## The graph -/

/-- A way along jumps. -/
def Reaches (g : ControlFlowGraph) : ℕ → ℕ → Prop := Relation.ReflTransGen fun i j => (i, j) ∈ g.jumps

/-- The blocks are numbered by their places, jumps lead from blocks to blocks, every block can be reached from
the entry, which comes first, and the exit, which comes last, from every block. -/
structure Connected (g : ControlFlowGraph) : Prop where
  ids : g.blocks.map BasicBlock.id = List.range g.blocks.length
  jumps : ∀ j ∈ g.jumps, j.1 ∈ g.blocks.map BasicBlock.id ∧ j.2 ∈ g.blocks.map BasicBlock.id
  entry : ∃ entry ∈ g.blocks.head?, entry.kind = .entry ∧ ∀ b ∈ g.blocks, g.Reaches entry.id b.id
  exit : ∃ exit ∈ g.blocks.getLast?, exit.kind = .exit ∧ ∀ b ∈ g.blocks, g.Reaches b.id exit.id

/-- The lines taken for heads of decisions. -/
def decisions (body : List Char) : ℕ :=
  countLines .conditional (textLines body) + countLines .loop (textLines body)

variable {checked : Bool} {name : String} {body : List Char} {startLine : UInt64} {g : ControlFlowGraph}

theorem build_isSome :
    (build checked name body startLine).isSome ↔
      (checked = true → startLine.toNat + (textLines body).length ≤ usizeMax) := by
  rw [← lineNumber_isSome]
  unfold build
  constructor
  · intro built
    obtain ⟨g, built⟩ := Option.isSome_iff_exists.1 built
    obtain ⟨b, -, built⟩ := Option.bind_eq_some_iff.1 built
    obtain ⟨ln, number, -⟩ := Option.bind_eq_some_iff.1 built
    exact Option.isSome_iff_exists.2 ⟨ln, number⟩
  · intro number
    have fits := lineNumber_isSome.1 number
    obtain ⟨b, scanned⟩ := Option.isSome_iff_exists.1 (scan_isSome (b := .start startLine)
      (show checked = true → startLine.toNat + (0 + (textLines body).length) ≤ usizeMax by
        rwa [Nat.zero_add]))
    obtain ⟨ln, number⟩ := Option.isSome_iff_exists.1 number
    rw [scanned, Option.bind_eq_bind, Option.bind_some, number]
    rfl

theorem build_spec (built : build checked name body startLine = some g) :
    g.Connected ∧ g.cyclomaticComplexity = 1 + countLines .loop (textLines body) := by
  obtain ⟨b, scanned, built⟩ := Option.bind_eq_some_iff.1 built
  obtain ⟨ln, -, built⟩ := Option.bind_eq_some_iff.1 built
  have chain := (chain_scan (Builder.chain_start startLine) scanned).addBlock (fun _ => "exit") ln .exit
  obtain ⟨rfl⟩ := Option.some.inj built
  set b' := b.addBlock (fun _ => "exit") ln .exit with hb'
  have length : b'.blocks.length = b'.blockId := by
    have := congrArg List.length chain.ids
    rwa [List.length_map, List.length_range] at this
  have below : ∀ block ∈ b'.blocks, block.id < b'.blockId := by
    intro block mem
    have := List.mem_map_of_mem (f := BasicBlock.id) mem
    rwa [chain.ids, List.mem_range] at this
  have along : ∀ i j, i ≤ j → j < b'.blockId →
      Relation.ReflTransGen (fun i j => (i, j) ∈ b'.jumps) i j := by
    intro i j le lt
    refine reflTransGen_of_succ_of_le _ (fun k hk => chain.links k ?_) le
    have := hk.2
    omega
  refine ⟨⟨?_, ?_, ?_, ?_⟩, ?_⟩
  · rw [length]
    exact chain.ids
  · intro j hj
    rw [chain.ids, List.mem_range, List.mem_range]
    exact chain.within j hj
  · obtain ⟨entry, head, kind⟩ := chain.entry
    have first : entry.id = 0 := by
      have ids := congrArg List.head? chain.ids
      rw [List.head?_map, Option.mem_def.1 head, List.head?_range, Option.map_some] at ids
      split at ids <;> simp_all
    refine ⟨entry, head, kind, fun block mem => ?_⟩
    rw [first]
    exact along 0 _ (Nat.zero_le _) (below block mem)
  · refine ⟨⟨b.blockId, "exit", ln, ln, .exit⟩, ?_, rfl, fun block mem => ?_⟩
    · exact List.getLast?_concat
    · have lt := below block mem
      exact along _ _ (Nat.lt_succ_iff.1 lt) (Nat.lt_succ_self _)
  · have count := chain.count
    have pos := chain.prev
    simp only [cyclomaticComplexity, blockCount, jumpCount, length]
    rw [if_neg (by omega)]
    omega

/-- **The graph is connected and counts the decisions of the body** exactly if no line is taken for the head of
a conditional, whose way past the branch is missing; and the line numbers have to fit in a build that checks
them. -/
theorem build_connected_iff (checked : Bool) (name : String) (body : List Char) (startLine : UInt64) :
    (∃ g, build checked name body startLine = some g ∧ g.Connected ∧
      g.cyclomaticComplexity = 1 + decisions body) ↔
      (checked = true → startLine.toNat + (textLines body).length ≤ usizeMax) ∧
        ∀ line ∈ textLines body, lineKind (trimText line) ≠ .conditional := by
  rw [← @build_isSome checked name, Option.isSome_iff_exists]
  have none : (∀ line ∈ textLines body, lineKind (trimText line) ≠ .conditional) ↔
      countLines .conditional (textLines body) = 0 := by
    simp only [countLines, List.countP_eq_zero, decide_eq_true_eq, ne_eq]
  rw [none]
  constructor
  · rintro ⟨g, built, -, complexity⟩
    rw [(build_spec built).2, decisions] at complexity
    exact ⟨⟨g, built⟩, by omega⟩
  · rintro ⟨⟨g, built⟩, zero⟩
    obtain ⟨connected, complexity⟩ := build_spec built
    refine ⟨g, built, connected, ?_⟩
    rw [complexity, decisions, zero, Nat.zero_add]

/-- One conditional in the body, and a complexity of one. -/
theorem build_conditional :
    ¬∃ g, build true "test" "if a \x7b\n\x7d\nreturn;".toList 1 = some g ∧ g.Connected ∧
      g.cyclomaticComplexity = 1 + decisions "if a \x7b\n\x7d\nreturn;".toList := by
  rintro ⟨g, built, -, complexity⟩
  rw [(build_spec built).2] at complexity
  exact absurd complexity (by decide)

end ControlFlowGraph

end TORdex
