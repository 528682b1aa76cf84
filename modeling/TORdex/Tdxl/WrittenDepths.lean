import Mathlib.Data.Nat.Log
import TORdex.Tdxl.Depths
import TORdex.Tdxl.NumberRuns
import TORdex.Tdxl.RoundTrip

/-!
# The written depths

A depth goes from the source through an `i64`, a `usize` and an `i32` to an instruction.  The literals that arrive
unchanged are the integers below 2³¹; any other literal arrives as another number, but a one with a dot.
-/

namespace TORdex

open Ast

/-! ## Parsing -/

namespace Tdxl

theorem Token.depth_of_discriminant {t : Token} (h : t.discriminant = Token.depth.discriminant) :
    t = .depth := by
  cases t <;> first | rfl | cases h

/-- At `i` stands a `TRAVERSE` whose value is followed by `DEPTH`. -/
def HasDepth (tokens : List Token) (i : ℕ) : Prop :=
  tokens[i]? = some .traverse ∧ tokens[i + 2]? = some .depth

instance (tokens : List Token) (i : ℕ) : Decidable (HasDepth tokens i) :=
  inferInstanceAs (Decidable (_ ∧ _))

/-- The depth that the parser makes of the token after `DEPTH`. -/
def depthOfToken : Token → ℕ
  | .integer n => Parser.asUsize n
  | _ => 1

namespace Parser

variable {text : Text} {p p' p'' : Parser} {α β : Type}

theorem ok_of_bind {code : Parse α} {next : α → Parse β} {b : β} (h : (code >>= next) p = .ok (b, p'')) :
    ∃ a p', code p = .ok (a, p') ∧ next a p' = .ok (b, p'') := by
  cases run : code p with
  | error stop =>
    have stopped : (code >>= next) p = .error stop := by
      show Except.bind (code p) _ = _
      rw [run]
      rfl
    exact nomatch h.symm.trans stopped
  | ok r =>
    refine ⟨r.1, r.2, rfl, ?_⟩
    rw [← h]
    show _ = Except.bind (code p) _
    rw [run]
    rfl

theorem advance_ok {tok : Spanned} (h : advance p = .ok (tok, p')) :
    p.tokens[p.pos]? = some tok ∧ p' = p.skip 1 := by
  unfold advance at h
  cases here : p.tokens[p.pos]? with
  | none =>
    rw [here] at h
    exact nomatch h
  | some t =>
    rw [here] at h
    obtain ⟨rfl, rfl⟩ := Prod.mk.inj (Except.ok.inj h)
    exact ⟨rfl, rfl⟩

theorem parseValue_ok {v : Ast.Value} (h : parseValue text p = .ok (v, p')) :
    ∃ tok, p.tokens[p.pos]? = some tok ∧ depthOf v = depthOfToken tok.1 ∧ p' = p.skip 1 := by
  obtain ⟨⟨t, span⟩, q, run, rest⟩ := ok_of_bind h
  obtain ⟨here, rfl⟩ := advance_ok run
  refine ⟨(t, span), here, ?_⟩
  cases t with
  | integer | float | str | bool | null | ident =>
    obtain ⟨rfl, rfl⟩ := Prod.mk.inj (Except.ok.inj rest)
    exact ⟨rfl, rfl⟩
  | _ => exact nomatch rest

/-- Code whose statements carry no depth. -/
def Depthless (code : Parse Stmt) : Prop := ∀ p stmt p', code p = .ok (stmt, p') → stmt.depth = none

theorem Depthless.bind {code : Parse α} {next : α → Parse Stmt} (h : ∀ a, Depthless (next a)) :
    Depthless (code >>= next) := by
  intro p stmt p' run
  obtain ⟨a, q, -, rest⟩ := ok_of_bind run
  exact h a q stmt p' rest

theorem depthless_pure {stmt : Stmt} (h : stmt.depth = none) : Depthless (pure stmt) := by
  intro p s p' run
  obtain ⟨rfl, -⟩ := Prod.mk.inj (Except.ok.inj run)
  exact h

theorem depthless_parseArgument {make : Ast.Value → Stmt} (h : ∀ v, (make v).depth = none) :
    Depthless (parseArgument text make) := .bind fun _ => .bind fun v => depthless_pure (h v)

theorem depthless_parseArgumentAfter {word : Token} {make : Ast.Value → Stmt}
    (h : ∀ v, (make v).depth = none) : Depthless (parseArgumentAfter text word make) :=
  .bind fun _ => .bind fun _ => .bind fun v => depthless_pure (h v)

theorem depthless_parseCondition {make : BinExpr → Stmt} (h : ∀ e, (make e).depth = none) :
    Depthless (parseCondition text make) := .bind fun _ => .bind fun e => depthless_pure (h e)

theorem depthless_parseTimeline : Depthless (parseTimeline text) :=
  .bind fun _ => .bind fun _ => .bind fun _ => depthless_pure rfl

theorem depthless_parseSort : Depthless (parseSort text) :=
  .bind fun _ => .bind fun _ => .bind fun _ => .bind fun _ => depthless_pure rfl

theorem depthless_parseLimit : Depthless (parseLimit text) := by
  refine .bind fun _ => .bind fun value => ?_
  split
  · exact depthless_pure rfl
  · exact .bind fun _ _ _ _ run => nomatch run

theorem peek_traverse : p.peek = .traverse ↔ (p.tokens.map (·.1))[p.pos]? = some .traverse := by
  unfold peek
  rw [List.getElem?_map]
  cases p.tokens[p.pos]? with
  | none => exact ⟨nofun, nofun⟩
  | some tok => exact ⟨congrArg some, Option.some.inj⟩

theorem check_depth : p.check .depth = true ↔ (p.tokens.map (·.1))[p.pos]? = some .depth := by
  unfold check peek
  rw [List.getElem?_map, decide_eq_true_eq]
  cases p.tokens[p.pos]? with
  | none => exact ⟨fun h => (nomatch Token.depth_of_discriminant h), nofun⟩
  | some tok =>
    refine ⟨fun h => congrArg some (Token.depth_of_discriminant h), fun h => ?_⟩
    exact congrArg Token.discriminant (Option.some.inj h)

theorem parseOption_depth {v : Option Ast.Value} (h : parseOption text .depth p = .ok (v, p')) :
    v.map depthOf = if (p.tokens.map (·.1))[p.pos]? = some .depth then
      (p.tokens.map (·.1))[p.pos + 1]?.map depthOfToken else none := by
  have run : (if p.check .depth = true then advance >>= fun _ => parseValue text >>= fun value => pure (some value)
    else pure none : Parse _) p = .ok (v, p') := h
  by_cases found : p.check .depth = true
  · rw [if_pos found] at run
    rw [if_pos (check_depth.1 found)]
    obtain ⟨_, q, run, rest⟩ := ok_of_bind run
    obtain ⟨-, rfl⟩ := advance_ok run
    obtain ⟨v, q, run, rest⟩ := ok_of_bind rest
    obtain ⟨tok, here, same, rfl⟩ := parseValue_ok run
    obtain ⟨rfl, -⟩ := Prod.mk.inj (Except.ok.inj rest)
    have here : p.tokens[p.pos + 1]? = some tok := here
    rw [List.getElem?_map, here]
    exact congrArg some same
  · rw [if_neg found] at run
    rw [if_neg (mt check_depth.2 found)]
    obtain ⟨rfl, -⟩ := Prod.mk.inj (Except.ok.inj run)
    rfl

theorem parseTraverse_depth {stmt : Stmt} (h : parseTraverse text p = .ok (stmt, p')) :
    stmt.depth = if (p.tokens.map (·.1))[p.pos + 2]? = some .depth then
      (p.tokens.map (·.1))[p.pos + 3]?.map depthOfToken else none := by
  obtain ⟨_, q, run, rest⟩ := ok_of_bind h
  obtain ⟨-, rfl⟩ := advance_ok run
  obtain ⟨relation, q, run, rest⟩ := ok_of_bind rest
  obtain ⟨-, -, -, rfl⟩ := parseValue_ok run
  obtain ⟨depth, q, run, rest⟩ := ok_of_bind rest
  obtain ⟨rfl, -⟩ := Prod.mk.inj (Except.ok.inj rest)
  exact parseOption_depth run

/-- The code returns statements with the depth, from `p`. -/
abbrev Carries (code : Parse Stmt) (p : Parser) (depth : Option ℕ) : Prop :=
  Ensures code p (fun stmt _ => stmt.depth = depth) fun _ => True

theorem carries_of_ok {code : Parse Stmt} {depth : Option ℕ}
    (h : ∀ stmt p', code p = .ok (stmt, p') → stmt.depth = depth) : Carries code p depth := by
  unfold Carries Ensures
  cases run : code p with
  | ok r => exact h r.1 r.2 run
  | error => trivial

theorem Depthless.carries {code : Parse Stmt} (h : Depthless code) : Carries code p none :=
  carries_of_ok fun stmt p' run => h p stmt p' run

theorem carries_get {next : Parser → Parse Stmt} {depth : Option ℕ} (h : Carries (next p) p depth) :
    Carries (get >>= next) p depth := h

/-- The statement that begins at a token carries the depth that stands there. -/
theorem carries_parseStatement (p : Parser) : Carries (parseStatement text) p
    (if HasDepth (p.tokens.map (·.1)) p.pos then (p.tokens.map (·.1))[p.pos + 3]?.map depthOfToken
      else none) := by
  have other (h : p.peek ≠ .traverse) : ¬HasDepth (p.tokens.map (·.1)) p.pos :=
    fun there => h (peek_traverse.2 there.1)
  refine carries_get ?_
  split
  case h_4 h =>
    have here := peek_traverse.1 h
    refine carries_of_ok fun stmt p' run => ?_
    rw [parseTraverse_depth run]
    simp only [HasDepth, here, true_and]
  all_goals rw [if_neg (other (by first | assumption | simp [*]))]
  case h_1 | h_6 | h_14 | h_15 => exact (depthless_parseArgument fun _ => rfl).carries
  case h_2 | h_3 | h_16 => exact (depthless_parseCondition fun _ => rfl).carries
  case h_5 => exact (Depthless.bind fun _ => depthless_pure rfl).carries
  case h_7 | h_8 | h_9 | h_13 => exact (depthless_parseArgumentAfter fun _ => rfl).carries
  case h_10 => exact depthless_parseTimeline.carries
  case h_11 => exact depthless_parseSort.carries
  case h_12 => exact depthless_parseLimit.carries
  case h_17 => exact (Depthless.bind fun _ => depthless_pure rfl).carries
  case h_18 => exact carries_of_ok fun _ _ run => nomatch run

/-- Every statement of a program carries the depth that stands at its first token. -/
theorem calls_depth {fuel : ℕ} {call : Stmt × ℕ × ℕ} (ready : p.Ready) (mem : call ∈ calls text fuel p) :
    call.1.depth = if HasDepth (p.tokens.map (·.1)) call.2.1 then
      (p.tokens.map (·.1))[call.2.1 + 3]?.map depthOfToken else none := by
  induction fuel generalizing p with
  | zero => exact absurd mem List.not_mem_nil
  | succ fuel ih =>
    have skipped := ready.skipNewlines
    rw [calls] at mem
    by_cases eof : p.skipNewlines.check .eof = true
    · rw [if_pos eof] at mem
      exact absurd mem List.not_mem_nil
    · rw [if_neg eof] at mem
      cases hs : parseStatement text p.skipNewlines with
      | error stop =>
        rw [hs] at mem
        exact absurd mem List.not_mem_nil
      | ok r =>
        rw [hs] at mem
        rcases List.mem_cons.1 mem with rfl | mem
        · exact (carries_parseStatement p.skipNewlines).of_ok hs
        · have step : Goes 1 (parseStatement text) p.skipNewlines := goes_parseStatement (skipped.ready ready)
          have ahead := skipped.trans (step.of_ok hs)
          have rest := ih (ahead.ready ready) mem
          rwa [ahead.tokens] at rest

end Parser

open Lexer

/-- The tokens of a source; the fuel is enough. -/
def tokensOf (text : Text) (input : String) : Except Stop (List Spanned) :=
  tokenize text (input.length + 1) (.new input)

/-- The tokens of a source with the digits and dots around them. -/
def sightingsOf (text : Text) (input : String) : List Sighting :=
  sightings text input.toList (input.length + 1) (.new input)

/-- The statements of the tokens; the fuel is enough. -/
def statementsOf (text : Text) (tokens : List Spanned) : Except Stop (List Stmt) :=
  Parser.parse text (tokens.length + 1) (.new tokens)

/-- What is written after the `DEPTH` of each `TRAVERSE` that has one. -/
def depthClauses (text : Text) (input : String) (tokens : List Spanned) : List Sighting :=
  (Parser.calls text (tokens.length + 1) (.new tokens)).filterMap fun call =>
    if HasDepth (tokens.map (·.1)) call.2.1 then (sightingsOf text input)[call.2.1 + 3]? else none

/-- The depth is the number that is written; it is one where no number follows `DEPTH`. -/
def Written (s : Sighting) (depth : ℤ) : Prop :=
  if StartsDigit s.run then writtenNumber s.whole = some (depth : ℚ) else depth = 1

/-- The traversals of a program that carry a depth. -/
def traversals (program : KirProgram) : List KirOp := program.ops.filter fun op => op.depth.isSome

/-- The `DEPTH` clauses whose traversals are compiled: one whose value no operation uses is dead code. -/
def compiledClauses (clauses : List Sighting) (program : KirProgram) : List Sighting :=
  ((clauses.zip (traversals program)).filter fun x => keptTraversal program x.2).map (·.1)

/-- Numbers mean what they say: their tokens denote the runs of digits and dots, and the depths of traversals are
the numbers after `DEPTH`, when the statements are lowered, and in the operations of the compiled program and the
immediates that its code loads (in the order that the query optimiser gives them). -/
structure NumbersMean (text : Text) (est : QueryOptimizer.Estimates) (input : String) : Prop where
  tokens : ∀ tokens, tokensOf text input = .ok tokens →
    ∀ s ∈ sightingsOf text input, StartsDigit s.run → Denotes s.whole s.token
  depths : ∀ tokens stmts, tokensOf text input = .ok tokens → statementsOf text tokens = .ok stmts →
    List.Forall₂ Written (depthClauses text input tokens) (depthsOf (Lowering.lowerAst stmts).ops)
  compiled : ∀ tokens stmts, tokensOf text input = .ok tokens → statementsOf text tokens = .ok stmts →
    ∃ placed, placed.Perm (compiledClauses (depthClauses text input tokens) (Lowering.lowerAst stmts)) ∧
      List.Forall₂ Written placed (depthsOf (compileKir est stmts).ops) ∧
      List.Forall₂ Written placed (loadedDepths (codegenKir (compileKir est stmts)).instructions)

/-- The number survives the way to an instruction: an integer of 31 bits, or a one with a dot. -/
def Shallow (run : List Char) : Prop :=
  '.' ∉ run ∧ Nat.ofDigitChars 10 run 0 < 2 ^ 31 ∨ '.' ∈ run ∧ writtenNumber run = some 1

instance (run : List Char) : Decidable (Shallow run) := inferInstanceAs (Decidable (_ ∨ _))

/-- The numbers of the source fit: each run begins with its token and is readable, each depth is shallow, and no
traversal of the pipeline is cut down by a limit after it. -/
structure NumbersFit (text : Text) (est : QueryOptimizer.Estimates) (input : String) : Prop where
  runs : ∀ tokens, tokensOf text input = .ok tokens →
    ∀ s ∈ sightingsOf text input, StartsDigit s.run → s.lead = [] ∧ Readable s.run
  depths : ∀ tokens stmts, tokensOf text input = .ok tokens → statementsOf text tokens = .ok stmts →
    ∀ s ∈ depthClauses text input tokens, StartsDigit s.run → Shallow s.run
  uncut : ∀ tokens stmts, tokensOf text input = .ok tokens → statementsOf text tokens = .ok stmts →
    QueryOptimizer.Uncut est (QueryOptimizer.prunedPipe (Optimizer.optimize (Lowering.lowerAst stmts)))

section Meaning

variable {text : Text} {input : String} {tokens : List Spanned} {stmts : List Stmt}

theorem map_sightingsOf (lexed : tokensOf text input = .ok tokens) :
    (sightingsOf text input).map (·.token) = tokens.map (·.1) := (map_sightings lexed).symm

theorem ready_of_lexed (lexed : tokensOf text input = .ok tokens) : (Parser.new tokens).Ready := by
  have terminated := tokenizeLoop_terminated (by simp) lexed
  refine ⟨terminated, ?_⟩
  obtain ⟨init, last, split, -⟩ := terminated
  show 0 < tokens.length
  rw [split, List.length_append, List.length_singleton]
  omega

/-- The depths of the lowered program are made of the tokens after `DEPTH`. -/
theorem depthsOf_statements (lexed : tokensOf text input = .ok tokens)
    (parsed : statementsOf text tokens = .ok stmts) : depthsOf (Lowering.lowerAst stmts).ops =
      (depthClauses text input tokens).map fun s => Lowering.asI32 (depthOfToken s.token) := by
  have all : stmts = (Parser.calls text (tokens.length + 1) (.new tokens)).map (·.1) :=
    Parser.parseLoop_calls parsed
  rw [Lowering.depthsOf_lowerAst, all, depthClauses, List.filterMap_map, List.map_filterMap, List.map_filterMap]
  refine List.filterMap_congr fun call mem => ?_
  have depth := Parser.calls_depth (ready_of_lexed lexed) mem
  show call.1.depth.map Lowering.asI32 = _
  rw [depth]
  show Option.map _ (if HasDepth (tokens.map (·.1)) call.2.1 then (tokens.map (·.1))[call.2.1 + 3]?.map depthOfToken
    else none) = _
  split_ifs
  · rw [← map_sightingsOf lexed, List.getElem?_map]
    cases (sightingsOf text input)[call.2.1 + 3]? <;> rfl
  · rfl

theorem asI32_eq_self_iff (n : ℕ) : Lowering.asI32 n = n ↔ n < 2 ^ 31 := by
  unfold Lowering.asI32 Int.bmod
  dsimp only
  split_ifs <;> omega

/-- What is made of the token after `DEPTH` is the written number exactly when that number is shallow. -/
theorem written_iff {s : Sighting} (number : s.IsNumber text) (lead : s.lead = []) (readable : Readable s.run) :
    writtenNumber s.whole = some (Lowering.asI32 (depthOfToken s.token) : ℚ) ↔ Shallow s.run := by
  have whole : s.whole = s.run := by rw [Sighting.whole, lead, List.nil_append]
  rw [whole, number.token]
  unfold numberToken Shallow
  by_cases dot : '.' ∈ s.run
  · have one : Lowering.asI32 1 = 1 := by decide
    rw [if_pos dot]
    show writtenNumber s.run = some (Lowering.asI32 1 : ℚ) ↔ _
    rw [one]
    simp [dot]
  · have small : (Nat.ofDigitChars 10 s.run 0 : ℤ) ≤ i64Max := by
      rcases readable with h | h
      · exact h.2
      · exact absurd h.1 dot
    rw [if_neg dot]
    dsimp only
    rw [if_pos small, depthOfToken, Parser.asUsize_nat small, writtenNumber_integer dot,
      ← asI32_eq_self_iff, Option.some.injEq]
    have cast : ((Nat.ofDigitChars 10 s.run 0 : ℕ) : ℚ) = (Lowering.asI32 (Nat.ofDigitChars 10 s.run 0) : ℚ) ↔
        Lowering.asI32 (Nat.ofDigitChars 10 s.run 0) = Nat.ofDigitChars 10 s.run 0 := by
      constructor
      · intro same
        exact_mod_cast same.symm
      · intro same
        rw [same]
        rfl
    rw [cast]
    simp [dot]

theorem isNumber_of_sighted {s : Sighting} (mem : s ∈ sightingsOf text input) (digit : StartsDigit s.run) :
    s.IsNumber text := isNumber_of_mem (apart_new input) mem digit

theorem mem_sightings_of_clause {s : Sighting} (mem : s ∈ depthClauses text input tokens) :
    s ∈ sightingsOf text input := by
  obtain ⟨call, -, there⟩ := List.mem_filterMap.1 mem
  split_ifs at there
  exact List.mem_of_getElem? there

theorem written_of_not_digit {s : Sighting} (mem : s ∈ sightingsOf text input) (other : ¬StartsDigit s.run) :
    Written s (Lowering.asI32 (depthOfToken s.token)) := by
  have one : depthOfToken s.token = 1 := by
    cases token : s.token with
    | integer v => exact absurd (startsDigit_of_mem mem token) other
    | _ => rfl
  rw [Written, if_neg other, one]
  decide

theorem forall₂_depths_iff (lexed : tokensOf text input = .ok tokens)
    (parsed : statementsOf text tokens = .ok stmts)
    (fit : ∀ s ∈ sightingsOf text input, StartsDigit s.run → s.lead = [] ∧ Readable s.run) :
    List.Forall₂ Written (depthClauses text input tokens) (depthsOf (Lowering.lowerAst stmts).ops) ↔
      ∀ s ∈ depthClauses text input tokens, StartsDigit s.run → Shallow s.run := by
  rw [depthsOf_statements lexed parsed, List.forall₂_map_right_iff, List.forall₂_same]
  refine forall₂_congr fun s mem => ?_
  have sighted := mem_sightings_of_clause mem
  by_cases digit : StartsDigit s.run
  · obtain ⟨lead, readable⟩ := fit s sighted digit
    rw [Written, if_pos digit, imp_iff_right digit]
    exact written_iff (isNumber_of_sighted sighted digit) lead readable
  · exact iff_of_true (written_of_not_digit sighted digit) fun h => absurd h digit

/-- The clauses of the compiled traversals are those of the depths that are left without dead code. -/
theorem forall₂_compiledClauses {program : KirProgram} {clauses : List Sighting}
    (written : List.Forall₂ Written clauses (depthsOf program.ops)) :
    List.Forall₂ Written (compiledClauses clauses program) (depthsOf (Optimizer.optimize program).ops) := by
  rw [depthsOf_optimize]
  unfold compiledClauses traversals
  generalize keptTraversal program = kept
  generalize program.ops = ops at written ⊢
  induction ops generalizing clauses with
  | nil =>
    cases written
    exact .nil
  | cons op ops ih =>
    cases depth : op.depth with
    | none =>
      rw [depthsOf_cons, depth] at written
      have rest := ih written
      rw [List.filter_cons_of_neg (by simp [depth])]
      cases left : kept op with
      | true => rwa [List.filter_cons_of_pos left, depthsOf_cons, depth]
      | false => rwa [List.filter_cons_of_neg (by simp [left])]
    | some d =>
      rw [depthsOf_cons, depth] at written
      obtain ⟨s, clauses, rfl⟩ : ∃ s clauses', clauses = s :: clauses' := by
        cases written
        exact ⟨_, _, rfl⟩
      obtain ⟨here, rest⟩ := List.forall₂_cons.1 written
      rw [List.filter_cons_of_pos (by simp [depth]), List.zip_cons_cons]
      cases left : kept op with
      | true =>
        simp only [List.filter_cons, left, if_true, depthsOf_cons, depth]
        exact .cons here (ih rest)
      | false =>
        simp only [List.filter_cons, left, Bool.false_eq_true, if_false]
        exact ih rest

theorem written_unique {s : Sighting} {d d' : ℤ} (h : Written s d) (h' : Written s d') : d = d' := by
  unfold Written at h h'
  split_ifs at h h'
  · rw [h] at h'
    exact_mod_cast Option.some.inj h'
  · rw [h, h']

/-- The depths of a compiled program are the written ones exactly if no traversal is cut down. -/
theorem compiled_iff {est : QueryOptimizer.Estimates} {clauses : List Sighting}
    (written : List.Forall₂ Written clauses (depthsOf (Lowering.lowerAst stmts).ops)) :
    (∃ placed, placed.Perm (compiledClauses clauses (Lowering.lowerAst stmts)) ∧
        List.Forall₂ Written placed (depthsOf (compileKir est stmts).ops)) ↔
      QueryOptimizer.Uncut est (QueryOptimizer.prunedPipe (Optimizer.optimize (Lowering.lowerAst stmts))) := by
  have left := forall₂_compiledClauses written
  rw [← QueryOptimizer.depthsOf_optimizeQuery_perm_iff]
  constructor
  · rintro ⟨placed, perm, all⟩
    obtain ⟨depths, all', same⟩ := List.perm_comp_forall₂ perm left
    have unique : Relator.RightUnique Written := fun _ _ _ => written_unique
    show (depthsOf (compileKir est stmts).ops).Perm _
    rw [unique.forall₂ all all']
    exact same
  · intro perm
    obtain ⟨placed, all, same⟩ := List.perm_comp_forall₂ perm left.flip
    exact ⟨placed, same, all.flip⟩

/-- The numbers of a source mean what they say exactly when they fit. -/
theorem numbersMean_iff (reads : ReadsDecimals text) (est : QueryOptimizer.Estimates) (input : String) :
    NumbersMean text est input ↔ NumbersFit text est input := by
  have runs : (∀ s ∈ sightingsOf text input, StartsDigit s.run → Denotes s.whole s.token) ↔
      ∀ s ∈ sightingsOf text input, StartsDigit s.run → s.lead = [] ∧ Readable s.run :=
    forall₂_congr fun s mem => forall_congr' fun digit => denotes_iff reads (isNumber_of_sighted mem digit) digit
  constructor
  · intro mean
    refine ⟨fun tokens lexed => runs.1 (mean.tokens tokens lexed), fun tokens stmts lexed parsed => ?_,
      fun tokens stmts lexed parsed => ?_⟩
    · exact (forall₂_depths_iff lexed parsed (runs.1 (mean.tokens tokens lexed))).1
        (mean.depths tokens stmts lexed parsed)
    · obtain ⟨placed, perm, all, -⟩ := mean.compiled tokens stmts lexed parsed
      exact (compiled_iff (mean.depths tokens stmts lexed parsed)).1 ⟨placed, perm, all⟩
  · intro fit
    have depths : ∀ tokens stmts, tokensOf text input = .ok tokens → statementsOf text tokens = .ok stmts →
        List.Forall₂ Written (depthClauses text input tokens) (depthsOf (Lowering.lowerAst stmts).ops) :=
      fun tokens stmts lexed parsed =>
        (forall₂_depths_iff lexed parsed (fit.runs tokens lexed)).2 (fit.depths tokens stmts lexed parsed)
    refine ⟨fun tokens lexed => runs.2 (fit.runs tokens lexed), depths, fun tokens stmts lexed parsed => ?_⟩
    obtain ⟨placed, perm, all⟩ :=
      (compiled_iff (depths tokens stmts lexed parsed)).2 (fit.uncut tokens stmts lexed parsed)
    exact ⟨placed, perm, all, by rwa [loadedDepths_compileKir]⟩

end Meaning

/-- The number with one dot is read as the decimal that it is. -/
def readDecimal (run : List Char) : Option F64 :=
  if run.count '.' = 1 then
    (writtenNumber run).map fun q =>
      if q < floatOverflow then
        let places := (run.dropWhile (· ≠ '.')).length - 1
        .finite ⟨false, Nat.ofDigitChars 10 (run.filter (· ≠ '.')) 0, -places⟩
      else .infinite false
  else none

/-- The characters of ASCII, and decimals. -/
def decimalText : Text := { asciiText with parseFloat := fun s => readDecimal s.toList }

theorem readsDecimals_decimalText : ReadsDecimals decimalText := by
  constructor
  · intro run _ _ q written dot
    have one : run.count '.' = 1 := by
      rcases count_dot dot with one | two
      · exact one
      · rw [Option.mem_def, writtenNumber_points two] at written
        exact nomatch written
    show ∃ x, readDecimal (String.ofList run).toList = some x ∧ _
    rw [String.toList_ofList, readDecimal, if_pos one, Option.mem_def.1 written]
    refine ⟨_, rfl, fun small => ⟨_, if_pos small, ?_⟩, fun large => if_neg (not_lt.2 large)⟩
    have value : decimalValue ⟨false, Nat.ofDigitChars 10 (run.filter (· ≠ '.')) 0,
        -((run.dropWhile (· ≠ '.')).length - 1 : ℕ)⟩ = q := by
      unfold writtenNumber at written
      rw [one] at written
      rw [← Option.some.inj written]
      simp [decimalValue, div_eq_mul_inv]
    rw [value, sub_self, abs_zero]
    exact le_max_of_le_right (div_nonneg zero_le_one (pow_nonneg zero_le_two _))
  · intro run _ two
    show readDecimal (String.ofList run).toList = none
    rw [String.toList_ofList, readDecimal, if_neg (by omega)]

/-- The estimates without rounding. -/
def exactEstimates : QueryOptimizer.Estimates where
  exceeds depth limit := 0 ≤ depth && 2 * limit < 5 ^ depth.toNat
  optimalDepth limit := Nat.clog 5 limit

/-- A traversal before a limit that it does not reach. -/
def limited : String := "FROM page\nTRAVERSE cites DEPTH 3\nLIMIT 100\nSIMILAR TO other"

/-- A depth of three arrives, and the limit does not cut it down. -/
theorem numbersMean_limited : NumbersMean decimalText exactEstimates limited := by
  have known : tokensOf decimalText limited = .ok [(.fromKw, 1, 1), (.ident "page", 1, 6), (.newline, 1, 10),
    (.traverse, 2, 1), (.ident "cites", 2, 10), (.depth, 2, 16), (.integer 3, 2, 22), (.newline, 2, 23),
    (.limit, 3, 1), (.integer 100, 3, 7), (.newline, 3, 10), (.similar, 4, 1), (.toKw, 4, 9), (.ident "other", 4, 12),
    (.eof, 4, 17)] := by decide +kernel
  refine (numbersMean_iff readsDecimals_decimalText _ _).2 ⟨fun _ _ => by decide +kernel,
    fun tokens _ lexed _ => ?_, fun tokens stmts lexed parsed => ?_⟩
  · rw [← Except.ok.inj (known.symm.trans lexed)]
    decide +kernel
  · rw [← Except.ok.inj (known.symm.trans lexed)] at parsed
    have statements : stmts = [.fromSource (.ident "page"), .traverse (.ident "cites") (some 3), .limit 100,
        .similar (.ident "other")] :=
      Except.ok.inj (parsed.symm.trans (by decide +kernel))
    rw [statements]
    by_contra cut
    exact absurd (QueryOptimizer.pruneTraversals_of_not_uncut cut).1 (by decide +kernel)

/-- A literal of twenty digits is read as zero. -/
theorem not_numbersMean : ¬NumbersMean decimalText exactEstimates "LIMIT 99999999999999999999" := by
  intro mean
  have known : tokensOf decimalText "LIMIT 99999999999999999999" = .ok [(.limit, 1, 1), (.integer 0, 1, 7),
    (.eof, 1, 27)] := by decide +kernel
  have zero := mean.tokens _ known ⟨.integer 0, [], "99999999999999999999".toList⟩ (by decide +kernel)
    (by decide +kernel)
  have different : writtenNumber "99999999999999999999".toList ≠ some ((0 : ℤ) : ℚ) := by decide +kernel
  exact different zero.2

end Tdxl

end TORdex
