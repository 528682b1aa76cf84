import Mathlib.Data.List.TakeWhile
import TORdex.Lib.Ensures
import TORdex.Tdxl.Lexer
import TORdex.Tdxl.Parser

/-!
# The front end is total

Every token of the lexer but `EOF` takes a character, and `EOF` comes last.  The parser never goes past it:
`parse_value` fails on it, and everything else advances over a token that it has looked at.
-/

namespace TORdex.Tdxl

/-- `EOF` is the last token and no other. -/
def Terminated (tokens : List Spanned) : Prop :=
  ∃ init last, tokens = init ++ [last] ∧ last.1 = .eof ∧ ∀ tok ∈ init, tok.1 ≠ .eof

/-! ## The lexer -/

namespace Lexer

variable {text : Text} {lx lx' : Lexer}

theorem skipWhitespace_le (lx : Lexer) : lx.skipWhitespace.rest.length ≤ lx.rest.length := by
  fun_induction skipWhitespace lx with
  | case1 => exact le_rfl
  | case2 lx c peek _ ih => exact ih.trans (advance_shorter peek).le
  | case3 lx peek _ ih => exact ih.trans (takeWhile_shorter peek (by decide)).le
  | case4 => exact le_rfl

theorem readStringLoop_le {s s' : List Char} (h : readStringLoop s lx = .ok (s', lx')) :
    lx'.rest.length ≤ lx.rest.length := by
  fun_induction readStringLoop s lx with
  | case1 => exact nomatch h
  | case2 s lx peek =>
    obtain ⟨-, rfl⟩ := Prod.mk.inj (Except.ok.inj h)
    exact (advance_shorter peek).le
  | case3 => exact nomatch h
  | case4 s lx c peek' peek _ ih =>
    exact (ih h).trans ((advance_shorter peek').trans (advance_shorter peek)).le
  | case5 s lx c peek _ _ ih => exact (ih h).trans (advance_shorter peek).le

theorem readString_shorter {c : Char} {line col : ℕ} {tok : Spanned} (peek : lx.peek = some c)
    (h : lx.readString line col = .ok (tok, lx')) : lx'.rest.length < lx.rest.length := by
  unfold readString at h
  cases hs : readStringLoop [] lx.advance with
  | error e =>
    rw [hs] at h
    exact nomatch h
  | ok r =>
    rw [hs] at h
    obtain ⟨-, rfl⟩ := Prod.mk.inj (Except.ok.inj h)
    exact (readStringLoop_le hs).trans_lt (advance_shorter peek)

theorem readRawString_shorter {c : Char} {line col : ℕ} {tok : Spanned} (peek : lx.peek = some c)
    (h : lx.readRawString line col = .ok (tok, lx')) : lx'.rest.length < lx.rest.length := by
  have loop : (lx.advance.takeWhile (· ≠ '\'')).2.rest.length < lx.rest.length := by
    rw [takeWhile_rest]
    exact (List.dropWhile_sublist _).length_le.trans_lt (advance_shorter peek)
  simp only [readRawString] at h
  cases hp : (lx.advance.takeWhile (· ≠ '\'')).2.peek with
  | none =>
    rw [hp] at h
    exact nomatch h
  | some c' =>
    rw [hp] at h
    obtain ⟨-, rfl⟩ := Prod.mk.inj (Except.ok.inj h)
    exact (advance_shorter hp).trans loop

theorem readOperator_shorter {c : Char} {line col : ℕ} {long short : Token} (peek : lx.peek = some c) :
    (lx.readOperator long short line col).2.rest.length < lx.rest.length := by
  have one := advance_shorter peek
  unfold readOperator
  split_ifs
  · show lx.advance.advance.rest.length < _
    rw [advance_rest, List.length_tail]
    omega
  · exact one

theorem readSymbol_shorter {c : Char} {line col : ℕ} {tok : Spanned} (peek : lx.peek = some c)
    (h : lx.readSymbol c line col = .ok (tok, lx')) : lx'.rest.length < lx.rest.length := by
  have one := advance_shorter peek
  have two : lx.advance.advance.rest.length < lx.rest.length := by
    rw [advance_rest, List.length_tail]
    omega
  unfold readSymbol at h
  split at h
  case h_10 | h_12 | h_13 =>
    have := congrArg (fun r => r.2.rest.length) (Except.ok.inj h)
    exact this ▸ readOperator_shorter peek
  case h_11 =>
    split_ifs at h
    obtain ⟨-, rfl⟩ := Prod.mk.inj (Except.ok.inj h)
    exact two
  case h_14 => exact nomatch h
  all_goals
    obtain ⟨-, rfl⟩ := Prod.mk.inj (Except.ok.inj h)
    exact one

/-- A token other than `EOF` takes a character. -/
theorem nextToken_shorter {tok : Spanned} (h : lx.nextToken text = .ok (tok, lx')) (more : tok.1 ≠ .eof) :
    lx'.rest.length < lx.rest.length := by
  refine lt_of_lt_of_le ?_ (skipWhitespace_le lx)
  simp only [nextToken] at h
  cases peek : lx.skipWhitespace.peek with
  | none =>
    rw [peek] at h
    obtain ⟨rfl, -⟩ := Prod.mk.inj (Except.ok.inj h)
    exact absurd rfl more
  | some c =>
    simp only [peek] at h
    split_ifs at h with newline digit quote raw word
    · obtain ⟨-, rfl⟩ := Prod.mk.inj (Except.ok.inj h)
      exact advance_shorter peek
    · have := congrArg (fun r => r.2.rest.length) (Except.ok.inj h)
      refine this ▸ ?_
      have loop := takeWhile_shorter (p := fun c => c.isDigit || c = '.') peek (by simp [digit])
      simp only [readNumber]
      split_ifs <;> exact loop
    · exact readString_shorter peek h
    · exact readRawString_shorter peek h
    · have := congrArg (fun r => r.2.rest.length) (Except.ok.inj h)
      refine this ▸ ?_
      exact takeWhile_shorter peek (isWordChar_of_start word)
    · exact readSymbol_shorter peek h

/-- With more fuel than characters, the loop of `tokenize` ends in the same way. -/
theorem tokenizeLoop_ends (text : Text) (lx : Lexer) (tokens : List Spanned) :
    ∃ r : Except Error (List Spanned), ∀ fuel, lx.rest.length < fuel →
      tokenizeLoop text fuel tokens lx = r.mapError .error := by
  induction hn : lx.rest.length using Nat.strong_induction_on generalizing lx tokens with
  | _ n ih =>
    cases next : lx.nextToken text with
    | error e =>
      refine ⟨.error e, fun fuel enough => ?_⟩
      obtain ⟨fuel, rfl⟩ := Nat.exists_eq_add_one_of_ne_zero (Nat.ne_zero_of_lt enough)
      rw [tokenizeLoop, next]
      rfl
    | ok r =>
      obtain ⟨tok, lx'⟩ := r
      by_cases eof : tok.1 = .eof
      · refine ⟨.ok (tokens ++ [tok]), fun fuel enough => ?_⟩
        obtain ⟨fuel, rfl⟩ := Nat.exists_eq_add_one_of_ne_zero (Nat.ne_zero_of_lt enough)
        rw [tokenizeLoop, next]
        exact if_pos eof
      · have shorter := nextToken_shorter next eof
        obtain ⟨r, ends⟩ := ih _ (hn ▸ shorter) lx' (tokens ++ [tok]) rfl
        refine ⟨r, fun fuel enough => ?_⟩
        obtain ⟨fuel, rfl⟩ := Nat.exists_eq_add_one_of_ne_zero (Nat.ne_zero_of_lt enough)
        rw [tokenizeLoop, next]
        show (if tok.1 = .eof then _ else _) = _
        rw [if_neg eof]
        exact ends fuel (by omega)

theorem tokenizeLoop_terminated {fuel : ℕ} {tokens all : List Spanned}
    (before : ∀ tok ∈ tokens, tok.1 ≠ .eof) (h : tokenizeLoop text fuel tokens lx = .ok all) :
    Terminated all := by
  induction fuel generalizing tokens lx with
  | zero => exact nomatch h
  | succ fuel ih =>
    rw [tokenizeLoop] at h
    cases next : lx.nextToken text with
    | error e =>
      rw [next] at h
      exact nomatch h
    | ok r =>
      rw [next] at h
      by_cases eof : r.1.1 = .eof
      · rw [← Except.ok.inj ((if_pos eof).symm.trans h)]
        exact ⟨tokens, r.1, rfl, eof, before⟩
      · refine ih ?_ ((if_neg eof).symm.trans h)
        intro tok ht
        rcases List.mem_append.1 ht with ht | ht
        · exact before tok ht
        · rw [List.mem_singleton.1 ht]
          exact eof

end Lexer

/-! ## The parser -/

/-- The front end returns an error. -/
def IsError (stop : Stop) : Prop := ∃ e, stop = .error e

namespace Parser

open Ast

variable {text : Text} {p p' p'' : Parser}

/-- Not past the last token. -/
structure Ready (p : Parser) : Prop where
  terminated : Terminated p.tokens
  inside : p.pos < p.tokens.length

/-- At least `n` tokens further, and not past the last token. -/
structure Ahead (n : ℕ) (p p' : Parser) : Prop where
  tokens : p'.tokens = p.tokens
  further : p.pos + n ≤ p'.pos
  inside : p'.pos < p'.tokens.length

theorem Ahead.ready {n : ℕ} (h : Ahead n p p') (ready : p.Ready) : p'.Ready :=
  ⟨h.tokens ▸ ready.terminated, h.inside⟩

theorem Ahead.trans {m n : ℕ} (h : Ahead m p p') (h' : Ahead n p' p'') : Ahead (m + n) p p'' := by
  refine ⟨h'.tokens.trans h.tokens, ?_, h'.inside⟩
  have := h.further
  have := h'.further
  omega

theorem Ready.ahead (ready : p.Ready) : Ahead 0 p p := ⟨rfl, le_rfl, ready.inside⟩

/-- The code ends at least `n` tokens further, or with an error. -/
abbrev Goes (n : ℕ) {α : Type} (m : Parse α) (p : Parser) : Prop :=
  Ensures m p (fun _ p' => Ahead n p p') IsError

theorem Goes.zero {n : ℕ} {α : Type} {code : Parse α} (h : Goes n code p) : Goes 0 code p :=
  h.mono fun _ _ ahead => ⟨ahead.tokens, (Nat.le_add_right _ _).trans ahead.further, ahead.inside⟩

theorem Goes.bind {n : ℕ} {α β : Type} {code : Parse α} {next : α → Parse β} (ready : p.Ready)
    (h : Goes n code p) (h' : ∀ a p', p'.Ready → Goes 0 (next a) p') : Goes n (code >>= next) p := by
  refine Ensures.bind h fun a p' ahead => ?_
  exact (h' a p' (ahead.ready ready)).mono fun _ _ ahead' => ahead.trans ahead'

theorem goes_pure {α : Type} {a : α} (ready : p.Ready) : Goes 0 (pure a) p := ready.ahead

theorem ensures_fail {α : Type} {linecol : ℕ × ℕ} {message : String} {Q : α → Parser → Prop} :
    Ensures (fail linecol message) p Q IsError := ⟨_, rfl⟩

theorem goes_get {n : ℕ} {α : Type} {next : Parser → Parse α} (h : Goes n (next p) p) :
    Goes n (get >>= next) p := h

/-- The token at the position of a ready parser, and whether the next position is one. -/
theorem Ready.token (ready : p.Ready) : ∃ tok, p.tokens[p.pos]? = some tok ∧
    (tok.1 ≠ .eof → p.pos + 1 < p.tokens.length) := by
  have inside := ready.inside
  refine ⟨p.tokens[p.pos], List.getElem?_eq_getElem inside, fun more => ?_⟩
  obtain ⟨init, last, split, eof, -⟩ := ready.terminated
  by_contra notLast
  apply more
  have position : p.pos = init.length := by
    rw [split, List.length_append, List.length_singleton] at inside notLast
    omega
  simp [split, position, eof]

theorem goes_advance (ready : p.Ready) (more : p.peek ≠ .eof) : Goes 1 advance p := by
  obtain ⟨tok, here, next⟩ := ready.token
  have hp : p.peek = tok.1 := by
    unfold peek
    rw [here]
    rfl
  unfold Goes Ensures advance
  rw [here]
  exact ⟨rfl, le_rfl, next (hp ▸ more)⟩

theorem goes_parseValue (ready : p.Ready) : Goes 1 (parseValue text) p := by
  obtain ⟨tok, here, next⟩ := ready.token
  have run : advance p = .ok (tok, { p with pos := p.pos + 1 }) := by
    unfold advance
    rw [here]
  unfold Goes
  unfold parseValue
  refine Ensures.bind (Q := fun a p' => a = tok ∧ p' = { p with pos := p.pos + 1 }) ?_ ?_
  · unfold Ensures
    rw [run]
    exact ⟨rfl, rfl⟩
  · rintro tok _ ⟨rfl, rfl⟩
    have ahead : tok.1 ≠ .eof → Ahead 1 p { p with pos := p.pos + 1 } :=
      fun more => ⟨rfl, le_rfl, next more⟩
    split
    case h_7 => exact ensures_fail
    all_goals exact ensures_pure (ahead (by simp [*]))

theorem ne_eof_of_check {keyword : Token} (found : p.check keyword = true)
    (more : keyword.discriminant ≠ Token.eof.discriminant) : p.peek ≠ .eof := by
  intro eof
  rw [check, eof, decide_eq_true_eq] at found
  exact more found.symm

theorem goes_expectOk {word : Token} (ready : p.Ready)
    (more : word.discriminant ≠ Token.eof.discriminant) : Goes 0 (expectOk text word) p := by
  by_cases found : p.check word = true
  · have run : expect text word p = advance p := by
      show (if p.check word = true then advance else _) p = _
      rw [if_pos found]
    have step := goes_advance ready (ne_eof_of_check found more)
    unfold Goes Ensures expectOk
    rw [run]
    unfold Goes Ensures at step
    cases hadv : advance p with
    | ok r =>
      rw [hadv] at step
      exact ⟨step.tokens, Nat.le_of_succ_le step.further, step.inside⟩
    | error stop =>
      rw [hadv] at step
      obtain ⟨e, rfl⟩ := step
      exact ready.ahead
  · have run : ∃ e, expect text word p = .error (.error e) := by
      show ∃ e, (if p.check word = true then advance else _) p = _
      rw [if_neg found]
      exact ⟨_, rfl⟩
    obtain ⟨e, run⟩ := run
    unfold Goes Ensures expectOk
    rw [run]
    exact ready.ahead

theorem goes_parseBinOp (ready : p.Ready) (more : p.peek ≠ .eof) : Goes 1 (parseBinOp text) p := by
  refine goes_get (Goes.bind ready (goes_advance ready more) fun tok p ready => ?_)
  split
  case h_9 => exact goes_get ensures_fail
  all_goals exact goes_pure ready

theorem goes_parseBinExpr (ready : p.Ready) : Goes 1 (parseBinExpr text) p := by
  refine Goes.bind ready (goes_parseValue ready) fun lhs p ready => goes_get ?_
  split_ifs with op
  · have more : p.peek ≠ .eof := by
      intro eof
      simp [isBinOp, eof] at op
    refine Goes.bind ready (goes_parseBinOp ready more).zero fun op p ready => ?_
    exact Goes.bind ready (goes_parseValue ready).zero fun rhs p ready => goes_pure ready
  · exact goes_pure ready

theorem goes_parseOption {keyword : Token} (ready : p.Ready)
    (more : keyword.discriminant ≠ Token.eof.discriminant) : Goes 0 (parseOption text keyword) p := by
  refine goes_get ?_
  split_ifs with found
  · have step := goes_advance ready (ne_eof_of_check found more)
    refine Goes.bind ready step.zero fun _ p ready => ?_
    exact Goes.bind ready (goes_parseValue ready).zero fun value p ready => goes_pure ready
  · exact goes_pure ready

theorem goes_parseArgument {make : Ast.Value → Stmt} (ready : p.Ready) (more : p.peek ≠ .eof) :
    Goes 1 (parseArgument text make) p := by
  refine Goes.bind ready (goes_advance ready more) fun _ p ready => ?_
  exact Goes.bind ready (goes_parseValue ready).zero fun value p ready => goes_pure ready

theorem goes_parseArgumentAfter {word : Token} {make : Ast.Value → Stmt} (ready : p.Ready)
    (more : p.peek ≠ .eof) (other : word.discriminant ≠ Token.eof.discriminant) :
    Goes 1 (parseArgumentAfter text word make) p := by
  refine Goes.bind ready (goes_advance ready more) fun _ p ready => ?_
  refine Goes.bind ready (goes_expectOk ready other) fun _ p ready => ?_
  exact Goes.bind ready (goes_parseValue ready).zero fun value p ready => goes_pure ready

theorem goes_parseCondition {make : BinExpr → Stmt} (ready : p.Ready) (more : p.peek ≠ .eof) :
    Goes 1 (parseCondition text make) p := by
  refine Goes.bind ready (goes_advance ready more) fun _ p ready => ?_
  exact Goes.bind ready (goes_parseBinExpr ready).zero fun expr p ready => goes_pure ready

theorem goes_parseTraverse (ready : p.Ready) (more : p.peek ≠ .eof) :
    Goes 1 (parseTraverse text) p := by
  have other : Token.depth.discriminant ≠ Token.eof.discriminant := by decide
  refine Goes.bind ready (goes_advance ready more) fun _ p ready => ?_
  refine Goes.bind ready (goes_parseValue ready).zero fun relation p ready => ?_
  exact Goes.bind ready (goes_parseOption ready other) fun depth p ready => goes_pure ready

theorem goes_parseTimeline (ready : p.Ready) (more : p.peek ≠ .eof) :
    Goes 1 (parseTimeline text) p := by
  have other : Token.fromKw.discriminant ≠ Token.eof.discriminant := by decide
  have other' : Token.toKw.discriminant ≠ Token.eof.discriminant := by decide
  refine Goes.bind ready (goes_advance ready more) fun _ p ready => ?_
  refine Goes.bind ready (goes_parseOption ready other) fun start p ready => ?_
  exact Goes.bind ready (goes_parseOption ready other') fun stop p ready => goes_pure ready

theorem goes_parseOrder (ready : p.Ready) : Goes 0 parseOrder p := by
  refine goes_get ?_
  split_ifs with asc desc
  · have step := goes_advance ready (ne_eof_of_check asc (by decide))
    exact Goes.bind ready step.zero fun _ p ready => goes_pure ready
  · have step := goes_advance ready (ne_eof_of_check desc (by decide))
    exact Goes.bind ready step.zero fun _ p ready => goes_pure ready
  · exact goes_pure ready

theorem goes_parseSort (ready : p.Ready) (more : p.peek ≠ .eof) : Goes 1 (parseSort text) p := by
  have other : Token.byKw.discriminant ≠ Token.eof.discriminant := by decide
  refine Goes.bind ready (goes_advance ready more) fun _ p ready => ?_
  refine Goes.bind ready (goes_expectOk ready other) fun _ p ready => ?_
  refine Goes.bind ready (goes_parseValue ready).zero fun field p ready => ?_
  exact Goes.bind ready (goes_parseOrder ready) fun order p ready => goes_pure ready

theorem goes_parseLimit (ready : p.Ready) (more : p.peek ≠ .eof) : Goes 1 (parseLimit text) p := by
  refine Goes.bind ready (goes_advance ready more) fun _ p ready => ?_
  refine Goes.bind ready (goes_parseValue ready).zero fun value p ready => ?_
  split
  · exact goes_pure ready
  · exact goes_get ensures_fail

/-- A statement takes at least one token, and never the last. -/
theorem goes_parseStatement (ready : p.Ready) : Goes 1 (parseStatement text) p := by
  refine goes_get ?_
  have more {tok : Token} (h : p.peek = tok) (other : tok ≠ .eof) : p.peek ≠ .eof := h ▸ other
  split
  case h_1 h | h_6 h | h_14 h | h_15 h => exact goes_parseArgument ready (more h nofun)
  case h_2 h | h_3 h | h_16 h => exact goes_parseCondition ready (more h nofun)
  case h_4 h => exact goes_parseTraverse ready (more h nofun)
  case h_5 h =>
    exact Goes.bind ready (goes_advance ready (more h nofun)) fun _ p ready => goes_pure ready
  case h_7 h | h_8 h | h_9 h | h_13 h =>
    exact goes_parseArgumentAfter ready (more h nofun) (by decide)
  case h_10 h => exact goes_parseTimeline ready (more h nofun)
  case h_11 h => exact goes_parseSort ready (more h nofun)
  case h_12 h => exact goes_parseLimit ready (more h nofun)
  case h_17 => exact Goes.bind ready (goes_parseValue ready) fun value p ready => goes_pure ready
  case h_18 => exact ensures_fail

/-! ## The loop of `parse` -/

/-- What `skip_newlines` advances over. -/
theorem newline_of_skipped {i : ℕ} {tok : Spanned} (ahead : p.pos ≤ i) (before : i < p.skipNewlines.pos)
    (here : p.tokens[i]? = some tok) : tok.1 = .newline := by
  obtain ⟨k, rfl⟩ := Nat.exists_eq_add_of_le ahead
  rw [← List.getElem?_drop] at here
  have inPrefix : k < ((p.tokens.drop p.pos).takeWhile fun tok =>
      tok.1.discriminant = Token.newline.discriminant).length := by
    have : p.skipNewlines.pos = p.pos + _ := rfl
    omega
  have isPrefix := List.takeWhile_prefix (l := p.tokens.drop p.pos) fun tok : Spanned =>
    decide (tok.1.discriminant = Token.newline.discriminant)
  have same : _ = some tok := (List.prefix_iff_getElem?.1 isPrefix k inPrefix).symm.trans here
  have newline := List.mem_takeWhile_imp (List.getElem_mem inPrefix)
  rw [Option.some.inj same] at newline
  exact Token.newline_of_discriminant (of_decide_eq_true newline)

/-- The last token is `EOF`. -/
theorem Ready.last (ready : p.Ready) {tok : Spanned} (here : p.tokens[p.tokens.length - 1]? = some tok) :
    tok.1 = .eof := by
  obtain ⟨init, last, split, eof, -⟩ := ready.terminated
  rw [split, List.length_append, List.length_singleton, Nat.add_sub_cancel,
    List.getElem?_concat_length] at here
  rwa [← Option.some.inj here]

/-- No other token is `EOF`. -/
theorem Ready.last_of_eof (ready : p.Ready) (eof : p.check .eof = true) :
    p.pos + 1 = p.tokens.length := by
  have inside := ready.inside
  obtain ⟨init, last, split, -, others⟩ := ready.terminated
  by_contra notLast
  have early : p.pos < init.length := by
    rw [split, List.length_append, List.length_singleton] at inside notLast
    omega
  have here : p.peek = init[p.pos].1 := by
    unfold peek
    rw [split, List.getElem?_append_left early, List.getElem?_eq_getElem early]
    rfl
  apply others init[p.pos] (List.getElem_mem early)
  rw [← here]
  exact Token.eof_of_discriminant (of_decide_eq_true eof)

theorem Ready.skipNewlines (ready : p.Ready) : Ahead 0 p p.skipNewlines := by
  refine ⟨rfl, Nat.le_add_right _ _, ?_⟩
  by_contra outside
  have inside := ready.inside
  have further : p.skipNewlines.tokens.length = p.tokens.length := rfl
  have last : p.tokens.length - 1 < p.tokens.length := by omega
  have newline := newline_of_skipped (by omega) (by omega) (List.getElem?_eq_getElem last)
  rw [ready.last (List.getElem?_eq_getElem last)] at newline
  exact nomatch newline

/-- With more fuel than tokens left, the loop of `parse` ends in the same way, and not with a panic. -/
theorem parseLoop_ends (text : Text) (ready : p.Ready) (statements : List Stmt) :
    ∃ r : Except Error (List Stmt), ∀ fuel, p.tokens.length - p.pos < fuel →
      parseLoop text fuel statements p = r.mapError .error := by
  induction hn : p.tokens.length - p.pos using Nat.strong_induction_on generalizing p statements with
  | _ n ih =>
    have skipped := ready.skipNewlines
    have step : Goes 1 (parseStatement text) p.skipNewlines := goes_parseStatement (skipped.ready ready)
    by_cases eof : p.skipNewlines.check .eof = true
    · refine ⟨.ok statements, fun fuel enough => ?_⟩
      obtain ⟨fuel, rfl⟩ := Nat.exists_eq_add_one_of_ne_zero (Nat.ne_zero_of_lt enough)
      exact if_pos eof
    · cases hs : parseStatement text p.skipNewlines with
      | error stop =>
        obtain ⟨e, rfl⟩ := step.of_error hs
        refine ⟨.error e, fun fuel enough => ?_⟩
        obtain ⟨fuel, rfl⟩ := Nat.exists_eq_add_one_of_ne_zero (Nat.ne_zero_of_lt enough)
        rw [parseLoop, if_neg eof, hs]
        rfl
      | ok r =>
        have ahead := skipped.trans (step.of_ok hs)
        have inside := ahead.inside
        have further := ahead.further
        rw [ahead.tokens] at inside
        obtain ⟨r', ends⟩ := ih (r.2.tokens.length - r.2.pos) (by rw [ahead.tokens]; omega)
          (ahead.ready ready) (statements ++ [r.1]) rfl
        refine ⟨r', fun fuel enough => ?_⟩
        obtain ⟨fuel, rfl⟩ := Nat.exists_eq_add_one_of_ne_zero (Nat.ne_zero_of_lt enough)
        rw [parseLoop, if_neg eof, hs]
        exact ends fuel (by rw [ahead.tokens]; omega)

/-- The calls of `parse_statement` in the loop of `parse`: the statement, and the positions before and
after. -/
def calls (text : Text) : ℕ → Parser → List (Stmt × ℕ × ℕ)
  | 0, _ => []
  | fuel + 1, p =>
    let p := p.skipNewlines
    if p.check .eof then []
    else
      match parseStatement text p with
      | .error _ => []
      | .ok (stmt, p') => (stmt, p.pos, p'.pos) :: calls text fuel p'

/-- A call of `parse_statement` advances over position `i`. -/
def Consumes (i : ℕ) (call : Stmt × ℕ × ℕ) : Prop := call.2.1 ≤ i ∧ i < call.2.2

instance (i : ℕ) (call : Stmt × ℕ × ℕ) : Decidable (Consumes i call) :=
  inferInstanceAs (Decidable (_ ∧ _))

/-- A round of the loop: it ends at `EOF`, or one call of `parse_statement` comes before the rest. -/
theorem parseLoop_round {fuel : ℕ} {statements all : List Stmt}
    (h : parseLoop text (fuel + 1) statements p = .ok all) :
    (p.skipNewlines.check .eof = true ∧ calls text (fuel + 1) p = [] ∧ all = statements) ∨
      ∃ r, parseStatement text p.skipNewlines = .ok r ∧
        calls text (fuel + 1) p = (r.1, p.skipNewlines.pos, r.2.pos) :: calls text fuel r.2 ∧
        parseLoop text fuel (statements ++ [r.1]) r.2 = .ok all := by
  rw [parseLoop] at h
  rw [calls]
  by_cases eof : p.skipNewlines.check .eof = true
  · simp only [if_pos eof] at h ⊢
    exact .inl ⟨eof, trivial, (Except.ok.inj h).symm⟩
  · simp only [if_neg eof] at h ⊢
    cases hs : parseStatement text p.skipNewlines with
    | error stop =>
      rw [hs] at h
      exact nomatch h
    | ok r =>
      rw [hs] at h
      exact .inr ⟨r, rfl, rfl, h⟩

theorem parseLoop_calls {fuel : ℕ} {statements all : List Stmt}
    (h : parseLoop text fuel statements p = .ok all) :
    all = statements ++ (calls text fuel p).map (·.1) := by
  induction fuel generalizing p statements with
  | zero => exact nomatch h
  | succ fuel ih =>
    rcases parseLoop_round h with ⟨-, none, rfl⟩ | ⟨r, -, more, rest⟩
    · rw [none, List.map_nil, List.append_nil]
    · rw [more, ih rest, List.append_assoc]
      rfl

/-- Every token ahead but newlines and the last one is consumed once, and none before. -/
theorem countP_calls {fuel i : ℕ} {statements all : List Stmt} {tok : Spanned} (ready : p.Ready)
    (h : parseLoop text fuel statements p = .ok all) (here : p.tokens[i]? = some tok)
    (word : tok.1 ≠ .newline) (notLast : i + 1 ≠ p.tokens.length) :
    (calls text fuel p).countP (Consumes i) = if p.pos ≤ i then 1 else 0 := by
  have inside := (List.getElem?_eq_some_iff.1 here).1
  induction fuel generalizing p statements with
  | zero => exact nomatch h
  | succ fuel ih =>
    have skipped := ready.skipNewlines
    have step : Goes 1 (parseStatement text) p.skipNewlines := goes_parseStatement (skipped.ready ready)
    have further := skipped.further
    have notSkipped : p.pos ≤ i → p.skipNewlines.pos ≤ i := by
      intro ahead
      by_contra before
      exact word (newline_of_skipped ahead (by omega) here)
    rcases parseLoop_round h with ⟨eof, none, -⟩ | ⟨r, hs, more, rest⟩
    · have last := (skipped.ready ready).last_of_eof eof
      rw [skipped.tokens] at last
      rw [none, if_neg (by omega)]
      rfl
    · have moved := step.of_ok hs
      have ahead := skipped.trans moved
      have later := moved.further
      rw [more, List.countP_cons, ih (ahead.ready ready) rest (ahead.tokens ▸ here) (ahead.tokens ▸ notLast)
        (ahead.tokens ▸ inside)]
      by_cases consumed : Consumes i (r.1, p.skipNewlines.pos, r.2.pos)
      · have inside : p.skipNewlines.pos ≤ i ∧ i < r.2.pos := consumed
        rw [if_pos (decide_eq_true consumed)]
        split_ifs <;> omega
      · have outside : ¬(p.skipNewlines.pos ≤ i ∧ i < r.2.pos) := consumed
        rw [if_neg (mt of_decide_eq_true consumed)]
        split_ifs <;> omega

end Parser

/-- The lexer ends on every source, with tokens of which `EOF` is the last or with an error; on its tokens
the parser ends, with an error or with statements, and then each token that is neither a newline nor the
last was consumed by one call of `parse_statement`. -/
theorem frontEnd_total (text : Text) (input : String) :
    (∃ r : Except Error (List Spanned), ∀ fuel, input.length < fuel →
      Lexer.tokenize text fuel (Lexer.new input) = r.mapError .error) ∧
    ∀ fuel tokens, Lexer.tokenize text fuel (Lexer.new input) = .ok tokens →
      Terminated tokens ∧
      (∃ r : Except Error (List Ast.Stmt), ∀ fuel, tokens.length < fuel →
        Parser.parse text fuel (Parser.new tokens) = r.mapError .error) ∧
      ∀ fuel statements, Parser.parse text fuel (Parser.new tokens) = .ok statements →
        (Parser.calls text fuel (Parser.new tokens)).map (·.1) = statements ∧
        ∀ i tok, tokens[i]? = some tok → tok.1 ≠ .newline → i + 1 ≠ tokens.length →
          (Parser.calls text fuel (Parser.new tokens)).countP (Parser.Consumes i) = 1 := by
  constructor
  · obtain ⟨r, ends⟩ := Lexer.tokenizeLoop_ends text (Lexer.new input) []
    refine ⟨r, fun fuel enough => ends fuel ?_⟩
    show input.toList.length < fuel
    rwa [String.length_toList]
  intro fuel tokens lexed
  have terminated := Lexer.tokenizeLoop_terminated (by simp) lexed
  have ready : (Parser.new tokens).Ready := by
    refine ⟨terminated, ?_⟩
    obtain ⟨init, last, split, -⟩ := terminated
    show 0 < tokens.length
    rw [split, List.length_append, List.length_singleton]
    omega
  refine ⟨terminated, Parser.parseLoop_ends text ready [], fun fuel statements parsed => ⟨?_, ?_⟩⟩
  · exact (Parser.parseLoop_calls parsed).symm
  · intro i tok here word notLast
    have once := Parser.countP_calls ready parsed here word notLast
    exact once.trans (if_pos (Nat.zero_le i))

end TORdex.Tdxl
