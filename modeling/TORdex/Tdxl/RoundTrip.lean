import TORdex.Tdxl.LexRender

/-!
# The parser reads the tokens of rendered statements

Each parser takes the tokens of the words that it wrote, whatever their places in the source.
-/

namespace TORdex.Tdxl

open Ast

namespace Parser

variable {text : Text} {p : Parser} {α β : Type}

/-- The tokens ahead, without their places. -/
def upcoming (p : Parser) : List Token := (p.tokens.drop p.pos).map (·.1)

/-- The parser `n` tokens on. -/
def skip (p : Parser) (n : ℕ) : Parser := { p with pos := p.pos + n }

theorem skip_upcoming (p : Parser) (n : ℕ) : (p.skip n).upcoming = p.upcoming.drop n := by
  unfold upcoming skip
  rw [← List.map_drop, List.drop_drop]

theorem getElem?_of_upcoming {t : Token} {after : List Token} (h : p.upcoming = t :: after) :
    ∃ span, p.tokens[p.pos]? = some (t, span) := by
  have head : (p.tokens.drop p.pos)[0]?.map (·.1) = some t := by
    rw [← List.getElem?_map, show (p.tokens.drop p.pos).map (·.1) = t :: after from h]
    rfl
  rw [List.getElem?_drop, Nat.add_zero, Option.map_eq_some_iff] at head
  obtain ⟨tok, here, rfl⟩ := head
  exact ⟨tok.2, here⟩

theorem peek_of_upcoming {t : Token} {after : List Token} (h : p.upcoming = t :: after) : p.peek = t := by
  obtain ⟨span, here⟩ := getElem?_of_upcoming h
  rw [peek, here]
  rfl

theorem check_of_upcoming {t : Token} {after : List Token} (h : p.upcoming = t :: after)
    (expected : Token) : p.check expected = decide (t.discriminant = expected.discriminant) := by
  rw [check, peek_of_upcoming h]

/-- Where the tokens ahead are `ts` and then `after`, the code takes `ts` and returns `a`. -/
def Takes (code : Parse α) (ts : List Token) (a : α) (after : List Token) : Prop :=
  ∀ p : Parser, p.upcoming = ts ++ after → code p = .ok (a, p.skip ts.length)

theorem takes_pure {a : α} {after : List Token} : Takes (pure a) [] a after := fun _ _ => rfl

theorem Takes.bind {code : Parse α} {next : α → Parse β} {ts ts' after : List Token} {a : α} {b : β}
    (h : Takes code ts a (ts' ++ after)) (h' : Takes (next a) ts' b after) :
    Takes (code >>= next) (ts ++ ts') b after := by
  intro p ahead
  have first := h p (by rw [ahead, List.append_assoc])
  have rest : (p.skip ts.length).upcoming = ts' ++ after := by
    rw [skip_upcoming, ahead, List.append_assoc, List.drop_left]
  show Except.bind (code p) (fun r => next r.1 r.2) = _
  rw [first]
  show next a _ = _
  rw [h' _ rest, List.length_append]
  simp [skip, Nat.add_assoc]

theorem takes_advance {next : Parse β} {t : Token} {ts after : List Token} {b : β}
    (h : Takes next ts b after) : Takes (advance >>= fun _ => next) (t :: ts) b after := by
  intro p ahead
  obtain ⟨span, here⟩ := getElem?_of_upcoming ahead
  have rest : (p.skip 1).upcoming = ts ++ after := by
    rw [skip_upcoming, ahead]
    rfl
  show Except.bind (advance p) (fun r => next r.2) = _
  rw [advance, here]
  show next (p.skip 1) = _
  rw [h _ rest]
  simp only [skip, List.length_cons]
  congr 3
  omega

theorem takes_get {next : Parser → Parse β} {ts after : List Token} {b : β}
    (h : ∀ p, p.upcoming = ts ++ after → Takes (next p) ts b after) : Takes (get >>= next) ts b after :=
  fun p ahead => h p ahead p ahead

theorem takes_parseValue (value : Ast.Value) {after : List Token} :
    Takes (parseValue text) [(valueWord value).2] value after := by
  intro p ahead
  obtain ⟨span, here⟩ := getElem?_of_upcoming ahead
  unfold parseValue
  show Except.bind (advance p) _ = _
  rw [advance, here]
  cases value <;> rfl

theorem takes_expectOk {t : Token} {after : List Token} : Takes (expectOk text t) [t] () after := by
  intro p ahead
  obtain ⟨span, here⟩ := getElem?_of_upcoming ahead
  have run : expect text t p = advance p := by
    show (if p.check t = true then advance else _) p = _
    rw [check_of_upcoming ahead, if_pos (by simp)]
  rw [expectOk, run, advance, here]
  rfl

theorem takes_parseOption_some (keyword : Token) (value : Ast.Value) {after : List Token} :
    Takes (parseOption text keyword) [keyword, (valueWord value).2] (some value) after := by
  refine takes_get fun p ahead => ?_
  rw [if_pos (by rw [check_of_upcoming ahead]; simp)]
  exact takes_advance ((takes_parseValue _).bind takes_pure)

theorem takes_parseOption_none {keyword t : Token} {after : List Token}
    (other : t.discriminant ≠ keyword.discriminant) :
    Takes (parseOption text keyword) [] none (t :: after) := by
  refine takes_get fun p ahead => ?_
  rw [if_neg (by rw [check_of_upcoming ahead]; simpa using other)]
  exact takes_pure

theorem takes_parseBinOp {op : BinOp} {after : List Token} :
    Takes (parseBinOp text) [(opWord op).2] op after := by
  refine takes_get fun p _ p' ahead => ?_
  obtain ⟨span, here⟩ := getElem?_of_upcoming ahead
  show Except.bind (advance p') _ = _
  rw [advance, here]
  cases op <;> rfl

theorem takes_parseBinExpr {expr : BinExpr} {after : List Token} (plain : PlainExpr text expr) :
    Takes (parseBinExpr text) ((exprWords expr).map (·.2)) expr (.newline :: after) := by
  cases expr with
  | field field op value =>
    show Takes _ ([(valueWord (.string field)).2] ++ [(opWord op).2, (valueWord value).2]) _ _
    refine (takes_parseValue _).bind (takes_get fun p ahead => ?_)
    have found : p.isBinOp = true := by
      rw [isBinOp, peek_of_upcoming ahead]
      cases op <;> rfl
    rw [if_pos found]
    exact takes_parseBinOp.bind ((takes_parseValue _).bind takes_pure)
  | expr left op right => exact plain.elim
  | value value =>
    show Takes _ ([(valueWord value).2] ++ []) _ _
    refine (takes_parseValue _).bind (takes_get fun p ahead => ?_)
    have other : ¬p.isBinOp = true := by
      rw [isBinOp, peek_of_upcoming ahead]
      decide
    rw [if_neg other]
    exact takes_pure

theorem takes_parseOrder {order : Order} {after : List Token} :
    Takes parseOrder [(orderWord order).2] order after := by
  refine takes_get fun p ahead => ?_
  cases order with
  | asc =>
    rw [if_pos (by rw [check_of_upcoming ahead]; rfl)]
    exact takes_advance takes_pure
  | desc =>
    rw [if_neg (by rw [check_of_upcoming ahead]; decide), if_pos (by rw [check_of_upcoming ahead]; rfl)]
    exact takes_advance takes_pure

theorem asUsize_nat {n : ℕ} (small : (n : ℤ) ≤ i64Max) : asUsize n = n := by
  unfold asUsize
  unfold i64Max at small
  omega

theorem takes_parseArgument {t : Token} {make : Ast.Value → Stmt} {value : Ast.Value} {after : List Token} :
    Takes (parseArgument text make) [t, (valueWord value).2] (make value) after :=
  takes_advance ((takes_parseValue _).bind takes_pure)

theorem takes_parseArgumentAfter {t word : Token} {make : Ast.Value → Stmt} {value : Ast.Value}
    {after : List Token} :
    Takes (parseArgumentAfter text word make) [t, word, (valueWord value).2] (make value) after :=
  takes_advance (takes_expectOk.bind ((takes_parseValue _).bind takes_pure))

theorem takes_parseCondition {t : Token} {make : BinExpr → Stmt} {expr : BinExpr} {after : List Token}
    (plain : PlainExpr text expr) :
    Takes (parseCondition text make) (t :: (exprWords expr).map (·.2)) (make expr) (.newline :: after) := by
  apply takes_advance
  rw [← List.append_nil ((exprWords expr).map _)]
  exact Takes.bind (takes_parseBinExpr plain) takes_pure

theorem takes_parseTraverse {relation : Ast.Value} {depth : Option ℕ} {after : List Token}
    (small : ∀ n ∈ depth, (n : ℤ) ≤ i64Max) :
    Takes (parseTraverse text) ((stmtWords (.traverse relation depth)).map (·.2))
      (.traverse relation depth) (.newline :: after) := by
  cases depth with
  | none =>
    have none : Takes (parseOption text .depth) [] none (.newline :: after) :=
      takes_parseOption_none (by decide)
    refine takes_advance ((takes_parseValue relation).bind ?_)
    show Takes _ ([] ++ []) _ _
    exact none.bind takes_pure
  | some n =>
    have some : Takes (parseOption text .depth) [.depth, .integer n] (some (.integer n))
        ([] ++ .newline :: after) := takes_parseOption_some .depth (.integer n)
    refine takes_advance ((takes_parseValue relation).bind ?_)
    show Takes _ ([.depth, .integer n] ++ []) _ _
    refine some.bind ?_
    rw [Option.map_some, depthOf, asUsize_nat (small n rfl)]
    exact takes_pure

theorem takes_parseOption (keyword : Word) {value : Option Ast.Value} {t : Token} {after : List Token}
    (other : t.discriminant ≠ keyword.2.discriminant) :
    Takes (parseOption text keyword.2) ((optionWords keyword value).map (·.2)) value (t :: after) := by
  cases value with
  | none => exact takes_parseOption_none other
  | some value => exact takes_parseOption_some keyword.2 value

theorem takes_parseTimeline {start stop : Option Ast.Value} {after : List Token} :
    Takes (parseTimeline text) ((stmtWords (.timeline start stop)).map (·.2)) (.timeline start stop)
      (.newline :: after) := by
  have stops : Takes (parseOption text .toKw) ((optionWords ("TO", .toKw) stop).map (·.2)) stop
      ([] ++ .newline :: after) := takes_parseOption ("TO", .toKw) (by decide)
  have starts : Takes (parseOption text .fromKw) ((optionWords ("FROM", .fromKw) start).map (·.2)) start
      ((optionWords ("TO", .toKw) stop).map (·.2) ++ [] ++ .newline :: after) := by
    cases stop with
    | none => exact takes_parseOption ("FROM", .fromKw) (by decide)
    | some stop => exact takes_parseOption ("FROM", .fromKw) (by decide)
  refine takes_advance ?_
  have split : (optionWords ("FROM", .fromKw) start ++ optionWords ("TO", .toKw) stop).map (·.2) =
      (optionWords ("FROM", .fromKw) start).map (·.2) ++
        ((optionWords ("TO", .toKw) stop).map (·.2) ++ []) := by
    rw [List.map_append, List.append_nil]
  show Takes _ ((optionWords ("FROM", .fromKw) start ++ optionWords ("TO", .toKw) stop).map (·.2)) _ _
  rw [split]
  exact starts.bind (stops.bind takes_pure)

theorem takes_parseSort {field : Ast.Value} {order : Order} {after : List Token} :
    Takes (parseSort text) ((stmtWords (.sort field order)).map (·.2)) (.sort field order) after :=
  takes_advance (takes_expectOk.bind ((takes_parseValue _).bind (takes_parseOrder.bind takes_pure)))

theorem takes_parseLimit {n : ℕ} {after : List Token} (small : (n : ℤ) ≤ i64Max) :
    Takes (parseLimit text) ((stmtWords (.limit n)).map (·.2)) (.limit n) after := by
  have value : Takes (parseValue text) [.integer n] (.integer n) ([] ++ after) :=
    takes_parseValue (.integer n)
  refine takes_advance (value.bind ?_)
  show Takes (pure (Stmt.limit (asUsize n))) [] _ _
  rw [asUsize_nat small]
  exact takes_pure

/-- The parser reads the words of a statement up to the end of its line. -/
theorem takes_parseStatement {stmt : Stmt} {after : List Token} (plain : PlainStmt text stmt) :
    Takes (parseStatement text) ((stmtWords stmt).map (·.2)) stmt (.newline :: after) := by
  refine takes_get fun p ahead => ?_
  cases stmt with
  | fromSource v | infer v | exportTo v | load v =>
    rw [peek_of_upcoming ahead]
    exact takes_parseArgument
  | matchExpr expr | whereExpr expr | filter expr =>
    rw [peek_of_upcoming ahead]
    exact takes_parseCondition plain
  | correlate v | similar v | classify v | store v =>
    rw [peek_of_upcoming ahead]
    exact takes_parseArgumentAfter
  | traverse relation depth =>
    have first : p.peek = .traverse := by
      cases depth <;> exact peek_of_upcoming ahead
    rw [first]
    exact takes_parseTraverse plain.2
  | summarize =>
    rw [peek_of_upcoming ahead]
    exact takes_advance takes_pure
  | timeline start stop =>
    rw [peek_of_upcoming ahead]
    exact takes_parseTimeline
  | sort field order =>
    rw [peek_of_upcoming ahead]
    exact takes_parseSort
  | limit n =>
    rw [peek_of_upcoming ahead]
    exact takes_parseLimit plain

/-! ## The loop of `parse` -/

theorem skipNewlines_upcoming (p : Parser) : p.skipNewlines.upcoming =
    p.upcoming.dropWhile fun t => t.discriminant = Token.newline.discriminant := by
  show (p.skip _).upcoming = _
  rw [skip_upcoming]
  have split := List.takeWhile_append_dropWhile (l := p.upcoming)
    (p := fun t => t.discriminant = Token.newline.discriminant)
  have length : ((p.tokens.drop p.pos).takeWhile fun tok =>
      tok.1.discriminant = Token.newline.discriminant).length =
      (p.upcoming.takeWhile fun t => t.discriminant = Token.newline.discriminant).length := by
    rw [upcoming, List.takeWhile_map, List.length_map]
    rfl
  rw [length]
  nth_rewrite 2 [← split]
  exact List.drop_left

/-- The first word of a statement. -/
theorem stmtWords_head (stmt : Stmt) : ∃ t ts, (stmtWords stmt).map (·.2) = t :: ts ∧
    t.discriminant ≠ Token.newline.discriminant ∧ t.discriminant ≠ Token.eof.discriminant := by
  cases stmt with
  | traverse relation depth => cases depth <;> exact ⟨_, _, rfl, by decide, by decide⟩
  | _ => exact ⟨_, _, rfl, by decide, by decide⟩

/-- No newline comes before a line. -/
theorem lines_dropWhile (statements : List Stmt) :
    (Lexer.lineTokens statements ++ [Token.eof]).dropWhile
      (fun t => t.discriminant = Token.newline.discriminant) = Lexer.lineTokens statements ++ [.eof] := by
  cases statements with
  | nil => rfl
  | cons stmt statements =>
    obtain ⟨t, ts, first, newline, -⟩ := stmtWords_head stmt
    rw [Lexer.lineTokens_cons, first]
    exact List.dropWhile_cons_of_neg (fun found => newline (of_decide_eq_true found))

theorem length_le_lineTokens (statements : List Stmt) :
    statements.length ≤ (Lexer.lineTokens statements).length := by
  induction statements with
  | nil => exact le_rfl
  | cons stmt statements ih =>
    rw [Lexer.lineTokens_cons, List.length_append, List.length_append, List.length_singleton,
      List.length_cons]
    omega

/-- The loop reads the lines that are left. -/
theorem parseLoop_lines {statements done : List Stmt} {fuel : ℕ}
    (plain : ∀ stmt ∈ statements, PlainStmt text stmt) (enough : statements.length < fuel)
    (h : p.skipNewlines.upcoming = Lexer.lineTokens statements ++ [.eof]) :
    parseLoop text fuel done p = .ok (done ++ statements) := by
  induction statements generalizing p done fuel with
  | nil =>
    obtain ⟨fuel, rfl⟩ := Nat.exists_eq_add_one_of_ne_zero (Nat.ne_zero_of_lt enough)
    have eof : p.skipNewlines.check .eof = true := by
      rw [check_of_upcoming h]
      rfl
    rw [parseLoop, if_pos eof, List.append_nil]
  | cons stmt statements ih =>
    obtain ⟨fuel, rfl⟩ := Nat.exists_eq_add_one_of_ne_zero (Nat.ne_zero_of_lt enough)
    obtain ⟨here, plain⟩ := List.forall_mem_cons.1 plain
    rw [Lexer.lineTokens_cons, List.append_assoc, List.append_assoc] at h
    have more : ¬p.skipNewlines.check .eof = true := by
      obtain ⟨t, ts, first, -, eof⟩ := stmtWords_head stmt
      rw [first] at h
      rw [check_of_upcoming h]
      simpa using eof
    have taken := takes_parseStatement here _ h
    rw [parseLoop, if_neg more, taken]
    have next : ((p.skipNewlines.skip ((stmtWords stmt).map (·.2)).length).skipNewlines).upcoming =
        Lexer.lineTokens statements ++ [.eof] := by
      rw [skipNewlines_upcoming, skip_upcoming, h, List.drop_left]
      exact lines_dropWhile statements
    rw [← List.singleton_append, ← List.append_assoc]
    exact ih plain (Nat.lt_of_succ_lt_succ enough) next

end Parser

/-- The front end reads rendered statements back. -/
theorem parse_render (text : Text) (statements : List Stmt)
    (plain : ∀ stmt ∈ statements, PlainStmt text stmt) :
    ∃ tokens : List Spanned,
      (∀ fuel, (render statements).length < fuel →
        Lexer.tokenize text fuel (Lexer.new (render statements)) = .ok tokens) ∧
      ∀ fuel, tokens.length < fuel → Parser.parse text fuel (Parser.new tokens) = .ok statements := by
  obtain ⟨tokens, read, lexed⟩ := Lexer.tokenize_render plain
  refine ⟨tokens, lexed, fun fuel enough => ?_⟩
  have lines : (Parser.new tokens).upcoming = Lexer.lineTokens statements ++ [.eof] := read
  have length := congrArg List.length read
  rw [List.length_map, List.length_append, List.length_singleton] at length
  have counted := Parser.length_le_lineTokens statements
  have start : (Parser.new tokens).skipNewlines.upcoming = Lexer.lineTokens statements ++ [.eof] := by
    rw [Parser.skipNewlines_upcoming, lines]
    exact Parser.lines_dropWhile statements
  exact Parser.parseLoop_lines plain (by omega) start

/-- The characters of ASCII. -/
def asciiText : Text where
  isAlphanumeric := Char.isAlphanum
  parseFloat := fun _ => none
  debugFloat := displayFloat
  debugStr := quote
  isAlphanumeric_ascii := fun _ _ => rfl

/-- Statements of several kinds. -/
def sampleStatements : List Stmt := [
  .fromSource (.string "a \"b\"\n"),
  .matchExpr (.field "title" .ge (.integer 3)),
  .traverse (.ident "x") (some 2),
  .timeline none (some .null),
  .sort (.bool true) .desc,
  .limit 10]

theorem parse_render_sample :
    ∃ tokens : List Spanned,
      (∀ fuel, (render sampleStatements).length < fuel →
        Lexer.tokenize asciiText fuel (Lexer.new (render sampleStatements)) = .ok tokens) ∧
      ∀ fuel, tokens.length < fuel →
        Parser.parse asciiText fuel (Parser.new tokens) = .ok sampleStatements := by
  have x : IsIdentifier asciiText "x" := ⟨⟨'x', [], rfl, .inr (by decide), by simp⟩, by decide⟩
  refine parse_render asciiText sampleStatements ?_
  simp only [sampleStatements, List.forall_mem_cons, List.not_mem_nil, false_imp_iff, implies_true,
    and_true]
  have limit : ((10 : ℕ) : ℤ) ≤ i64Max := by decide
  exact ⟨trivial, ⟨by decide, by decide⟩, ⟨x, fun n hn => by cases hn; decide⟩,
    ⟨nofun, fun v hv => by cases hv; trivial⟩, trivial, limit⟩

end TORdex.Tdxl
