import Reckon.Parser
import Reckon.Proofs.Completeness

namespace Reckon

/-! The language of the strict parser.

A text is accepted when its tokens are an expression of the grammar that keeps
within both limits; where only the limits stand in the way, the parser says so.
-/

instance decidableEqExcept {error value : Type} [DecidableEq error] [DecidableEq value] :
    DecidableEq (Except error value)
  | .ok one, .ok other => decidable_of_iff (one = other) (by simp)
  | .error one, .error other => decidable_of_iff (one = other) (by simp)
  | .ok _, .error _ => .isFalse (by simp)
  | .error _, .ok _ => .isFalse (by simp)

variable {text : String} {mode : Mode} {fault : Fault} {cursor : Cursor} {parsed : Parsed cursor}

theorem parse_of_ofScanner_error (failed : Cursor.ofScanner (.ofText text) = .error fault) :
    parse mode text = .error fault := by
  simp only [parse, Parser.ofScanner, failed, bind, Except.bind]

theorem parse_of_expression_error (started : Cursor.ofScanner (.ofText text) = .ok cursor)
    (failed : Rule.expression maxNesting cursor = .error fault) :
    parse mode text = .error fault := by
  simp only [parse, Parser.ofScanner, Parser.parse, started, failed, bind, Except.bind, pure,
    Except.pure]

theorem parse_lenient_of_expression (started : Cursor.ofScanner (.ofText text) = .ok cursor)
    (ran : Rule.expression maxNesting cursor = .ok parsed) :
    parse .lenient text = .ok parsed.tree := by
  simp only [parse, Parser.ofScanner, Parser.parse, started, ran, bind, Except.bind, pure,
    Except.pure]

/-- Behind an expression the strict parser takes the end of the text and nothing else. -/
theorem Parser.parse_strict_of_expression {scanner : Scanner}
    (started : Cursor.ofScanner scanner = .ok cursor)
    (ran : Rule.expression maxNesting cursor = .ok parsed) :
    (⟨cursor, .strict⟩ : Parser).parse =
      if parsed.rest.lookahead.token = .endOfInput then .ok parsed.tree
      else .error (parsed.rest.unexpected .endOfInput) := by
  simp only [Parser.parse, ran, bind, Except.bind]
  by_cases ended : parsed.rest.lookahead.token = .endOfInput
  · have outcome := Rule.expression_outcome maxNesting cursor
    rw [ran] at outcome
    cases outcome with
    | parsed read derived within height stops =>
        obtain ⟨last, startedLast⟩ := read.exists_ofScanner started
        obtain ⟨result, eaten⟩ := Cursor.exists_eat_endOfInput startedLast ended
        rw [if_pos ended, eaten]
        rfl
  · rw [if_neg ended, Cursor.eat_of_ne (mt Token.kind_eq_endOfInput_iff.mp ended)]

theorem parse_strict_of_expression (started : Cursor.ofScanner (.ofText text) = .ok cursor)
    (ran : Rule.expression maxNesting cursor = .ok parsed) :
    parse .strict text =
      if parsed.rest.lookahead.token = .endOfInput then .ok parsed.tree
      else .error (parsed.rest.unexpected .endOfInput) := by
  rw [← Parser.parse_strict_of_expression started ran, parse, Parser.ofScanner, started]
  rfl

theorem evaluate_eq_map_parse (mode : Mode) (text : String) :
    evaluate mode text = Expr.value <$> parse mode text := by
  unfold evaluate parse Parser.evaluate
  cases Parser.ofScanner mode (Scanner.ofText text) with
  | error fault => rfl
  | ok parser =>
      change (do return (← parser.parse).value) = Expr.value <$> parser.parse
      cases parser.parse <;> rfl

theorem within_maxNesting_iff {tree : Expr} {depths : List Nat} :
    Within maxNesting tree depths ↔ (∀ depth ∈ depths, depth ≤ 255) ∧ tree.height ≤ 2048 := by
  constructor
  · intro within
    exact ⟨fun depth member => Nat.le_of_lt_succ (within.nesting depth member), within.height⟩
  · intro limits
    obtain ⟨nesting, height⟩ := limits
    exact ⟨fun depth member => Nat.lt_succ_of_le (nesting depth member), height⟩

theorem reads_of_parse_strict {tree : Expr} (accepted : parse .strict text = .ok tree) :
    ∃ cursor taken stop depths, Cursor.ofScanner (.ofText text) = .ok cursor ∧
      cursor.Reads taken stop ∧ stop.lookahead.token = .endOfInput ∧
      Derives .expression (words taken) tree depths ∧ Within maxNesting tree depths := by
  cases started : Cursor.ofScanner (.ofText text) with
  | error fault => cases (parse_of_ofScanner_error started).symm.trans accepted
  | ok cursor =>
      have outcome := Rule.expression_outcome maxNesting cursor
      cases ran : Rule.expression maxNesting cursor with
      | error fault => cases (parse_of_expression_error started ran).symm.trans accepted
      | ok parsed =>
          rw [ran] at outcome
          rw [parse_strict_of_expression started ran] at accepted
          split at accepted
          · rename_i ended
            cases accepted
            cases outcome with
            | parsed read derived within height stops =>
                exact ⟨_, _, _, _, rfl, read, ended, derived, within⟩
          · cases accepted

theorem parse_strict_of_reads {stop : Cursor} {taken : List Lexeme} {tree : Expr}
    {depths : List Nat} (started : Cursor.ofScanner (.ofText text) = .ok cursor)
    (read : cursor.Reads taken stop) (ended : stop.lookahead.token = .endOfInput)
    (derived : Derives .expression (words taken) tree depths) :
    (Within maxNesting tree depths ∧ parse .strict text = .ok tree) ∨
    (¬ Within maxNesting tree depths ∧ ∃ place : Cursor,
      parse .strict text = .error (place.unexpected .shallowerNesting)) := by
  have verdict := Rule.expression_completes maxNesting read derived
    (ended ▸ Phrase.stops_endOfInput _)
  cases ran : Rule.expression maxNesting cursor with
  | error fault =>
      rw [ran] at verdict
      cases verdict with
      | tooDeep place beyond => exact .inr ⟨beyond, place, parse_of_expression_error started ran⟩
  | ok parsed =>
      rw [ran] at verdict
      cases verdict with
      | built within sameTree height sameRest =>
          refine .inl ⟨within, ?_⟩
          rw [parse_strict_of_expression started ran, if_pos (by rw [sameRest, ended]), sameTree]

theorem parse_strict_of_derives {lexemes : List Lexeme} {tree : Expr} {depths : List Nat}
    (tokenized : tokenize text = .ok lexemes)
    (derived : Derives .expression (words lexemes.dropLast) tree depths) :
    (Within maxNesting tree depths ∧ parse .strict text = .ok tree) ∨
    (¬ Within maxNesting tree depths ∧ ∃ place : Cursor,
      parse .strict text = .error (place.unexpected .shallowerNesting)) := by
  obtain ⟨cursor, taken, stop, started, read, ended, split⟩ :=
    Scanner.exists_reads_of_tokens tokenized
  rw [split, List.dropLast_concat] at derived
  exact parse_strict_of_reads started read ended derived

/-- The strict parser accepts exactly the texts whose tokens, without the end
behind them, derive a tree with at most 255 signs and parentheses around every
integer and at most 2048 levels; and where a derivation passes one of these
limits, that is the fault it reports. -/
theorem parse_strict_eq_ok_iff (text : String) :
    (∀ tree, parse .strict text = .ok tree ↔
      ∃ lexemes depths, tokenize text = .ok lexemes ∧
        Derives .expression (words lexemes.dropLast) tree depths ∧
        (∀ depth ∈ depths, depth ≤ 255) ∧ tree.height ≤ 2048) ∧
    (∀ lexemes tree depths, tokenize text = .ok lexemes →
      Derives .expression (words lexemes.dropLast) tree depths →
      ¬ ((∀ depth ∈ depths, depth ≤ 255) ∧ tree.height ≤ 2048) →
      ∃ found position,
        parse .strict text = .error (.unexpectedToken .shallowerNesting found position)) := by
  refine ⟨fun tree => ⟨?_, ?_⟩, ?_⟩
  · intro accepted
    obtain ⟨cursor, taken, stop, depths, started, read, ended, derived, within⟩ :=
      reads_of_parse_strict accepted
    refine ⟨_, depths, Scanner.tokens_of_reads started read ended, ?_,
      within_maxNesting_iff.mp within⟩
    rw [List.dropLast_concat]
    exact derived
  · intro accepted
    obtain ⟨lexemes, depths, tokenized, derived, limits⟩ := accepted
    rcases parse_strict_of_derives tokenized derived with ⟨_, accepted⟩ | ⟨beyond, _⟩
    · exact accepted
    · exact absurd (within_maxNesting_iff.mpr limits) beyond
  · intro lexemes tree depths tokenized derived beyond
    rcases parse_strict_of_derives tokenized derived with ⟨within, _⟩ | ⟨_, place, failed⟩
    · exact absurd (within_maxNesting_iff.mp within) beyond
    · exact ⟨_, _, failed⟩

end Reckon
