import Reckon.Proofs.Relocation

namespace Reckon

/-! Scanners that are handed over in the middle of a text.

All that a scanner keeps of what it has delivered is where it stands.  What it goes
on with, by itself or under a parser, is therefore what a new scanner makes of the
text that is left, as many bytes further on.
-/

namespace Scanner

def translate (offset : Nat) (scanner : Scanner) : Scanner :=
  ⟨scanner.rest, scanner.position + offset⟩

section

variable (scanner : Scanner) (offset : Nat)

theorem next_translate :
    (scanner.translate offset).next =
      (relocate (· + offset) scanner.next.1, scanner.next.2.translate offset) := by
  have step : Step scanner scanner.next.1 scanner.next.2 := next_eq_iff.mp rfl
  exact next_of_step (step.translate offset)

theorem behindCalls_translate (calls : Nat) :
    (scanner.translate offset).behindCalls calls =
      (scanner.behindCalls calls).translate offset := by
  induction calls generalizing scanner with
  | zero => rfl
  | succ calls ih => rw [behindCalls, behindCalls, next_translate, ih]

theorem delivery_translate (calls : Nat) :
    (scanner.translate offset).delivery calls = relocate (· + offset) (scanner.delivery calls) := by
  rw [delivery, delivery, behindCalls_translate, next_translate]

theorem behindCalls_succ (calls : Nat) :
    scanner.behindCalls (calls + 1) = (scanner.behindCalls calls).next.2 := by
  induction calls generalizing scanner with
  | zero => rfl
  | succ calls ih => rw [behindCalls, ih, behindCalls]

end

/-- Where the last of a number of calls on a text ends: behind the token or invalid
character that it delivered, and at the end of the text once that was delivered. -/
inductive EndsAt (text : String) : (calls : Nat) → (position : Nat) → Prop where
  | unstarted : EndsAt text 0 0
  | piece {calls : Nat} (piece : Piece text)
      (delivered : (ofText text).delivery calls = piece.delivered) :
      EndsAt text (calls + 1) piece.last
  | ended {calls position : Nat}
      (delivered : (ofText text).delivery calls = .ok ⟨.endOfInput, position⟩) :
      EndsAt text (calls + 1) text.utf8ByteSize

variable {text : String} {calls : Nat}

theorem EndsAt.unique {position other : Nat} (endsAt : EndsAt text calls position)
    (endsAtOther : EndsAt text calls other) : position = other := by
  cases endsAt with
  | unstarted => cases endsAtOther; rfl
  | piece piece delivered =>
      cases endsAtOther with
      | piece other deliveredOther =>
          exact Piece.last_eq_of_delivered (delivered.symm.trans deliveredOther)
      | ended deliveredOther =>
          exact absurd rfl (piece.ne_endOfInput (delivered.symm.trans deliveredOther))
  | ended delivered =>
      cases endsAtOther with
      | piece other deliveredOther =>
          exact absurd rfl (other.ne_endOfInput (deliveredOther.symm.trans delivered))
      | ended => rfl

theorem EndsAt.of_step {consumed rest : List Char} {behind : Scanner}
    {delivered : Except Fault Lexeme} (split : text.toList = consumed ++ rest)
    (apart : Apart consumed rest) (step : Step ⟨rest, byteLength consumed⟩ delivered behind)
    (called : (ofText text).delivery calls = delivered) :
    ∃ head tail, text.toList = head ++ tail ∧ Apart head tail ∧ behind = ⟨tail, byteLength head⟩ ∧
      EndsAt text (calls + 1) (byteLength head) := by
  by_cases more : isLast delivered = false
  · obtain ⟨piece, count, rfl, _, rfl⟩ := step.exists_piece split apart more
    refine ⟨_, _, piece.split_last, piece.apart, by rw [piece.last_eq], ?_⟩
    rw [← piece.last_eq]
    exact .piece piece called
  · cases step with
    | @ended count spaces =>
        dsimp only at spaces
        have size : byteLength text.toList = byteLength consumed + count := by
          rw [split, byteLength_append, spaces, byteLength_replicate_space]
        refine ⟨text.toList, [], by simp, .nil _, by rw [size], ?_⟩
        rw [byteLength_toList]
        exact .ended called
    | token _ spelled _ => simp [isLast, spelled.ne_endOfInput] at more
    | invalid => simp [isLast] at more

/-- A used scanner stands in front of what is left of its text, and never within a
run of digits. -/
theorem exists_rest (text : String) (calls : Nat) :
    ∃ head tail, text.toList = head ++ tail ∧ Apart head tail ∧
      (ofText text).behindCalls calls = ⟨tail, byteLength head⟩ ∧
      EndsAt text calls (byteLength head) := by
  induction calls with
  | zero => exact ⟨[], text.toList, rfl, .of_endsDigit rfl, rfl, .unstarted⟩
  | succ calls ih =>
      obtain ⟨consumed, rest, split, apart, reached, _⟩ := ih
      obtain ⟨delivered, behind, step⟩ := exists_step ⟨rest, byteLength consumed⟩
      have stepped := next_of_step step
      have called : (ofText text).delivery calls = delivered := by rw [delivery, reached, stepped]
      obtain ⟨head, tail, splitNext, apartNext, next, endsAt⟩ :=
        EndsAt.of_step split apart step called
      exact ⟨head, tail, splitNext, apartNext, by rw [behindCalls_succ, reached, stepped, next],
        endsAt⟩

end Scanner

namespace Cursor

def translate (offset : Nat) (cursor : Cursor) : Cursor :=
  ⟨⟨cursor.lookahead.token, cursor.lookahead.position + offset⟩, cursor.scanner.translate offset⟩

variable {scanner : Scanner} {cursor stop : Cursor} {taken : List Lexeme} {fault : Fault}

theorem ofScanner_translate (started : ofScanner scanner = .ok cursor) (offset : Nat) :
    ofScanner (scanner.translate offset) = .ok (cursor.translate offset) := by
  apply ofScanner_eq_ok_iff.mpr
  rw [Scanner.next_translate, ofScanner_eq_ok_iff.mp started]
  rfl

theorem ofScanner_translate_error (failed : ofScanner scanner = .error fault) (offset : Nat) :
    ofScanner (scanner.translate offset) = .error (fault.relocate (· + offset)) := by
  obtain ⟨behind, stepped⟩ := ofScanner_eq_error_iff.mp failed
  refine ofScanner_eq_error_iff.mpr ⟨behind.translate offset, ?_⟩
  rw [Scanner.next_translate, stepped]
  rfl

/-- The same tokens are read, as much further on. -/
theorem Reads.translate (read : cursor.Reads taken stop) (offset : Nat) :
    ∃ others, (cursor.translate offset).Reads others (stop.translate offset) ∧
      words others = words taken := by
  induction read with
  | nil cursor => exact ⟨[], .nil _, rfl⟩
  | cons more pulled rest ih =>
      obtain ⟨others, readRest, spelled⟩ := ih
      exact ⟨_, .cons more (ofScanner_translate pulled offset) readRest, congrArg (_ :: ·) spelled⟩

end Cursor

theorem Mode.finish_translate (mode : Mode) (tree : Expr) (lexeme : Lexeme) (offset : Nat) :
    mode.finish tree ⟨lexeme.token, lexeme.position + offset⟩ =
      (mode.finish tree lexeme).mapError (Fault.relocate (· + offset)) := by
  cases mode with
  | lenient => rfl
  | strict =>
      dsimp only [finish]
      by_cases ended : lexeme.token = .endOfInput
      · rw [if_pos ended, if_pos ended]
        rfl
      · rw [if_neg ended, if_neg ended]
        rfl

/-- How an expression comes out of a cursor that stands further on. -/
theorem Rule.expression_translate (start : Cursor) (offset : Nat) :
    (∃ parsed moved, expression maxNesting start = .ok parsed ∧
      expression maxNesting (start.translate offset) = .ok moved ∧ moved.tree = parsed.tree ∧
      moved.rest = parsed.rest.translate offset) ∨
    ∃ fault, expression maxNesting start = .error fault ∧
      expression maxNesting (start.translate offset) = .error (fault.relocate (· + offset)) := by
  have outcome := expression_outcome maxNesting start
  cases ran : expression maxNesting start with
  | ok parsed =>
      rw [ran] at outcome
      cases outcome with
      | parsed read derived within height stops =>
          obtain ⟨others, readMoved, spelled⟩ := read.translate offset
          obtain ⟨moved, ranMoved, sameTree, _, sameRest⟩ :=
            (spelled.symm ▸ derived).exists_parsed within readMoved stops
          exact .inl ⟨parsed, moved, rfl, ranMoved, sameTree, sameRest⟩
  | error fault =>
      refine .inr ⟨fault, rfl, ?_⟩
      have failed : Phrase.expression.rule maxNesting start = .error fault := ran
      rw [ran] at outcome
      cases outcome with
      | refused read refuses =>
          obtain ⟨others, readMoved, spelled⟩ := read.translate offset
          exact refuses.rule_eq readMoved spelled rfl
      | unread read more broken begun =>
          obtain ⟨others, readMoved, spelled⟩ := read.translate offset
          exact Phrase.rule_unread failed read broken readMoved spelled rfl
            (Cursor.ofScanner_translate_error broken offset)

namespace Parser

variable {mode : Mode} {cursor : Cursor} {fault : Fault}

theorem parse_of_expression {scanner : Scanner} {parsed : Parsed cursor}
    (started : Cursor.ofScanner scanner = .ok cursor)
    (ran : Rule.expression maxNesting cursor = .ok parsed) :
    (⟨cursor, mode⟩ : Parser).parse = mode.finish parsed.tree parsed.rest.lookahead := by
  cases mode with
  | strict => exact parse_strict_of_expression started ran
  | lenient =>
      simp only [parse, ran, bind, Except.bind]
      rfl

theorem parse_of_expression_error (failed : Rule.expression maxNesting cursor = .error fault) :
    (⟨cursor, mode⟩ : Parser).parse = .error fault := by
  simp only [parse, failed, bind, Except.bind]

/-- What a parser makes of the text behind a scanner moves with the scanner. -/
theorem parse_translate (mode : Mode) (scanner : Scanner) (offset : Nat) :
    (ofScanner mode (scanner.translate offset) >>= parse) =
      (ofScanner mode scanner >>= parse).mapError (Fault.relocate (· + offset)) := by
  cases started : Cursor.ofScanner scanner with
  | error fault =>
      simp only [ofScanner, started, Cursor.ofScanner_translate_error started offset, bind,
        Except.bind]
      rfl
  | ok cursor =>
      have startedMoved := Cursor.ofScanner_translate started offset
      simp only [ofScanner, started, startedMoved, bind, Except.bind, pure, Except.pure]
      rcases Rule.expression_translate cursor offset with
        ⟨parsed, moved, ran, ranMoved, sameTree, sameRest⟩ | ⟨fault, failed, failedMoved⟩
      · rw [parse_of_expression started ran, parse_of_expression startedMoved ranMoved, sameTree,
          sameRest]
        exact mode.finish_translate _ _ offset
      · rw [parse_of_expression_error failed, parse_of_expression_error failedMoved]
        rfl

theorem evaluate_eq_map (mode : Mode) (scanner : Scanner) :
    (ofScanner mode scanner >>= evaluate) = Expr.value <$> (ofScanner mode scanner >>= parse) := by
  cases ofScanner mode scanner with
  | error fault => rfl
  | ok parser =>
      change (do return (← parser.parse).value) = Expr.value <$> parser.parse
      cases parser.parse <;> rfl

theorem evaluate_translate (mode : Mode) (scanner : Scanner) (offset : Nat) :
    (ofScanner mode (scanner.translate offset) >>= evaluate) =
      (ofScanner mode scanner >>= evaluate).mapError (Fault.relocate (· + offset)) := by
  rw [evaluate_eq_map, evaluate_eq_map, parse_translate]
  cases ofScanner mode scanner >>= parse <;> rfl

end Parser

/-- A scanner may be handed over behind any number of calls.  Whatever was delivered,
the text is left at the byte where the last call ended.  Further calls deliver what
those on the text from there on deliver, and a parser that takes the scanner over has
the result of that text, with all positions as many bytes further on. -/
theorem scanner_handed_over (text : String) (calls : Nat) :
    ∃ head tail : String, text = head ++ tail ∧
      (∀ position, Scanner.EndsAt text calls position ↔ position = head.utf8ByteSize) ∧
      (∀ further, ((Scanner.ofText text).behindCalls calls).delivery further =
        Scanner.relocate (· + head.utf8ByteSize) ((Scanner.ofText tail).delivery further)) ∧
      ∀ mode,
        (Parser.ofScanner mode ((Scanner.ofText text).behindCalls calls) >>= Parser.parse) =
          (parse mode tail).mapError (Fault.relocate (· + head.utf8ByteSize)) ∧
        (Parser.ofScanner mode ((Scanner.ofText text).behindCalls calls) >>= Parser.evaluate) =
          (evaluate mode tail).mapError (Fault.relocate (· + head.utf8ByteSize)) := by
  obtain ⟨head, tail, split, _, reached, endsAt⟩ := Scanner.exists_rest text calls
  have size : (String.ofList head).utf8ByteSize = byteLength head := by
    rw [← byteLength_toList, String.toList_ofList]
  have moved : (Scanner.ofText text).behindCalls calls =
      (Scanner.ofText (String.ofList tail)).translate (byteLength head) := by
    rw [reached, Scanner.ofText, String.toList_ofList, Scanner.translate, Nat.zero_add]
  refine ⟨String.ofList head, String.ofList tail, ?_, fun position => ?_, fun further => ?_,
    fun mode => ⟨?_, ?_⟩⟩
  · rw [← String.ofList_append, ← split, String.ofList_toList]
  · rw [size]
    exact ⟨fun other => other.unique endsAt, fun same => same ▸ endsAt⟩
  · rw [moved, size, Scanner.delivery_translate]
  · rw [moved, size, Parser.parse_translate]
    rfl
  · rw [moved, size, Parser.evaluate_translate]
    rfl

example : (Parser.ofScanner .strict ((Scanner.ofText "12é*3").behindCalls 2) >>= Parser.parse) =
    .error (.unexpectedToken .operand .times 4) := by
  decide +kernel

end Reckon
