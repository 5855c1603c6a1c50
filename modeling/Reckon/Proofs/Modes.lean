import Reckon.Proofs.Faults
import Reckon.Proofs.Splicing

namespace Reckon

/-! The strict and the lenient reading of a text.

They differ where an expression ends in front of something else.  The lenient
reading then has the tree that the strict one has of the text up to there.
-/

/-- Both readings of a text have the same tree. -/
def ReadAlike (text : String) : Prop :=
  ∃ tree, parse .strict text = .ok tree ∧ parse .lenient text = .ok tree

/-- Both readings of a text have the same fault, which is not that the text goes on. -/
def FailAlike (text : String) : Prop :=
  ∃ fault, parse .strict text = .error fault ∧ parse .lenient text = .error fault ∧
    ∀ found position, fault ≠ .unexpectedToken .endOfInput found position

/-- Only the lenient reading has a tree, and it is that of the bytes in front of
the place where the strict one asks for the end of the text. -/
def PartAlike (text : String) : Prop :=
  ∃ tree found head tail, parse .lenient text = .ok tree ∧
    parse .strict text = .error (.unexpectedToken .endOfInput found head.utf8ByteSize) ∧
    head.utf8ByteSize < text.utf8ByteSize ∧ text = head ++ tail ∧ parse .strict head = .ok tree

theorem Refuses.ne_endOfInput {phrase : Phrase} {room : Nat} {taken : List Token} {token : Token}
    {expected : Expectation} (refused : Refuses phrase room taken token expected) :
    expected ≠ .endOfInput := by
  induction refused with
  | operand | nesting | signedHeight | unclosed | joinedHeight => decide
  | signed _ _ ih | grouped _ ih | first _ ih | later _ _ _ _ ih => exact ih

theorem failAlike_of_ofScanner_error {text : String} {fault : Fault}
    (failed : Cursor.ofScanner (.ofText text) = .error fault) : FailAlike text := by
  refine ⟨fault, parse_of_ofScanner_error failed, parse_of_ofScanner_error failed, ?_⟩
  obtain ⟨character, place, rfl⟩ := Scanner.invalid_of_ofScanner_error failed
  exact fun _ _ equal => by cases equal

theorem failAlike_of_expression_error {text : String} {cursor : Cursor} {fault : Fault}
    (started : Cursor.ofScanner (.ofText text) = .ok cursor)
    (failed : Rule.expression maxNesting cursor = .error fault) : FailAlike text := by
  refine ⟨fault, parse_of_expression_error started failed,
    parse_of_expression_error started failed, ?_⟩
  have outcome := Rule.expression_outcome maxNesting cursor
  rw [failed] at outcome
  cases outcome with
  | refused read refuses =>
      intro found position equal
      cases equal
      exact refuses.ne_endOfInput rfl
  | unread read more broken begun =>
      obtain ⟨character, place, rfl⟩ := Scanner.invalid_of_ofScanner_error broken
      exact fun _ _ equal => by cases equal

theorem ofText_ofList (text : List Char) : Scanner.ofText (String.ofList text) = ⟨text, 0⟩ := by
  rw [Scanner.ofText, String.toList_ofList]

theorem partAlike_of_reads {text : String} {cursor : Cursor} {parsed : Parsed cursor}
    {taken : List Lexeme} {depths : List Nat}
    (started : Cursor.ofScanner (.ofText text) = .ok cursor)
    (ran : Rule.expression maxNesting cursor = .ok parsed)
    (read : cursor.Reads taken parsed.rest)
    (derived : Derives .expression (words taken) parsed.tree depths)
    (within : Within maxNesting parsed.tree depths)
    (more : parsed.rest.lookahead.token ≠ .endOfInput) : PartAlike text := by
  obtain ⟨head, tail, split, place, behind, start, last, startedHead, readHead, ended⟩ :=
    Cursor.Reads.cut started read
  have headSize : (String.ofList head).utf8ByteSize = parsed.rest.lookahead.position := by
    rw [← byteLength_toList, String.toList_ofList, ← place, Nat.zero_add]
  have rejoined : text = String.ofList head ++ String.ofList tail := by
    rw [← String.ofList_append, ← split, String.ofList_toList]
  refine ⟨parsed.tree, parsed.rest.lookahead.token, String.ofList head, String.ofList tail,
    parse_lenient_of_expression started ran, ?_, ?_, rejoined, ?_⟩
  · rw [parse_strict_of_expression started ran, if_neg more, headSize]
    rfl
  · have tailSize := byteLength_pos (behind more)
    rw [← byteLength_toList, ← byteLength_toList, split, String.toList_ofList, byteLength_append]
    omega
  · rw [← ofText_ofList] at startedHead
    rcases parse_strict_of_reads startedHead readHead ended derived with ⟨_, accepted⟩ | ⟨beyond, _⟩
    · exact accepted
    · exact absurd within beyond

theorem readAlike_or_failAlike_or_partAlike (text : String) :
    ReadAlike text ∨ FailAlike text ∨ PartAlike text := by
  cases started : Cursor.ofScanner (.ofText text) with
  | error fault => exact .inr (.inl (failAlike_of_ofScanner_error started))
  | ok cursor =>
      cases ran : Rule.expression maxNesting cursor with
      | error fault => exact .inr (.inl (failAlike_of_expression_error started ran))
      | ok parsed =>
          have outcome := Rule.expression_outcome maxNesting cursor
          rw [ran] at outcome
          cases outcome with
          | parsed read derived within height stops =>
              by_cases ended : parsed.rest.lookahead.token = .endOfInput
              · refine .inl ⟨parsed.tree, ?_, parse_lenient_of_expression started ran⟩
                rw [parse_strict_of_expression started ran, if_pos ended]
              · exact .inr (.inr (partAlike_of_reads started ran read derived within ended))

theorem ReadAlike.not_failAlike {text : String} (alike : ReadAlike text) : ¬ FailAlike text := by
  intro alikeFailing
  obtain ⟨fault, failed, _⟩ := alikeFailing
  obtain ⟨tree, read, _⟩ := alike
  cases read.symm.trans failed

theorem ReadAlike.not_partAlike {text : String} (alike : ReadAlike text) : ¬ PartAlike text := by
  intro parted
  obtain ⟨_, found, head, tail, _, failed, _⟩ := parted
  obtain ⟨tree, read, _⟩ := alike
  cases read.symm.trans failed

theorem FailAlike.not_partAlike {text : String} (alike : FailAlike text) : ¬ PartAlike text := by
  intro parted
  obtain ⟨tree, found, head, tail, read, _⟩ := parted
  obtain ⟨fault, _, failed, _⟩ := alike
  cases read.symm.trans failed

/-- A token that neither continues an expression nor ends the text. -/
def Token.Foreign (token : Token) : Prop :=
  token.kind = .integer ∨ token.kind = .leftParen ∨ token.kind = .rightParen

theorem Token.Foreign.stops {token : Token} (foreign : token.Foreign) :
    Phrase.expression.Stops token := by
  cases token <;> simp_all [Foreign, kind, Phrase.Stops, Precedence.operator?]

theorem parse_lenient_append {text more : String} {tree : Expr} {token : Token} {position : Nat}
    (accepted : parse .strict text = .ok tree)
    (first : (Scanner.ofText more).next.1 = .ok ⟨token, position⟩) (foreign : token.Foreign)
    (seam : Apart text.toList more.toList) : parse .lenient (text ++ more) = .ok tree := by
  obtain ⟨cursor, taken, stop, depths, started, read, ended, derived, within⟩ :=
    reads_of_parse_strict accepted
  have step : Scanner.Step (.ofText more) (.ok ⟨token, position⟩) (Scanner.ofText more).next.2 :=
    Scanner.next_eq_iff.mp (Prod.ext first rfl)
  obtain ⟨place, behind, moved⟩ := step.at_position stop.lookahead.position
  obtain ⟨start, startedBoth, readBoth⟩ :=
    Cursor.Reads.glue started read ended seam (Cursor.ofScanner_of_step moved)
  have startedText : Cursor.ofScanner (.ofText (text ++ more)) = .ok start := by
    rwa [Scanner.ofText, String.toList_append]
  have verdict := Rule.expression_completes maxNesting readBoth derived foreign.stops
  cases ran : Rule.expression maxNesting start with
  | error fault =>
      rw [ran] at verdict
      cases verdict with
      | tooDeep _ beyond => exact absurd within beyond
  | ok parsed =>
      rw [ran] at verdict
      cases verdict with
      | built _ sameTree _ _ => rw [parse_lenient_of_expression startedText ran, sameTree]

/-- The two readings of a text are alike, or fail alike, or the lenient one has the
tree of the part in front of the place where the strict one asks for the end.
And whatever the strict reading accepts, the lenient one reads to the same tree
with a foreign token and anything else behind it, unless the two texts join into
one run of digits. -/
theorem strict_and_lenient_readings :
    (∀ text, (ReadAlike text ∨ FailAlike text ∨ PartAlike text) ∧
      ¬ (ReadAlike text ∧ FailAlike text) ∧ ¬ (ReadAlike text ∧ PartAlike text) ∧
      ¬ (FailAlike text ∧ PartAlike text)) ∧
    (∀ text more tree token position, parse .strict text = .ok tree →
      (Scanner.ofText more).next.1 = .ok ⟨token, position⟩ → token.Foreign →
      ¬ (endsDigit text.toList = true ∧ startsDigit more.toList = true) →
      parse .lenient (text ++ more) = .ok tree) := by
  refine ⟨fun text => ⟨readAlike_or_failAlike_or_partAlike text, ?_, ?_, ?_⟩, ?_⟩
  · exact fun ⟨alike, failed⟩ => alike.not_failAlike failed
  · exact fun ⟨alike, parted⟩ => alike.not_partAlike parted
  · exact fun ⟨failed, parted⟩ => failed.not_partAlike parted
  · intro text more tree token position accepted first foreign seam
    exact parse_lenient_append accepted first foreign seam

example : parse .lenient "2*(1+3)7" = parse .strict "2*(1+3)" := by decide +kernel

end Reckon
