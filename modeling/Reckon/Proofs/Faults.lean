import Reckon.Proofs.Acceptance
import Reckon.Proofs.Deliveries

namespace Reckon

/-! Faults stand at the first token that no text can go on with.

What the scanner delivers in front of a fault begins some complete text.  The
token at fault does not go on with it, unless only the limits on depth are
passed there; a token of the kind that the fault asks for does.
-/

/-- What is said of a fault by the tokens in front of it. -/
structure Located (scanner : Scanner) (fault : Fault) : Prop where
  viable : Viable (scanner.tokensBefore fault.position)
  delivered : ∀ expected found position, fault = .unexpectedToken expected found position →
    scanner.deliveries.filter (fun item => Scanner.place item = position) =
      [.ok ⟨found, position⟩] ∧
    (found = .endOfInput → position = scanner.position + byteLength scanner.rest)
  grammatical : ∀ expected found position, fault = .unexpectedToken expected found position →
    expected ≠ .shallowerNesting →
    ¬ Viable (scanner.tokensBefore position ++ [found]) ∧ (∃ wanted, expected.Names wanted) ∧
    ∀ wanted, expected.Names wanted → Viable (scanner.tokensBefore position ++ [wanted])

namespace Located

variable {scanner : Scanner} {cursor stop : Cursor} {taken : List Lexeme} {fault : Fault}
  {expected : Expectation}

theorem of_unread (lexemes : List Lexeme) {later : List (Except Fault Lexeme)}
    (split : scanner.deliveries = lexemes.map .ok ++ .error fault :: later)
    (begun : Begins .expression (words lexemes))
    (invalid : ∃ character position, fault = .invalidCharacter character position) :
    Located scanner fault := by
  obtain ⟨character, place, rfl⟩ := invalid
  refine ⟨?_, fun _ _ _ equal => (by cases equal), fun _ _ _ equal => (by cases equal)⟩
  rw [show Fault.position (.invalidCharacter character place) =
    Scanner.place (.error (.invalidCharacter character place)) from rfl,
    Scanner.tokensBefore_place split]
  exact begun.viable

theorem of_unexpected (started : Cursor.ofScanner scanner = .ok cursor)
    (read : cursor.Reads taken stop) (viable : Viable (words taken))
    (grammatical : expected ≠ .shallowerNesting →
      ¬ Viable (words taken ++ [stop.lookahead.token]) ∧ (∃ wanted, expected.Names wanted) ∧
      ∀ wanted, expected.Names wanted → Viable (words taken ++ [wanted])) :
    Located scanner (stop.unexpected expected) := by
  have split := Scanner.deliveries_of_reads started read
  have before : scanner.tokensBefore stop.lookahead.position = words taken :=
    Scanner.tokensBefore_place split
  refine ⟨?_, ?_, ?_⟩
  · rw [← before] at viable
    exact viable
  · intro expected' found position equal
    cases equal
    exact ⟨Scanner.filter_place split, Scanner.position_of_reads_ended started read⟩
  · intro expected' found position equal asked
    cases equal
    rw [before]
    exact grammatical asked

end Located

theorem Refuses.exists_names {phrase : Phrase} {room : Nat} {taken : List Token} {token : Token}
    {expected : Expectation} (refused : Refuses phrase room taken token expected)
    (grammatical : expected ≠ .shallowerNesting) : ∃ wanted, expected.Names wanted := by
  induction refused with
  | operand => exact ⟨_, .operand 0⟩
  | nesting | signedHeight | joinedHeight => exact absurd rfl grammatical
  | unclosed => exact ⟨_, .closingParenthesis⟩
  | signed _ _ ih | grouped _ ih | first _ ih | later _ _ _ _ ih => exact ih grammatical

theorem located_of_parse_error {mode : Mode} {text : String} {fault : Fault}
    (failed : parse mode text = .error fault) : Located (.ofText text) fault := by
  cases started : Cursor.ofScanner (.ofText text) with
  | error first =>
      cases (parse_of_ofScanner_error started).symm.trans failed
      obtain ⟨later, split⟩ := Scanner.deliveries_of_ofScanner_error started
      exact .of_unread [] split (.nil _) (Scanner.invalid_of_ofScanner_error started)
  | ok cursor =>
      have outcome := Rule.expression_outcome maxNesting cursor
      cases ran : Rule.expression maxNesting cursor with
      | error first =>
          cases (parse_of_expression_error started ran).symm.trans failed
          rw [ran] at outcome
          cases outcome with
          | refused read refuses =>
              refine .of_unexpected started read refuses.begins.viable fun grammatical => ?_
              exact ⟨refuses.not_viable grammatical, refuses.exists_names grammatical,
                fun wanted named => refuses.viable_append named⟩
          | @unread taken stop _ read more broken begun =>
              obtain ⟨later, split⟩ := Scanner.deliveries_of_ofScanner_error broken
              have whole : (Scanner.ofText text).deliveries =
                  (taken ++ [stop.lookahead]).map .ok ++ .error fault :: later := by
                rw [Scanner.deliveries_of_reads started read, if_neg more, split]
                simp
              exact .of_unread (taken ++ [stop.lookahead]) whole (by simpa using begun)
                (Scanner.invalid_of_ofScanner_error broken)
      | ok parsed =>
          rw [ran] at outcome
          cases outcome with
          | @parsed _ taken depths read derived within height stops =>
              cases mode with
              | lenient =>
                  cases (parse_lenient_of_expression started ran).symm.trans failed
              | strict =>
                  rw [parse_strict_of_expression started ran] at failed
                  split at failed
                  · cases failed
                  · rename_i missing
                    cases failed
                    refine .of_unexpected started read derived.begins.viable fun _ => ?_
                    refine ⟨derived.not_viable_append stops missing, ⟨_, .endOfInput⟩, ?_⟩
                    intro wanted named
                    cases named
                    exact derived.viable_end

/-- The tokens in front of a fault begin some complete text.  A token at fault is
the one delivered at the position of the fault, and the end of the text is so
behind its last byte.  Unless only a limit is passed, no complete text begins
with the tokens up to the one at fault, and one does where a token that was
asked for takes its place. -/
theorem fault_position_viable (mode : Mode) (text : String) (fault : Fault)
    (failed : parse mode text = .error fault) :
    Viable ((Scanner.ofText text).tokensBefore fault.position) ∧
    ∀ expected found position, fault = .unexpectedToken expected found position →
      (Scanner.ofText text).deliveries.filter (fun item => Scanner.place item = position) =
        [.ok ⟨found, position⟩] ∧
      (found = .endOfInput → position = text.utf8ByteSize) ∧
      (expected ≠ .shallowerNesting →
        ¬ Viable ((Scanner.ofText text).tokensBefore position ++ [found]) ∧
        (∃ wanted, expected.Names wanted) ∧
        ∀ wanted, expected.Names wanted →
          Viable ((Scanner.ofText text).tokensBefore position ++ [wanted])) := by
  have located := located_of_parse_error failed
  refine ⟨located.viable, fun expected found position equal => ?_⟩
  obtain ⟨delivered, ended⟩ := located.delivered expected found position equal
  refine ⟨delivered, fun last => ?_, located.grammatical expected found position equal⟩
  have size := ended last
  rw [show (Scanner.ofText text).rest = text.toList from rfl, byteLength_toList,
    show (Scanner.ofText text).position = 0 from rfl, Nat.zero_add] at size
  exact size

theorem fault_position_viable_unclosed :
    parse .lenient "(1 + 2 7" =
      .error (.unexpectedToken .closingParenthesis (.integer (Number.nearest 7)) 7) ∧
    ¬ Viable ((Scanner.ofText "(1 + 2 7").tokensBefore 7 ++ [.integer (Number.nearest 7)]) ∧
    Viable ((Scanner.ofText "(1 + 2 7").tokensBefore 7 ++ [.rightParen]) := by
  have failed : parse .lenient "(1 + 2 7" =
      .error (.unexpectedToken .closingParenthesis (.integer (Number.nearest 7)) 7) := by
    decide +kernel
  obtain ⟨_, _, grammatical⟩ :=
    (fault_position_viable .lenient _ _ failed).2 _ _ _ rfl
  obtain ⟨blocked, _, asked⟩ := grammatical (by decide)
  exact ⟨failed, blocked, asked _ .closingParenthesis⟩

end Reckon
