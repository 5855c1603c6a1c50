import Reckon.Scanner

namespace Reckon

/-! Reading lexemes with one of them in view.

A cursor pulls lexemes from its scanner only as they are needed, and stops at
the first fault.  Every lexeme that is taken leaves less to be read, which is
what bounds the work of a parser.
-/

structure Cursor where
  lookahead : Lexeme
  scanner : Scanner
deriving DecidableEq

namespace Cursor

/-- Pulls the first lexeme into view. -/
def ofScanner (scanner : Scanner) : Except Fault Cursor :=
  match scanner.next with
  | (.ok lexeme, behind) => .ok ⟨lexeme, behind⟩
  | (.error fault, _) => .error fault

/-- A bound on how many lexemes can still be taken before the end. -/
def remaining (cursor : Cursor) : Nat :=
  if cursor.lookahead.token = .endOfInput then 0 else cursor.scanner.rest.length + 1

theorem ofScanner_remaining_le {scanner : Scanner} {cursor : Cursor}
    (started : ofScanner scanner = .ok cursor) :
    cursor.remaining ≤ scanner.rest.length := by
  unfold ofScanner at started
  split at started
  · rename_i lexeme behind step
    cases started
    unfold remaining
    split
    · exact Nat.zero_le _
    · rename_i more
      exact Scanner.next_rest_length_lt step (by rintro position ⟨⟩; exact more rfl)
  · cases started

/-- The fault of a lexeme in view that is not what is asked for. -/
def unexpected (cursor : Cursor) (expected : Expectation) : Fault :=
  .unexpectedToken expected cursor.lookahead.token cursor.lookahead.position

/-- Takes the lexeme in view, if it is of the kind that is asked for, and pulls the
next one.  Only the end of the input can be taken again and again. -/
def eat (cursor : Cursor) (expected : Token.Kind) :
    Except Fault { next : Cursor // expected ≠ .endOfInput → next.remaining < cursor.remaining } :=
  if seen : cursor.lookahead.token.kind = expected then
    match pulled : ofScanner cursor.scanner with
    | .ok next =>
        .ok ⟨next, fun more => by
          have bound := ofScanner_remaining_le pulled
          have ahead : cursor.lookahead.token ≠ .endOfInput := by
            intro ended
            exact more (by rw [← seen, ended, Token.kind])
          rw [remaining.eq_def cursor, if_neg ahead]
          exact Nat.lt_succ_of_le bound⟩
    | .error fault => .error fault
  else .error (cursor.unexpected (.kind expected))

end Cursor

end Reckon
