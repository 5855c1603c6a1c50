import Reckon.Proofs.Reading
import Reckon.Proofs.Viability

namespace Reckon

/-! What follows from the result of a rule.

A rule that comes to a tree has read a phrase of its kind, within the limits.  One
that fails has read the beginning of a phrase, and stands at a token that cannot
go on with it or in front of a text that cannot be scanned.
-/

abbrev words (lexemes : List Lexeme) : List Token := lexemes.map Lexeme.token

/-- What a rule that reads a phrase from `start` onwards can come to.  A fault is
that of a refused token in view, or that of the scanner behind a taken one. -/
inductive Outcome (phrase : Phrase) (room : Nat) (start : Cursor) :
    Except Fault (Parsed start) → Prop where
  | parsed {parsed : Parsed start} {taken : List Lexeme} {depths : List Nat}
      (read : start.Reads taken parsed.rest)
      (derived : Derives phrase (words taken) parsed.tree depths)
      (within : Within room parsed.tree depths) (height : parsed.height = parsed.tree.height)
      (stops : phrase.Stops parsed.rest.lookahead.token) : Outcome phrase room start (.ok parsed)
  | refused {taken : List Lexeme} {stop : Cursor} {expected : Expectation}
      (read : start.Reads taken stop)
      (refuses : Refuses phrase room (words taken) stop.lookahead.token expected) :
      Outcome phrase room start (.error (stop.unexpected expected))
  | unread {taken : List Lexeme} {stop : Cursor} {fault : Fault} (read : start.Reads taken stop)
      (more : stop.lookahead.token ≠ .endOfInput)
      (failed : Cursor.ofScanner stop.scanner = .error fault)
      (begun : Begins phrase (words taken ++ [stop.lookahead.token])) :
      Outcome phrase room start (.error fault)

theorem Outcome.error_of_part {part phrase : Phrase} {room partRoom : Nat} {start behind : Cursor}
    {before : List Lexeme} {fault : Fault} (outcome : Outcome part partRoom behind (.error fault))
    (read : start.Reads before behind)
    (refuses : ∀ {taken token expected}, Refuses part partRoom taken token expected →
      Refuses phrase room (words before ++ taken) token expected)
    (begins : ∀ {tokens}, Begins part tokens → Begins phrase (words before ++ tokens)) :
    Outcome phrase room start (.error fault) := by
  cases outcome with
  | refused readPart refused =>
      exact .refused (read.append readPart) (by rw [words, List.map_append]; exact refuses refused)
  | unread readPart more failed begun =>
      refine .unread (read.append readPart) more failed ?_
      rw [words, List.map_append, List.append_assoc]
      exact begins begun

namespace Rule

variable {room : Nat} {start : Cursor} {operand content : Rule}

theorem signed_outcome {op : UnaryOp}
    (inner : ∀ cursor, Outcome .factor room cursor (operand cursor))
    (seen : start.lookahead.token = op.token) :
    Outcome .factor (room + 1) start (signed op operand start) := by
  have more : start.lookahead.token ≠ .endOfInput := seen ▸ op.token_ne_endOfInput
  have kind : start.lookahead.token.kind = op.kind := by rw [seen, op.kind_token]
  unfold signed
  cases eaten : start.eat op.kind with
  | error fault =>
      refine .unread (.nil start) more (Cursor.ofScanner_of_eat_error kind eaten) ?_
      rw [seen]
      exact (Begins.nil .factor).signed op
  | ok result =>
      obtain ⟨behind, shorter⟩ := result
      have first : start.Reads [start.lookahead] behind :=
        .single more (Cursor.ofScanner_of_eat_ok kind eaten)
      have outcome := inner behind
      simp only [bind, Except.bind]
      cases result : operand behind with
      | error fault =>
          rw [result] at outcome
          refine outcome.error_of_part first ?_ ?_
          · intro taken token expected refused
            simpa [seen] using refused.signed op
          · intro tokens begun
            simpa [seen] using begun.signed op
      | ok parsed =>
          rw [result] at outcome
          cases outcome with
          | @parsed _ taken depths read derived within height stops =>
              have derives : Derives .factor (words ([start.lookahead] ++ taken))
                  (.unary op parsed.tree) (depths.map (· + 1)) := by
                simpa [seen] using derived.signed op
              simp only [Cursor.limitHeight]
              by_cases low : parsed.height + 1 ≤ maxHeight
              · simp only [if_pos low]
                have tall : parsed.height + 1 = (Expr.unary op parsed.tree).height := by
                  rw [height, Expr.height]
                exact .parsed (first.append read) derives
                  (Within.signed_iff.mpr ⟨within, height ▸ low⟩) tall trivial
              · simp only [if_neg low]
                refine .refused (first.append read) ?_
                simpa [seen] using
                  Refuses.signedHeight op derived within (height ▸ Nat.lt_of_not_le low) _

theorem grouped_outcome (inner : ∀ cursor, Outcome .expression room cursor (content cursor))
    (seen : start.lookahead.token = .leftParen) :
    Outcome .factor (room + 1) start (grouped content start) := by
  have more : start.lookahead.token ≠ .endOfInput := by simp [seen]
  have kind : start.lookahead.token.kind = .leftParen := by rw [seen, Token.kind]
  unfold grouped
  cases eaten : start.eat .leftParen with
  | error fault =>
      refine .unread (.nil start) more (Cursor.ofScanner_of_eat_error kind eaten) ?_
      rw [seen]
      exact (Begins.nil .expression).grouped
  | ok result =>
      obtain ⟨behind, shorter⟩ := result
      have first : start.Reads [start.lookahead] behind :=
        .single more (Cursor.ofScanner_of_eat_ok kind eaten)
      have outcome := inner behind
      simp only [bind, Except.bind]
      cases result : content behind with
      | error fault =>
          rw [result] at outcome
          refine outcome.error_of_part first ?_ ?_
          · intro taken token expected refused
            simpa [seen] using refused.grouped
          · intro tokens begun
            simpa [seen] using begun.grouped
      | ok parsed =>
          rw [result] at outcome
          cases outcome with
          | @parsed _ taken depths read derived within height stops =>
              have derives : Derives .factor (words (start.lookahead :: taken) ++ [.rightParen])
                  parsed.tree (depths.map (· + 1)) := by
                simpa [seen] using derived.grouped
              dsimp only
              by_cases closed : parsed.rest.lookahead.token = .rightParen
              · have ahead : parsed.rest.lookahead.token ≠ .endOfInput := by simp [closed]
                have closing : parsed.rest.lookahead.token.kind = .rightParen := by
                  rw [closed, Token.kind]
                cases passed : parsed.rest.eat .rightParen with
                | error fault =>
                    refine .unread (first.append read) ahead
                      (Cursor.ofScanner_of_eat_error closing passed) ?_
                    rw [closed]
                    exact derives.begins
                | ok result =>
                    have last :=
                      Cursor.Reads.single ahead (Cursor.ofScanner_of_eat_ok closing passed)
                    refine .parsed ((first.append read).append last) ?_
                      (Within.grouped_iff.mpr within) height trivial
                    simpa [closed] using derives
              · rw [Cursor.eat_of_ne (mt Token.kind_eq_rightParen_iff.mp closed)]
                refine .refused (first.append read) ?_
                simpa [seen] using Refuses.unclosed derived within stops closed

theorem chainTail_outcome {precedence : Precedence} {start : Cursor}
    (inner : ∀ cursor, Outcome precedence.operand room cursor (operand cursor))
    (left : Parsed start) {taken : List Lexeme} {depths : List Nat}
    (read : start.Reads taken left.rest)
    (derived : Derives (.chain precedence) (words taken) left.tree depths)
    (within : Within room left.tree depths) (height : left.height = left.tree.height)
    (stops : precedence.operand.Stops left.rest.lookahead.token) :
    Outcome (.chain precedence) room start (chainTail precedence operand left) := by
  rw [chainTail]
  split
  · rename_i ends
    exact .parsed read derived within height (Phrase.stops_chain_iff.mpr ⟨ends, stops⟩)
  · rename_i op spelled
    obtain ⟨binds, seen⟩ := Precedence.operator?_eq_some_iff.mp spelled
    have more := Precedence.ne_endOfInput_of_operator? spelled
    cases eaten : left.rest.eat left.rest.lookahead.token.kind with
    | error fault =>
        refine .unread read more (Cursor.ofScanner_of_eat_error rfl eaten) ?_
        rw [seen]
        exact Begins.joined binds derived (Begins.nil _)
    | ok result =>
        obtain ⟨behind, passed⟩ := result
        have shorter := passed (Precedence.kind_ne_endOfInput_of_operator? spelled)
        have before : start.Reads (taken ++ [left.rest.lookahead]) behind :=
          read.append (.single more (Cursor.ofScanner_of_eat_ok rfl eaten))
        have outcome := inner behind
        simp only [bind, Except.bind]
        cases result : operand behind with
        | error fault =>
            rw [result] at outcome
            refine outcome.error_of_part before ?_ ?_
            · intro _ token expected refused
              simpa [seen] using refused.later binds derived within
            · intro tokens begun
              simpa [seen] using begun.joined binds derived
        | ok right =>
            rw [result] at outcome
            cases outcome with
            | @parsed _ takenRight rightDepths readRight derivedRight withinRight heightRight
                stopsRight =>
                have derives : Derives (.chain precedence)
                    (words (taken ++ [left.rest.lookahead] ++ takenRight))
                    (.binary op left.tree right.tree) (depths ++ rightDepths) := by
                  simpa [seen] using derived.joined binds derivedRight
                simp only [Cursor.limitHeight]
                by_cases low : max left.height right.height + 1 ≤ maxHeight
                · simp only [if_pos low]
                  have tall : max left.height right.height + 1 =
                      (Expr.binary op left.tree right.tree).height := by
                    rw [height, heightRight, Expr.height]
                  refine chainTail_outcome inner _ (before.append readRight) derives ?_ tall
                    stopsRight
                  exact Within.joined_iff.mpr ⟨within, withinRight, height ▸ heightRight ▸ low⟩
                · simp only [if_neg low]
                  refine .refused (before.append readRight) ?_
                  have tall : maxHeight < max left.tree.height right.tree.height + 1 :=
                    height ▸ heightRight ▸ Nat.lt_of_not_le low
                  simpa [seen] using Refuses.joinedHeight binds derived derivedRight within
                    withinRight tall stopsRight
termination_by left.rest.remaining
decreasing_by exact Nat.lt_trans right.shorter shorter

theorem chain_outcome (precedence : Precedence)
    (inner : ∀ cursor, Outcome precedence.operand room cursor (operand cursor)) (start : Cursor) :
    Outcome (.chain precedence) room start (chain precedence operand start) := by
  unfold chain
  have outcome := inner start
  simp only [bind, Except.bind]
  cases result : operand start with
  | error fault =>
      rw [result] at outcome
      exact outcome.error_of_part (.nil start) .first .single
  | ok first =>
      rw [result] at outcome
      cases outcome with
      | parsed read derived within height stops =>
          exact chainTail_outcome inner first read (.single derived) within height stops

theorem factor_outcome (room : Nat) (start : Cursor) :
    Outcome .factor room start (factor room start) := by
  induction room generalizing start with
  | zero =>
      unfold factor
      exact .refused (.nil start) (.nesting _)
  | succ room ih =>
      unfold factor
      split
      · rename_i seen
        exact signed_outcome ih seen
      · rename_i seen
        exact signed_outcome ih seen
      · rename_i seen
        exact grouped_outcome (chain_outcome .additive (chain_outcome .multiplicative ih)) seen
      · rename_i value seen
        have more : start.lookahead.token ≠ .endOfInput := by simp [seen]
        have derives : Derives .factor (words [start.lookahead]) (.literal value) [0] := by
          simpa [seen] using Derives.integer value
        have kind : start.lookahead.token.kind = .integer := by rw [seen, Token.kind]
        cases eaten : start.eat .integer with
        | error fault =>
            exact .unread (.nil start) more
              (Cursor.ofScanner_of_eat_error kind eaten) derives.begins
        | ok result =>
            have low : (Expr.literal value).height ≤ maxHeight := by simp [Expr.height, maxHeight]
            exact .parsed (.single more (Cursor.ofScanner_of_eat_ok kind eaten)) derives
              ⟨by simp, low⟩ rfl trivial
      · refine .refused (.nil start) (.operand ?_)
        unfold Token.startsOperand
        split <;> simp_all

theorem term_outcome (room : Nat) (start : Cursor) :
    Outcome .term room start (term room start) :=
  chain_outcome .multiplicative (factor_outcome room) start

theorem expression_outcome (room : Nat) (start : Cursor) :
    Outcome .expression room start (expression room start) :=
  chain_outcome .additive (term_outcome room) start

end Rule

end Reckon
