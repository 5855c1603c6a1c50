import Reckon.Proofs.Outcome

namespace Reckon

/-! What the rules make of a phrase.

Where the tokens ahead of a rule are a phrase of its kind, and the token behind
them is none that it goes on with, the rule reads all of the phrase.  It comes to
its tree, or stops at one of the limits where the phrase does not keep them.
-/

/-- The result of a rule where the phrase ahead of it is known, with its tree and
with the cursor behind it. -/
inductive Verdict (room : Nat) (tree : Expr) (depths : List Nat) (start rest : Cursor) :
    Except Fault (Parsed start) → Prop where
  | built {parsed : Parsed start} (within : Within room tree depths) (sameTree : parsed.tree = tree)
      (height : parsed.height = tree.height) (sameRest : parsed.rest = rest) :
      Verdict room tree depths start rest (.ok parsed)
  | tooDeep (cursor : Cursor) (beyond : ¬ Within room tree depths) :
      Verdict room tree depths start rest (.error (cursor.unexpected .shallowerNesting))

def Completes (phrase : Phrase) (room : Nat) (rule : Rule) : Prop :=
  ∀ {start rest : Cursor} {taken : List Lexeme} {tree : Expr} {depths : List Nat},
    start.Reads taken rest → Derives phrase (words taken) tree depths →
    phrase.Stops rest.lookahead.token → Verdict room tree depths start rest (rule start)

namespace Rule

variable {room : Nat} {start next rest : Cursor} {operand content : Rule} {taken : List Lexeme}
  {tree : Expr} {depths : List Nat}

theorem signed_verdict {op : UnaryOp} (inner : Completes .factor room operand)
    (seen : start.lookahead.token = op.token)
    (pulled : Cursor.ofScanner start.scanner = .ok next) (read : next.Reads taken rest)
    (derived : Derives .factor (words taken) tree depths) :
    Verdict (room + 1) (.unary op tree) (depths.map (· + 1)) start rest
      (signed op operand start) := by
  obtain ⟨shorter, eaten⟩ := Cursor.exists_eat (by rw [seen, op.kind_token]) pulled
  have verdict := inner read derived trivial
  unfold signed
  simp only [eaten, bind, Except.bind]
  cases result : operand next with
  | error fault =>
      rw [result] at verdict
      cases verdict with
      | tooDeep cursor beyond =>
          exact .tooDeep cursor fun within => beyond (Within.signed_iff.mp within).1
  | ok parsed =>
      rw [result] at verdict
      cases verdict with
      | built within sameTree height sameRest =>
          simp only [Cursor.limitHeight]
          by_cases low : parsed.height + 1 ≤ maxHeight
          · simp only [if_pos low]
            refine .built (Within.signed_iff.mpr ⟨within, height ▸ low⟩) ?_ ?_ sameRest
            · rw [sameTree]
            · rw [height, Expr.height]
          · simp only [if_neg low]
            exact .tooDeep _ fun within => low (height ▸ (Within.signed_iff.mp within).2)

theorem grouped_verdict {close : Cursor} (inner : Completes .expression room content)
    (seen : start.lookahead.token = .leftParen)
    (pulled : Cursor.ofScanner start.scanner = .ok next) (read : next.Reads taken close)
    (derived : Derives .expression (words taken) tree depths)
    (closed : close.lookahead.token = .rightParen)
    (passed : Cursor.ofScanner close.scanner = .ok rest) :
    Verdict (room + 1) tree (depths.map (· + 1)) start rest (grouped content start) := by
  obtain ⟨shorter, eaten⟩ := Cursor.exists_eat (by rw [seen, Token.kind]) pulled
  have verdict := inner read derived (closed ▸ Phrase.stops_rightParen _)
  unfold grouped
  simp only [eaten, bind, Except.bind]
  cases result : content next with
  | error fault =>
      rw [result] at verdict
      cases verdict with
      | tooDeep cursor beyond =>
          exact .tooDeep cursor fun within => beyond (Within.grouped_iff.mp within)
  | ok parsed =>
      rw [result] at verdict
      cases verdict with
      | built within sameTree height sameRest =>
          subst sameRest
          obtain ⟨_, eatenClose⟩ :=
            Cursor.exists_eat (Token.kind_eq_rightParen_iff.mpr closed) passed
          simp only [eatenClose]
          exact .built (Within.grouped_iff.mpr within) sameTree height rfl

theorem chainTail_link {precedence : Precedence} {op : BinaryOp}
    (binds : op.precedence = precedence)
    {left : Parsed start} (seen : left.rest.lookahead.token = op.token)
    (pulled : Cursor.ofScanner left.rest.scanner = .ok next) {right : Parsed next}
    (ran : operand next = .ok right) :
    ∃ both : Parsed start, both.tree = .binary op left.tree right.tree ∧
      both.height = max left.height right.height + 1 ∧ both.rest = right.rest ∧
      chainTail precedence operand left =
        if max left.height right.height + 1 ≤ maxHeight then chainTail precedence operand both
        else .error (right.rest.unexpected .shallowerNesting) := by
  have spelled := Precedence.operator?_eq_some_iff.mpr ⟨binds, seen⟩
  obtain ⟨taken, eaten⟩ := Cursor.exists_eat rfl pulled
  have shorter := taken (Precedence.kind_ne_endOfInput_of_operator? spelled)
  refine ⟨⟨_, _, right.rest, Nat.lt_trans right.shorter (Nat.lt_trans shorter left.shorter)⟩,
    rfl, rfl, rfl, ?_⟩
  rw [chainTail]
  split
  · rename_i ends
    cases ends.symm.trans spelled
  · rename_i op' spelled'
    cases spelled'.symm.trans spelled
    simp only [eaten, bind, Except.bind, ran, Cursor.limitHeight]
    by_cases low : max left.height right.height + 1 ≤ maxHeight
    · simp only [if_pos low]
    · simp only [if_neg low]

theorem chainTail_link_error {precedence : Precedence} {op : BinaryOp}
    (binds : op.precedence = precedence) {left : Parsed start}
    (seen : left.rest.lookahead.token = op.token)
    (pulled : Cursor.ofScanner left.rest.scanner = .ok next) {fault : Fault}
    (failed : operand next = .error fault) : chainTail precedence operand left = .error fault := by
  have spelled := Precedence.operator?_eq_some_iff.mpr ⟨binds, seen⟩
  obtain ⟨_, eaten⟩ := Cursor.exists_eat rfl pulled
  rw [chainTail]
  split
  · rename_i ends
    cases ends.symm.trans spelled
  · rename_i op' spelled'
    cases spelled'.symm.trans spelled
    simp only [eaten, bind, Except.bind, failed]

/-- A chain that has read a phrase of its own, up to a token that ends an operand,
is about to go on from the tree of that phrase. -/
theorem chain_reaches {precedence : Precedence}
    (inner : Completes precedence.operand room operand) (read : start.Reads taken rest)
    (derived : Derives (.chain precedence) (words taken) tree depths)
    (stops : precedence.operand.Stops rest.lookahead.token) :
    (Within room tree depths ∧ ∃ left : Parsed start, left.tree = tree ∧
      left.height = tree.height ∧ left.rest = rest ∧
      chain precedence operand start = chainTail precedence operand left) ∨
    (¬ Within room tree depths ∧ ∃ cursor : Cursor,
      chain precedence operand start = .error (cursor.unexpected .shallowerNesting)) := by
  generalize kind : Phrase.chain precedence = phrase at derived
  generalize spelled : words taken = tokens at derived
  induction derived generalizing taken rest with
  | integer | signed | grouped => cases kind
  | single derivedOperand =>
      cases kind
      subst spelled
      have verdict := inner read derivedOperand stops
      unfold chain
      simp only [bind, Except.bind]
      cases result : operand start with
      | error fault =>
          rw [result] at verdict
          cases verdict with
          | tooDeep cursor beyond => exact .inr ⟨beyond, cursor, rfl⟩
      | ok first =>
          rw [result] at verdict
          cases verdict with
          | built within sameTree height sameRest =>
              exact .inl ⟨within, first, sameTree, height, sameRest, rfl⟩
  | @joined _ op binds before behind left right leftDepths rightDepths _ derivedRight leftIH =>
      cases kind
      obtain ⟨takenLeft, _, rfl, spelledLeft, spelledRest⟩ := List.map_eq_append_iff.mp spelled
      obtain ⟨link, takenRight, rfl, seen, rfl⟩ := List.map_eq_cons_iff.mp spelledRest
      obtain ⟨middle, readLeft, readRest⟩ := read.exists_middle
      have sameLink := readRest.lookahead_eq
      cases readRest with
      | @cons _ next _ _ more pulled readRight =>
          rw [← sameLink] at seen
          rcases leftIH readLeft (seen ▸ Phrase.stops_operator binds) rfl spelledLeft with
            ⟨withinLeft, first, sameTree, height, rfl, reached⟩ | ⟨beyond, cursor, failed⟩
          · have verdict := inner readRight derivedRight stops
            cases result : operand next with
            | error fault =>
                rw [result] at verdict
                cases verdict with
                | tooDeep cursor beyond =>
                    refine .inr ⟨fun within => beyond (Within.joined_iff.mp within).2.1, cursor, ?_⟩
                    rw [reached, chainTail_link_error binds seen pulled result]
            | ok second =>
                rw [result] at verdict
                cases verdict with
                | built withinRight sameRight heightRight sameRest =>
                    obtain ⟨both, bothTree, bothHeight, bothRest, linked⟩ :=
                      chainTail_link binds seen pulled result
                    rw [reached, linked]
                    rw [height, heightRight] at bothHeight ⊢
                    rw [sameTree, sameRight] at bothTree
                    by_cases low : max left.height right.height + 1 ≤ maxHeight
                    · rw [if_pos low]
                      exact .inl ⟨Within.joined_iff.mpr ⟨withinLeft, withinRight, low⟩, both,
                        bothTree, bothHeight, bothRest.trans sameRest, rfl⟩
                    · rw [if_neg low]
                      exact .inr ⟨fun within => low (Within.joined_iff.mp within).2.2, _, rfl⟩
          · exact .inr ⟨fun within => beyond (Within.joined_iff.mp within).1, cursor, failed⟩

theorem chain_completes (precedence : Precedence)
    (inner : Completes precedence.operand room operand) :
    Completes (.chain precedence) room (chain precedence operand) := by
  intro start rest taken tree depths read derived stops
  obtain ⟨ends, operandStops⟩ := Phrase.stops_chain_iff.mp stops
  rcases chain_reaches inner read derived operandStops with
    ⟨within, left, sameTree, height, sameRest, reached⟩ | ⟨beyond, cursor, failed⟩
  · subst sameRest
    have stopped : chainTail precedence operand left = .ok left := by
      rw [chainTail]
      split
      · rfl
      · rename_i op spelled
        cases spelled.symm.trans ends
    rw [reached, stopped]
    exact .built within sameTree height rfl
  · rw [failed]
    exact .tooDeep cursor beyond

theorem factor_signed {op : UnaryOp} (seen : start.lookahead.token = op.token) :
    factor (room + 1) start = signed op (factor room) start := by
  unfold factor
  cases op <;> split <;> simp_all [UnaryOp.token]

theorem factor_grouped (seen : start.lookahead.token = .leftParen) :
    factor (room + 1) start = grouped (expression room) start := by
  unfold factor
  split <;> simp_all [expression, term]

theorem factor_integer {value : Float} (seen : start.lookahead.token = .integer value)
    (pulled : Cursor.ofScanner start.scanner = .ok next) :
    ∃ parsed, factor (room + 1) start = .ok parsed ∧ parsed.tree = .literal value ∧
      parsed.height = 1 ∧ parsed.rest = next := by
  have kind : start.lookahead.token.kind = .integer := by rw [seen, Token.kind]
  obtain ⟨taken, eaten⟩ := Cursor.exists_eat kind pulled
  refine ⟨⟨.literal value, 1, next, taken Token.Kind.noConfusion⟩, ?_, rfl, rfl, rfl⟩
  unfold factor
  split <;> simp_all [bind, Except.bind, pure, Except.pure]

theorem factor_completes (room : Nat) : Completes .factor room (factor room) := by
  induction room with
  | zero =>
      intro start rest taken tree depths read derived stops
      obtain ⟨depth, others, rfl⟩ := List.exists_cons_of_ne_nil derived.depths_ne_nil
      exact .tooDeep start fun within => Nat.not_lt_zero _ (within.nesting depth (by simp))
  | succ room ih =>
      intro start rest taken tree depths read derived stops
      cases read with
      | nil =>
          obtain ⟨first, others, none, _⟩ := derived.exists_cons
          cases none
      | @cons _ next _ taken more pulled readRest =>
          generalize spelled : words (start.lookahead :: taken) = tokens at derived
          cases derived with
          | integer value =>
              obtain ⟨seen, none⟩ := List.cons.inj spelled
              obtain rfl := List.map_eq_nil_iff.mp none
              cases readRest
              obtain ⟨parsed, built, sameTree, height, sameRest⟩ := factor_integer seen pulled
              rw [built]
              exact .built ⟨by simp, by simp [Expr.height, maxHeight]⟩ sameTree height sameRest
          | signed op operand =>
              obtain ⟨seen, rfl⟩ := List.cons.inj spelled
              rw [factor_signed seen]
              exact signed_verdict ih seen pulled readRest operand
          | grouped content =>
              obtain ⟨seen, spelledRest⟩ := List.cons.inj spelled
              obtain ⟨inside, last, rfl, rfl, spelledLast⟩ := List.map_eq_append_iff.mp spelledRest
              obtain ⟨lexeme, none, rfl, closed, empty⟩ := List.map_eq_cons_iff.mp spelledLast
              obtain rfl := List.map_eq_nil_iff.mp empty
              obtain ⟨close, readInside, readClose⟩ := readRest.exists_middle
              obtain rfl := readClose.lookahead_eq
              rw [factor_grouped seen]
              cases readClose with
              | cons ahead passed done =>
                  cases done
                  exact grouped_verdict
                    (chain_completes .additive (chain_completes .multiplicative ih))
                    seen pulled readInside content closed passed

theorem expression_completes (room : Nat) : Completes .expression room (expression room) :=
  chain_completes .additive (chain_completes .multiplicative (factor_completes room))

end Rule

end Reckon
