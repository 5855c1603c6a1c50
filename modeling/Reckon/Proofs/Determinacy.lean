import Reckon.Proofs.Completeness
import Reckon.Proofs.Deliveries

namespace Reckon

/-! What the tokens decide.

A rule looks at nothing but the tokens that it takes and the one in view behind
them.  Wherever the same tokens are read, it comes to the same tree or is refused
at the same token, and it has no other way to end.
-/

namespace Rule

variable {room : Nat} {start next rest stop : Cursor} {operand content : Rule} {fault : Fault}
  {taken : List Lexeme} {tree : Expr} {depths : List Nat}

theorem signed_error {op : UnaryOp} (seen : start.lookahead.token = op.token)
    (pulled : Cursor.ofScanner start.scanner = .ok next) (failed : operand next = .error fault) :
    signed op operand start = .error fault := by
  obtain ⟨_, eaten⟩ := Cursor.exists_eat (by rw [seen, op.kind_token]) pulled
  simp only [signed, eaten, bind, Except.bind, failed]

theorem signed_tall {op : UnaryOp} (seen : start.lookahead.token = op.token)
    (pulled : Cursor.ofScanner start.scanner = .ok next) {parsed : Parsed next}
    (ran : operand next = .ok parsed) (tall : ¬ parsed.height + 1 ≤ maxHeight) :
    signed op operand start = .error (parsed.rest.unexpected .shallowerNesting) := by
  obtain ⟨_, eaten⟩ := Cursor.exists_eat (by rw [seen, op.kind_token]) pulled
  simp only [signed, eaten, bind, Except.bind, ran, Cursor.limitHeight, if_neg tall]

theorem grouped_error (seen : start.lookahead.token = .leftParen)
    (pulled : Cursor.ofScanner start.scanner = .ok next) (failed : content next = .error fault) :
    grouped content start = .error fault := by
  obtain ⟨_, eaten⟩ := Cursor.exists_eat (by rw [seen, Token.kind]) pulled
  simp only [grouped, eaten, bind, Except.bind, failed]

theorem grouped_unclosed (seen : start.lookahead.token = .leftParen)
    (pulled : Cursor.ofScanner start.scanner = .ok next) {parsed : Parsed next}
    (ran : content next = .ok parsed) (other : parsed.rest.lookahead.token ≠ .rightParen) :
    grouped content start = .error (parsed.rest.unexpected .closingParenthesis) := by
  obtain ⟨_, eaten⟩ := Cursor.exists_eat (by rw [seen, Token.kind]) pulled
  have refused := Cursor.eat_of_ne (mt Token.kind_eq_rightParen_iff.mp other)
  simp only [grouped, eaten, bind, Except.bind, ran, refused]

theorem chain_error {precedence : Precedence} (failed : operand start = .error fault) :
    chain precedence operand start = .error fault := by
  simp only [chain, bind, Except.bind, failed]

end Rule

namespace Phrase

/-- The rule that reads a phrase. -/
def rule (room : Nat) : Phrase → Rule
  | .factor => Rule.factor room
  | .chain .multiplicative => Rule.term room
  | .chain .additive => Rule.expression room

theorem rule_chain (room : Nat) (precedence : Precedence) :
    (chain precedence).rule room = Rule.chain precedence (precedence.operand.rule room) := by
  cases precedence <;> rfl

theorem rule_outcome (phrase : Phrase) (room : Nat) (start : Cursor) :
    Outcome phrase room start (phrase.rule room start) := by
  rcases phrase with _ | (_ | _)
  · exact Rule.factor_outcome room start
  · exact Rule.expression_outcome room start
  · exact Rule.term_outcome room start

theorem rule_completes (phrase : Phrase) (room : Nat) :
    Completes phrase room (phrase.rule room) := by
  rcases phrase with _ | (_ | _)
  · exact Rule.factor_completes room
  · exact Rule.expression_completes room
  · exact Rule.chain_completes .multiplicative (Rule.factor_completes room)

end Phrase

/-- A phrase that keeps within the limits is read to its tree. -/
theorem Derives.exists_parsed {phrase : Phrase} {room : Nat} {start stop : Cursor}
    {taken : List Lexeme} {tree : Expr} {depths : List Nat}
    (derived : Derives phrase (words taken) tree depths) (within : Within room tree depths)
    (read : start.Reads taken stop) (stops : phrase.Stops stop.lookahead.token) :
    ∃ parsed, phrase.rule room start = .ok parsed ∧ parsed.tree = tree ∧
      parsed.height = tree.height ∧ parsed.rest = stop := by
  have verdict := phrase.rule_completes room read derived stops
  cases ran : phrase.rule room start with
  | error fault =>
      rw [ran] at verdict
      cases verdict with
      | tooDeep _ beyond => exact absurd within beyond
  | ok parsed =>
      rw [ran] at verdict
      cases verdict with
      | built _ sameTree height sameRest => exact ⟨parsed, rfl, sameTree, height, sameRest⟩

/-- A chain that keeps within the limits, with one more operator behind it, is
about to go on from its tree with the operand of that operator. -/
theorem Derives.exists_chainTail {precedence : Precedence} {op : BinaryOp}
    (binds : op.precedence = precedence) {room : Nat} {start stop : Cursor} {taken : List Lexeme}
    {before behind : List Token} {tree : Expr} {depths : List Nat}
    (derived : Derives (.chain precedence) before tree depths) (within : Within room tree depths)
    (read : start.Reads taken stop) (spelled : words taken = before ++ op.token :: behind) :
    ∃ (left : Parsed start) (next : Cursor) (others : List Lexeme),
      left.height = tree.height ∧ left.rest.lookahead.token = op.token ∧
      Cursor.ofScanner left.rest.scanner = .ok next ∧ next.Reads others stop ∧
      words others = behind ∧
      (Phrase.chain precedence).rule room start =
        Rule.chainTail precedence (precedence.operand.rule room) left := by
  obtain ⟨takenLeft, _, rfl, spelledLeft, spelledRest⟩ := List.map_eq_append_iff.mp spelled
  obtain ⟨link, others, rfl, seen, rest⟩ := List.map_eq_cons_iff.mp spelledRest
  obtain ⟨middle, readLeft, readRest⟩ := read.exists_middle
  rw [← readRest.lookahead_eq] at seen
  subst spelledLeft
  rw [Phrase.rule_chain]
  rcases Rule.chain_reaches (precedence.operand.rule_completes room) readLeft derived
    (seen ▸ Phrase.stops_operator binds) with
    ⟨_, left, _, height, rfl, reached⟩ | ⟨beyond, _⟩
  · cases readRest with
    | cons more pulled readRight =>
        exact ⟨left, _, others, height, seen, pulled, readRight, rest, reached⟩
  · exact absurd within beyond

/-- Where the tokens are those of a refusal, the rule is refused. -/
theorem Refuses.rule_eq {phrase : Phrase} {room : Nat} {tokens : List Token} {token : Token}
    {expected : Expectation} (refused : Refuses phrase room tokens token expected)
    {start stop : Cursor} {taken : List Lexeme} (read : start.Reads taken stop)
    (spelled : words taken = tokens) (seen : stop.lookahead.token = token) :
    phrase.rule room start = .error (stop.unexpected expected) := by
  induction refused generalizing start taken with
  | operand other =>
      obtain rfl := List.map_eq_nil_iff.mp spelled
      cases read
      subst seen
      rw [Phrase.rule, Rule.factor]
      split <;> simp_all [Token.startsOperand]
  | nesting token =>
      obtain rfl := List.map_eq_nil_iff.mp spelled
      cases read
      rfl
  | signed op inner ih =>
      obtain ⟨lexeme, others, rfl, first, rest⟩ := List.map_eq_cons_iff.mp spelled
      cases read with
      | cons more pulled readRest =>
          rw [Phrase.rule, Rule.factor_signed first]
          exact Rule.signed_error first pulled (ih readRest rest seen)
  | signedHeight op operand within tall token =>
      obtain ⟨lexeme, others, rfl, first, rest⟩ := List.map_eq_cons_iff.mp spelled
      cases read with
      | cons more pulled readRest =>
          obtain ⟨parsed, ran, _, height, rfl⟩ :=
            (rest.symm ▸ operand).exists_parsed within readRest trivial
          rw [Phrase.rule, Rule.factor_signed first]
          exact Rule.signed_tall first pulled ran (by omega)
  | grouped inner ih =>
      obtain ⟨lexeme, others, rfl, first, rest⟩ := List.map_eq_cons_iff.mp spelled
      cases read with
      | cons more pulled readRest =>
          rw [Phrase.rule, Rule.factor_grouped first]
          exact Rule.grouped_error first pulled (ih readRest rest seen)
  | unclosed content within stops other =>
      obtain ⟨lexeme, others, rfl, first, rest⟩ := List.map_eq_cons_iff.mp spelled
      subst seen
      cases read with
      | cons more pulled readRest =>
          obtain ⟨parsed, ran, _, _, rfl⟩ :=
            (rest.symm ▸ content).exists_parsed within readRest stops
          rw [Phrase.rule, Rule.factor_grouped first]
          exact Rule.grouped_unclosed first pulled ran other
  | first inner ih =>
      rw [Phrase.rule_chain]
      exact Rule.chain_error (ih read spelled seen)
  | later binds leftOperand within inner ih =>
      obtain ⟨left, next, others, _, link, pulled, readRight, rest, reached⟩ :=
        leftOperand.exists_chainTail binds within read spelled
      rw [reached]
      exact Rule.chainTail_link_error binds link pulled (ih readRight rest seen)
  | joinedHeight binds leftOperand rightOperand leftWithin rightWithin tall stops =>
      obtain ⟨left, next, others, leftHeight, link, pulled, readRight, rest, reached⟩ :=
        leftOperand.exists_chainTail binds leftWithin read spelled
      subst seen
      obtain ⟨right, ran, _, rightHeight, rfl⟩ :=
        (rest.symm ▸ rightOperand).exists_parsed rightWithin readRight stops
      obtain ⟨both, _, _, _, linked⟩ := Rule.chainTail_link binds link pulled ran
      rw [reached, linked, if_neg (by omega)]

namespace Cursor.Reads

variable {start stop middle other last : Cursor} {taken others part : List Lexeme} {fault : Fault}

/-- Nothing is read past a cursor behind which the text cannot be scanned. -/
theorem exists_rest_of_broken (read : start.Reads taken stop)
    (broken : ofScanner stop.scanner = .error fault) (front : start.Reads part middle) :
    ∃ rest, taken = part ++ rest ∧ middle.Reads rest stop := by
  induction front generalizing taken with
  | nil => exact ⟨taken, rfl, read⟩
  | cons more pulled front ih =>
      cases read with
      | nil => cases broken.symm.trans pulled
      | cons _ pulled' read =>
          cases pulled'.symm.trans pulled
          obtain ⟨rest, rfl, readRest⟩ := ih read
          exact ⟨rest, rfl, readRest⟩

theorem token_eq (read : start.Reads taken stop) (readOther : other.Reads others last)
    (same : words others = words taken) (seen : last.lookahead.token = stop.lookahead.token) :
    other.lookahead.token = start.lookahead.token := by
  cases read with
  | nil =>
      obtain rfl := List.map_eq_nil_iff.mp same
      cases readOther
      exact seen
  | cons =>
      cases readOther with
      | nil => cases same
      | cons => exact (List.cons.inj same).1

/-- Where two readings take the same tokens, a part of one is a part of the other. -/
theorem exists_parallel (read : start.Reads taken stop) {rest : List Lexeme}
    (behind : middle.Reads rest last)
    (same : words (part ++ rest) = words taken)
    (seen : last.lookahead.token = stop.lookahead.token) :
    ∃ front' middle', start.Reads front' middle' ∧ words front' = words part ∧
      middle'.lookahead.token = middle.lookahead.token := by
  rw [words, List.map_append] at same
  obtain ⟨front', rest', rfl, sameFront, sameRest⟩ := List.map_eq_append_iff.mp same.symm
  obtain ⟨middle', readFront, readRest⟩ := read.exists_middle
  exact ⟨front', middle', readFront, sameFront,
    (token_eq readRest behind sameRest.symm seen).symm⟩

end Cursor.Reads

/-- Where a rule fails to read past some tokens, it fails behind the same tokens
elsewhere: had it ended sooner there, it would have done so here. -/
theorem Phrase.rule_unread {phrase : Phrase} {room : Nat} {start stop other last : Cursor}
    {taken others : List Lexeme} {fault faultOther : Fault}
    (failed : phrase.rule room start = .error fault) (read : start.Reads taken stop)
    (broken : Cursor.ofScanner stop.scanner = .error fault) (readOther : other.Reads others last)
    (same : words others = words taken) (seen : last.lookahead.token = stop.lookahead.token)
    (brokenOther : Cursor.ofScanner last.scanner = .error faultOther) :
    phrase.rule room other = .error faultOther := by
  have outcome := phrase.rule_outcome room other
  cases ran : phrase.rule room other with
  | ok parsed =>
      rw [ran] at outcome
      cases outcome with
      | parsed front derived within _ stops =>
          obtain ⟨rest, rfl, behind⟩ := readOther.exists_rest_of_broken brokenOther front
          obtain ⟨front', middle', read', sameFront, sameToken⟩ :=
            read.exists_parallel behind same seen
          obtain ⟨parsed, ok, _⟩ :=
            (sameFront.symm ▸ derived).exists_parsed within read' (sameToken ▸ stops)
          cases ok.symm.trans failed
  | error result =>
      rw [ran] at outcome
      cases outcome with
      | refused front refuses =>
          obtain ⟨rest, rfl, behind⟩ := readOther.exists_rest_of_broken brokenOther front
          obtain ⟨front', middle', read', sameFront, sameToken⟩ :=
            read.exists_parallel behind same seen
          obtain ⟨character, place, rfl⟩ := Scanner.invalid_of_ofScanner_error broken
          cases (refuses.rule_eq read' sameFront sameToken).symm.trans failed
      | unread front _ brokenFront _ =>
          obtain ⟨rest, rfl, behind⟩ := readOther.exists_rest_of_broken brokenOther front
          cases behind with
          | nil =>
              exact congrArg Except.error (Except.error.inj (brokenFront.symm.trans brokenOther))
          | cons _ pulled => cases brokenFront.symm.trans pulled

end Reckon
