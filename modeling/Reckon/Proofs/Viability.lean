import Reckon.Proofs.Grammar

namespace Reckon

/-! Beginnings of texts, and the tokens that no text goes on with.

A run of tokens is viable when some complete text begins with it.  `Refuses`
lists the places at which one token of lookahead settles that a phrase cannot be
read on; it says what was taken there and what was asked for, and nothing about
how the phrase is read.
-/

def Begins (phrase : Phrase) (tokens : List Token) : Prop :=
  ∃ more tree depths, Derives phrase (tokens ++ more) tree depths

/-- The tokens begin an expression that is followed by the end of the text. -/
def Viable (tokens : List Token) : Prop :=
  ∃ sentence tree depths, Derives .expression sentence tree depths ∧
    tokens <+: sentence ++ [.endOfInput]

/-- The tokens that are asked for; there is none that would make a text shallower. -/
inductive Expectation.Names : Expectation → Token → Prop where
  | operand (value : Float) : Names .operand (.integer value)
  | closingParenthesis : Names .closingParenthesis .rightParen
  | endOfInput : Names .endOfInput .endOfInput

/-- `Refuses phrase room taken token expected`: with these tokens of a phrase taken
and room for so many open factors, the token in view is not what is expected.  What
was taken before keeps within the limits. -/
inductive Refuses : Phrase → Nat → List Token → Token → Expectation → Prop where
  | operand {room : Nat} {token : Token} (other : token.startsOperand = false) :
      Refuses .factor (room + 1) [] token .operand
  | nesting (token : Token) : Refuses .factor 0 [] token .shallowerNesting
  | signed (op : UnaryOp) {room : Nat} {taken : List Token} {token : Token}
      {expected : Expectation} (inner : Refuses .factor room taken token expected) :
      Refuses .factor (room + 1) (op.token :: taken) token expected
  | signedHeight (op : UnaryOp) {room : Nat} {taken : List Token} {tree : Expr} {depths : List Nat}
      (operand : Derives .factor taken tree depths) (within : Within room tree depths)
      (tall : maxHeight < tree.height + 1) (token : Token) :
      Refuses .factor (room + 1) (op.token :: taken) token .shallowerNesting
  | grouped {room : Nat} {taken : List Token} {token : Token} {expected : Expectation}
      (inner : Refuses .expression room taken token expected) :
      Refuses .factor (room + 1) (.leftParen :: taken) token expected
  | unclosed {room : Nat} {taken : List Token} {tree : Expr} {depths : List Nat} {token : Token}
      (content : Derives .expression taken tree depths) (within : Within room tree depths)
      (stops : Phrase.expression.Stops token) (other : token ≠ .rightParen) :
      Refuses .factor (room + 1) (.leftParen :: taken) token .closingParenthesis
  | first {precedence : Precedence} {room : Nat} {taken : List Token} {token : Token}
      {expected : Expectation} (inner : Refuses precedence.operand room taken token expected) :
      Refuses (.chain precedence) room taken token expected
  | later {precedence : Precedence} {op : BinaryOp} (binds : op.precedence = precedence)
      {room : Nat} {before taken : List Token} {left : Expr} {depths : List Nat} {token : Token}
      {expected : Expectation} (leftOperand : Derives (.chain precedence) before left depths)
      (within : Within room left depths)
      (inner : Refuses precedence.operand room taken token expected) :
      Refuses (.chain precedence) room (before ++ op.token :: taken) token expected
  | joinedHeight {precedence : Precedence} {op : BinaryOp} (binds : op.precedence = precedence)
      {room : Nat} {before behind : List Token} {left right : Expr}
      {leftDepths rightDepths : List Nat}
      (leftOperand : Derives (.chain precedence) before left leftDepths)
      (rightOperand : Derives precedence.operand behind right rightDepths)
      (leftWithin : Within room left leftDepths) (rightWithin : Within room right rightDepths)
      (tall : maxHeight < max left.height right.height + 1) {token : Token}
      (stops : precedence.operand.Stops token) :
      Refuses (.chain precedence) room (before ++ op.token :: behind) token .shallowerNesting

theorem Derives.begins {phrase : Phrase} {tokens : List Token} {tree : Expr} {depths : List Nat}
    (derived : Derives phrase tokens tree depths) : Begins phrase tokens :=
  ⟨[], tree, depths, by rwa [List.append_nil]⟩

namespace Begins

variable {phrase : Phrase} {precedence : Precedence} {tokens : List Token}

theorem nil (phrase : Phrase) : Begins phrase [] :=
  ⟨_, _, _, Derives.literal phrase 0⟩

theorem signed (op : UnaryOp) (begun : Begins .factor tokens) :
    Begins .factor (op.token :: tokens) := by
  obtain ⟨more, tree, depths, derived⟩ := begun
  exact ⟨more, _, _, .signed op derived⟩

theorem grouped (begun : Begins .expression tokens) : Begins .factor (.leftParen :: tokens) := by
  obtain ⟨more, tree, depths, derived⟩ := begun
  exact ⟨more ++ [.rightParen], tree, _, by simpa using Derives.grouped derived⟩

theorem single (begun : Begins precedence.operand tokens) : Begins (.chain precedence) tokens := by
  obtain ⟨more, tree, depths, derived⟩ := begun
  exact ⟨more, tree, depths, .single derived⟩

theorem joined {op : BinaryOp} (binds : op.precedence = precedence) {before : List Token}
    {left : Expr} {depths : List Nat} (leftOperand : Derives (.chain precedence) before left depths)
    (begun : Begins precedence.operand tokens) :
    Begins (.chain precedence) (before ++ op.token :: tokens) := by
  obtain ⟨more, tree, _, derived⟩ := begun
  exact ⟨more, _, _, by simpa using Derives.joined binds leftOperand derived⟩

theorem viable (begun : Begins .expression tokens) : Viable tokens := by
  obtain ⟨more, tree, depths, derived⟩ := begun
  exact ⟨_, tree, depths, derived, by rw [List.append_assoc]; exact List.prefix_append _ _⟩

end Begins

namespace Refuses

variable {phrase : Phrase} {room : Nat} {taken : List Token} {token : Token}
    {expected : Expectation}

theorem begins_append (refused : Refuses phrase room taken token expected) (next : List Token)
    (asked : next = [] ∨ ∃ wanted, expected.Names wanted ∧ next = [wanted]) :
    Begins phrase (taken ++ next) := by
  induction refused with
  | operand other =>
      rcases asked with rfl | ⟨wanted, ⟨value⟩, rfl⟩
      · exact .nil _
      · exact (Derives.integer value).begins
  | nesting token =>
      rcases asked with rfl | ⟨wanted, named, rfl⟩
      · exact .nil _
      · cases named
  | signed op inner ih => exact (ih asked).signed op
  | signedHeight op operand within tall token =>
      rcases asked with rfl | ⟨wanted, named, rfl⟩
      · rw [List.append_nil]
        exact (Derives.signed op operand).begins
      · cases named
  | grouped inner ih => exact (ih asked).grouped
  | unclosed content within stops other =>
      rcases asked with rfl | ⟨wanted, ⟨⟩, rfl⟩
      · rw [List.append_nil]
        exact content.begins.grouped
      · exact (Derives.grouped content).begins
  | first inner ih => exact (ih asked).single
  | later binds leftOperand within inner ih =>
      rw [List.append_assoc, List.cons_append]
      exact .joined binds leftOperand (ih asked)
  | joinedHeight binds leftOperand rightOperand =>
      rcases asked with rfl | ⟨wanted, named, rfl⟩
      · rw [List.append_nil]
        exact (Derives.joined binds leftOperand rightOperand).begins
      · cases named

/-- A text that goes on with the refused token does not begin with a complete
phrase, unless it was refused only for the depth that was reached. -/
theorem blocks (refused : Refuses phrase room taken token expected)
    (grammatical : expected ≠ .shallowerNesting) {others rest more : List Token} {tree : Expr}
    {depths : List Nat} {other : Token} (complete : Derives phrase others tree depths)
    (stops : phrase.Stops other) : taken ++ token :: rest ≠ others ++ other :: more := by
  intro equal
  induction refused generalizing others rest more tree depths other with
  | operand wrong =>
      obtain ⟨first, behind, rfl, starts⟩ := complete.exists_cons
      rw [(List.cons.inj equal).1, starts] at wrong
      cases wrong
  | nesting | signedHeight | joinedHeight => exact grammatical rfl
  | signed op inner ih =>
      cases complete with
      | integer value => exact op.token_ne_integer value (List.cons.inj equal).1
      | signed op' operand => exact ih grammatical operand stops (List.cons.inj equal).2
      | grouped content => exact op.token_ne_leftParen (List.cons.inj equal).1
  | grouped inner ih =>
      cases complete with
      | integer value => cases (List.cons.inj equal).1
      | signed op operand => exact op.token_ne_leftParen (List.cons.inj equal).1.symm
      | grouped content =>
          simp only [List.cons_append, List.append_assoc, List.nil_append, List.cons.injEq,
            true_and] at equal
          exact ih grammatical content (Phrase.stops_rightParen _) equal
  | unclosed content within ends missing =>
      cases complete with
      | integer value => cases (List.cons.inj equal).1
      | signed op operand => exact op.token_ne_leftParen (List.cons.inj equal).1.symm
      | grouped content' =>
          simp only [List.cons_append, List.append_assoc, List.nil_append, List.cons.injEq,
            true_and] at equal
          obtain rfl := content.extent content' ends (Phrase.stops_rightParen _) equal
          exact missing (List.cons.inj (List.append_cancel_left equal)).1
  | first inner ih =>
      obtain ⟨first, _, _, links, rfl, derivedFirst, linked⟩ := complete.exists_links
      obtain ⟨next, behind, split, nextStops⟩ := linked.operand_stops stops more
      rw [List.append_assoc, split] at equal
      exact ih grammatical derivedFirst nextStops equal
  | later binds leftOperand within inner ih =>
      rw [List.append_assoc, List.cons_append] at equal
      obtain ⟨links, rfl, linked⟩ :=
        leftOperand.leads complete (Phrase.stops_operator binds) stops equal
      rw [List.append_assoc, List.append_cancel_left_eq] at equal
      cases linked with
      | nil =>
          rw [← (List.cons.inj equal).1] at stops
          exact Phrase.not_stops_operator binds stops
      | cons binds' derived linked' =>
          rw [List.cons_append, List.cons.injEq, List.append_assoc] at equal
          obtain ⟨next, behind, split, nextStops⟩ := linked'.operand_stops stops more
          rw [split] at equal
          exact ih grammatical derived nextStops equal.2

theorem begins (refused : Refuses phrase room taken token expected) : Begins phrase taken := by
  simpa using refused.begins_append [] (.inl rfl)

theorem not_viable (refused : Refuses .expression room taken token expected)
    (grammatical : expected ≠ .shallowerNesting) : ¬ Viable (taken ++ [token]) := by
  intro viable
  obtain ⟨sentence, tree, depths, derived, rest, equal⟩ := viable
  rw [List.append_assoc, List.singleton_append] at equal
  exact refused.blocks grammatical derived (Phrase.stops_endOfInput _) equal

theorem viable_append (refused : Refuses .expression room taken token expected) {wanted : Token}
    (named : expected.Names wanted) : Viable (taken ++ [wanted]) :=
  (refused.begins_append [wanted] (.inr ⟨wanted, named, rfl⟩)).viable

end Refuses

theorem Derives.viable_end {tokens : List Token} {tree : Expr} {depths : List Nat}
    (derived : Derives .expression tokens tree depths) : Viable (tokens ++ [.endOfInput]) :=
  ⟨tokens, tree, depths, derived, List.prefix_rfl⟩

theorem Derives.not_viable_append {tokens : List Token} {tree : Expr} {depths : List Nat}
    {token : Token} (derived : Derives .expression tokens tree depths)
    (stops : Phrase.expression.Stops token) (more : token ≠ .endOfInput) :
    ¬ Viable (tokens ++ [token]) := by
  intro viable
  obtain ⟨sentence, tree', depths', derived', rest, equal⟩ := viable
  rw [List.append_assoc, List.singleton_append] at equal
  obtain rfl := derived.extent derived' stops (Phrase.stops_endOfInput _) equal
  exact more (List.cons.inj (List.append_cancel_left equal)).1

end Reckon
