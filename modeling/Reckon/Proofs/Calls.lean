import Reckon.Proofs.Acceptance
import Reckon.Proofs.Determinacy
import Reckon.Proofs.Machine

namespace Reckon

/-! From every call a machine comes to what the rule of that call comes to.

A machine that comes to a tree has taken the lexemes between the two cursors, and stands with
the frames and the count that it was called with.  One that comes to a fault stands with them
as well, wherever the fault was met.
-/

namespace Machine

section Runs

variable {machine next : Machine} {frames : List Frame} {task : Task} {fault : Fault}

/-- The machine as it goes on behind some lexemes more. -/
def behind (machine : Machine) (taken : List Lexeme) (cursor : Cursor) (frames : List Frame)
    (task : Task) : Machine :=
  { machine with
    task, frames, cursor
    taken := machine.taken ++ taken
    pulls := machine.pulls + taken.length }

theorem behind_behind (machine : Machine) (taken more : List Lexeme) (cursor other : Cursor)
    (frames others : List Frame) (task next : Task) :
    (machine.behind taken cursor frames task).behind more other others next =
      machine.behind (taken ++ more) other others next := by
  simp [behind, Nat.add_assoc]

theorem reaches_go (decided : machine.action = .go frames task) :
    machine.Reaches (machine.behind [] machine.cursor frames task) := by
  apply Relation.ReflTransGen.single
  simp [step, decided, behind]

theorem reaches_take {cursor : Cursor} (decided : machine.action = .take frames task)
    (pulled : Cursor.ofScanner machine.cursor.scanner = .ok cursor) :
    machine.Reaches (machine.behind [machine.cursor.lookahead] cursor frames task) := by
  apply Relation.ReflTransGen.single
  simp [step, decided, pull, pulled, behind]

theorem reaches_behind_go {taken : List Lexeme} {cursor : Cursor} {others : List Frame}
    {other : Task}
    (decided : (machine.behind taken cursor frames task).action = .go others other) :
    (machine.behind taken cursor frames task).Reaches
      (machine.behind taken cursor others other) := by
  have reached := reaches_go decided
  rwa [behind_behind, List.append_nil] at reached

theorem reaches_behind_take {taken : List Lexeme} {cursor next : Cursor} {others : List Frame}
    {other : Task} (decided : (machine.behind taken cursor frames task).action = .take others other)
    (pulled : Cursor.ofScanner cursor.scanner = .ok next) :
    (machine.behind taken cursor frames task).Reaches
      (machine.behind (taken ++ [cursor.lookahead]) next others other) := by
  have reached := reaches_take decided pulled
  rwa [behind_behind] at reached

/-- The call that the machine is at is left with a fault. -/
def Fails (machine : Machine) (fault : Fault) : Prop :=
  ∃ last, machine.Reaches last ∧ last.task = .fail fault ∧ last.frames = machine.frames ∧
    last.nesting = machine.nesting

theorem Fails.of_refuse {expected : Expectation} (decided : machine.action = .refuse expected) :
    machine.Fails (machine.cursor.unexpected expected) := by
  refine ⟨{ machine with task := .fail (machine.cursor.unexpected expected) }, .single ?_,
    rfl, rfl, rfl⟩
  simp [step, decided]

theorem Fails.of_pull (decided : machine.action = .take frames task)
    (failed : Cursor.ofScanner machine.cursor.scanner = .error fault) : machine.Fails fault := by
  refine ⟨{ machine with task := .fail fault, pulls := machine.pulls + 1 }, .single ?_, rfl, rfl,
    rfl⟩
  simp [step, decided, pull, failed]

theorem Fails.of_reaches (reached : machine.Reaches next) (fails : next.Fails fault)
    (sameFrames : next.frames = machine.frames) (sameNesting : next.nesting = machine.nesting) :
    machine.Fails fault := by
  obtain ⟨last, ran, failing, frames, nesting⟩ := fails
  exact ⟨last, reached.trans ran, failing, frames.trans sameFrames, nesting.trans sameNesting⟩

/-- A fault passes through a call that waits for a tree. -/
theorem Fails.pass {frame : Frame} (reached : machine.Reaches next) (fails : next.Fails fault)
    (waits : next.frames = frame :: machine.frames) (other : frame ≠ .factor)
    (sameNesting : next.nesting = machine.nesting) : machine.Fails fault := by
  obtain ⟨last, ran, failing, frames, nesting⟩ := fails
  have decided : last.action = .go machine.frames (.fail fault) := by
    rw [action, failing, frames, waits]
    cases frame <;> first | rfl | exact absurd rfl other
  exact ⟨_, (reached.trans ran).trans (reaches_go decided), rfl, rfl, nesting.trans sameNesting⟩

/-- The machine comes to what a rule comes to, and takes what lies between. -/
inductive Answers (machine : Machine) {start : Cursor} : Except Fault (Parsed start) → Prop where
  | gave {parsed : Parsed start} {taken : List Lexeme}
      (read : machine.cursor.Reads taken parsed.rest)
      (reached : machine.Reaches
        (machine.behind taken parsed.rest machine.frames (.give ⟨parsed.tree, parsed.height⟩))) :
      Answers machine (.ok parsed)
  | failed {fault : Fault} (fails : machine.Fails fault) : Answers machine (.error fault)

variable {start cursor : Cursor} {taken : List Lexeme} {result : Except Fault (Parsed start)}

theorem Answers.of_behind
    (answers : (machine.behind taken cursor machine.frames task).Answers result)
    (read : machine.cursor.Reads taken cursor)
    (reached : machine.Reaches (machine.behind taken cursor machine.frames task)) :
    machine.Answers result := by
  cases answers with
  | gave readOn ran =>
      rw [behind_behind] at ran
      exact .gave (read.append readOn) (reached.trans ran)
  | failed fails => exact .failed (.of_reaches reached fails rfl rfl)

/-- A machine that called with one frame more goes on with the tree that the frame waits for. -/
theorem Answers.called {frame : Frame} {parsed : Parsed start}
    (answers : (machine.behind taken cursor (frame :: machine.frames) task).Answers (.ok parsed))
    (reached : machine.Reaches (machine.behind taken cursor (frame :: machine.frames) task)) :
    ∃ more, cursor.Reads more parsed.rest ∧ machine.Reaches
      (machine.behind (taken ++ more) parsed.rest (frame :: machine.frames)
        (.give ⟨parsed.tree, parsed.height⟩)) := by
  cases answers with
  | @gave _ more read ran =>
      rw [behind_behind] at ran
      exact ⟨more, read, reached.trans ran⟩

theorem Answers.called_error {frame : Frame}
    (answers : (machine.behind taken cursor (frame :: machine.frames) task).Answers
      (.error fault : Except Fault (Parsed start)))
    (reached : machine.Reaches (machine.behind taken cursor (frame :: machine.frames) task))
    (other : frame ≠ .factor) : machine.Fails fault := by
  cases answers with
  | failed fails => exact .pass reached fails rfl other rfl

end Runs

/-- With so many factors open, the machine reads a phrase as a rule does. -/
def Follows (rule : Rule) (phrase : Phrase) (nesting : Nat) : Prop :=
  ∀ machine : Machine, machine.task = .read phrase → machine.nesting = nesting →
    machine.Answers (rule machine.cursor)

section Takes

variable {machine : Machine} {phrase : Phrase} {rule : Rule} {frame : Frame} {next : Cursor}
  {fault : Fault}

theorem Follows.answers (follows : Follows rule phrase machine.nesting) (taken : List Lexeme)
    (cursor : Cursor) (frames : List Frame) :
    (machine.behind taken cursor frames (.read phrase)).Answers (rule cursor) :=
  follows _ rfl rfl

/-- Behind the lexeme in view a phrase is read, and the new frame waits for its tree. -/
theorem Follows.exists_taken (follows : Follows rule phrase machine.nesting)
    (decided : machine.action = .take (frame :: machine.frames) (.read phrase))
    (pulled : Cursor.ofScanner machine.cursor.scanner = .ok next) {parsed : Parsed next}
    (ran : rule next = .ok parsed) :
    ∃ others, next.Reads others parsed.rest ∧ machine.Reaches
      (machine.behind (machine.cursor.lookahead :: others) parsed.rest (frame :: machine.frames)
        (.give ⟨parsed.tree, parsed.height⟩)) := by
  have answers := follows.answers [machine.cursor.lookahead] next (frame :: machine.frames)
  rw [ran] at answers
  exact answers.called (reaches_take decided pulled)

theorem Follows.fails_taken (follows : Follows rule phrase machine.nesting)
    (decided : machine.action = .take (frame :: machine.frames) (.read phrase))
    (pulled : Cursor.ofScanner machine.cursor.scanner = .ok next)
    (failed : rule next = .error fault) (other : frame ≠ .factor) : machine.Fails fault := by
  have answers := follows.answers [machine.cursor.lookahead] next (frame :: machine.frames)
  rw [failed] at answers
  exact answers.called_error (reaches_take decided pulled) other

end Takes

section Rules

variable {machine : Machine} {operand content : Rule} {precedence : Precedence}

theorem signed_answers (op : UnaryOp) (inner : Follows operand .factor machine.nesting)
    (runs : machine.task = .operand) (seen : machine.cursor.lookahead.token = op.token) :
    machine.Answers (Rule.signed op operand machine.cursor) := by
  have decided : machine.action = .take (.signed op :: machine.frames) (.read .factor) := by
    rw [action, runs, seen]
    cases op <;> rfl
  have more : machine.cursor.lookahead.token ≠ .endOfInput := seen ▸ op.token_ne_endOfInput
  have kind : machine.cursor.lookahead.token.kind = op.kind := by rw [seen, op.kind_token]
  unfold Rule.signed
  cases eaten : machine.cursor.eat op.kind with
  | error fault => exact .failed (.of_pull decided (Cursor.ofScanner_of_eat_error kind eaten))
  | ok result =>
      obtain ⟨next, shorter⟩ := result
      have pulled := Cursor.ofScanner_of_eat_ok kind eaten
      simp only [bind, Except.bind]
      cases ran : operand next with
      | error fault => exact .failed (inner.fails_taken decided pulled ran Frame.noConfusion)
      | ok parsed =>
          obtain ⟨others, read, reached⟩ := inner.exists_taken decided pulled ran
          simp only [Cursor.limitHeight]
          by_cases low : parsed.height + 1 ≤ maxHeight
          · simp only [if_pos low]
            exact .gave (.cons more pulled read) (reached.trans (reaches_behind_go (if_pos low)))
          · simp only [if_neg low]
            exact .failed (.pass reached (.of_refuse (if_neg low)) rfl Frame.noConfusion rfl)

theorem grouped_answers (inner : Follows content .expression machine.nesting)
    (runs : machine.task = .operand) (seen : machine.cursor.lookahead.token = .leftParen) :
    machine.Answers (Rule.grouped content machine.cursor) := by
  have decided : machine.action = .take (.grouped :: machine.frames) (.read .expression) := by
    rw [action, runs, seen]
    rfl
  have more : machine.cursor.lookahead.token ≠ .endOfInput := by simp [seen]
  have kind : machine.cursor.lookahead.token.kind = .leftParen := by rw [seen, Token.kind]
  unfold Rule.grouped
  cases eaten : machine.cursor.eat .leftParen with
  | error fault => exact .failed (.of_pull decided (Cursor.ofScanner_of_eat_error kind eaten))
  | ok result =>
      obtain ⟨next, shorter⟩ := result
      have pulled := Cursor.ofScanner_of_eat_ok kind eaten
      simp only [bind, Except.bind]
      cases ran : content next with
      | error fault => exact .failed (inner.fails_taken decided pulled ran Frame.noConfusion)
      | ok parsed =>
          obtain ⟨others, read, reached⟩ := inner.exists_taken decided pulled ran
          dsimp only
          by_cases closed : parsed.rest.lookahead.token = .rightParen
          · have ahead : parsed.rest.lookahead.token ≠ .endOfInput := by simp [closed]
            have closing := Token.kind_eq_rightParen_iff.mpr closed
            cases passed : parsed.rest.eat .rightParen with
            | error fault =>
                have failed := Cursor.ofScanner_of_eat_error closing passed
                exact .failed
                  (.pass reached (.of_pull (if_pos closed) failed) rfl Frame.noConfusion rfl)
            | ok result =>
                have pulledLast := Cursor.ofScanner_of_eat_ok closing passed
                exact .gave (.cons more pulled (read.append (.single ahead pulledLast)))
                  (reached.trans (reaches_behind_take (if_pos closed) pulledLast))
          · rw [Cursor.eat_of_ne (mt Token.kind_eq_rightParen_iff.mp closed)]
            exact .failed (.pass reached (.of_refuse (if_neg closed)) rfl Frame.noConfusion rfl)

theorem action_of_operator {left : Measured} {op : BinaryOp}
    (linking : machine.task = .extend precedence left)
    (spelled : precedence.operator? machine.cursor.lookahead.token = some op) :
    machine.action =
      .take (.linked precedence op left :: machine.frames) (.read precedence.operand) := by
  simp only [action, linking, spelled]

theorem action_of_no_operator {left : Measured} (linking : machine.task = .extend precedence left)
    (other : precedence.operator? machine.cursor.lookahead.token = none) :
    machine.action = .go machine.frames (.give left) := by
  simp only [action, linking, other]

theorem chainTail_answers {machine : Machine} {start : Cursor} (left : Parsed start)
    (inner : Follows operand precedence.operand machine.nesting)
    (linking : machine.task = .extend precedence ⟨left.tree, left.height⟩)
    (here : machine.cursor = left.rest) :
    machine.Answers (Rule.chainTail precedence operand left) := by
  obtain ⟨tree, height, rest, shorterLeft⟩ := left
  subst here
  rw [Rule.chainTail]
  split
  · rename_i ends
    exact .gave (.nil _) (reaches_go (action_of_no_operator linking ends))
  · rename_i op spelled
    have more := Precedence.ne_endOfInput_of_operator? spelled
    have decided := action_of_operator linking spelled
    dsimp only
    cases eaten : machine.cursor.eat machine.cursor.lookahead.token.kind with
    | error fault => exact .failed (.of_pull decided (Cursor.ofScanner_of_eat_error rfl eaten))
    | ok result =>
        obtain ⟨next, passed⟩ := result
        have pulled := Cursor.ofScanner_of_eat_ok rfl eaten
        simp only [bind, Except.bind]
        cases ran : operand next with
        | error fault => exact .failed (inner.fails_taken decided pulled ran Frame.noConfusion)
        | ok right =>
            obtain ⟨others, read, reached⟩ := inner.exists_taken decided pulled ran
            simp only [Cursor.limitHeight]
            by_cases low : max height right.height + 1 ≤ maxHeight
            · simp only [if_pos low]
              have : right.rest.remaining < machine.cursor.remaining :=
                Nat.lt_trans right.shorter
                  (passed (Precedence.kind_ne_endOfInput_of_operator? spelled))
              exact .of_behind (chainTail_answers _ inner rfl rfl) (.cons more pulled read)
                (reached.trans (reaches_behind_go (if_pos low)))
            · simp only [if_neg low]
              exact .failed (.pass reached (.of_refuse (if_neg low)) rfl Frame.noConfusion rfl)
termination_by machine.cursor.remaining

theorem chain_follows (precedence : Precedence) {nesting : Nat}
    (inner : Follows operand precedence.operand nesting) :
    Follows (Rule.chain precedence operand) (.chain precedence) nesting := by
  rintro machine called rfl
  have reached := reaches_go (show machine.action = .go (.first precedence :: machine.frames)
    (.read precedence.operand) by rw [action, called])
  have answers := inner.answers [] machine.cursor (.first precedence :: machine.frames)
  unfold Rule.chain
  simp only [bind, Except.bind]
  cases ran : operand machine.cursor with
  | error fault =>
      rw [ran] at answers
      exact .failed (answers.called_error reached Frame.noConfusion)
  | ok first =>
      rw [ran] at answers
      obtain ⟨others, read, reachedFirst⟩ := answers.called reached
      have extended := reachedFirst.trans (reaches_behind_go rfl)
      exact .of_behind (chainTail_answers first inner rfl rfl) read extended

theorem operand_answers {room : Nat} (inner : Follows (Rule.factor room) .factor machine.nesting)
    (runs : machine.task = .operand) :
    machine.Answers (Rule.factor (room + 1) machine.cursor) := by
  rw [Rule.factor]
  split
  · rename_i seen
    exact signed_answers .plus inner runs seen
  · rename_i seen
    exact signed_answers .negate inner runs seen
  · rename_i seen
    exact grouped_answers (chain_follows .additive (chain_follows .multiplicative inner)) runs seen
  · rename_i value seen
    have decided : machine.action = .take machine.frames (.give ⟨.literal value, 1⟩) := by
      rw [action, runs, seen]
      rfl
    have more : machine.cursor.lookahead.token ≠ .endOfInput := by simp [seen]
    have kind : machine.cursor.lookahead.token.kind = .integer := by rw [seen, Token.kind]
    simp only [bind, Except.bind]
    cases eaten : machine.cursor.eat .integer with
    | error fault => exact .failed (.of_pull decided (Cursor.ofScanner_of_eat_error kind eaten))
    | ok result =>
        have pulled := Cursor.ofScanner_of_eat_ok kind eaten
        exact .gave (.single more pulled) (reaches_take decided pulled)
  · refine .failed (.of_refuse ?_)
    simp only [action, runs]
    unfold operandAction
    split <;> simp_all

/-- The rule of a factor is entered and left, whatever it comes to. -/
theorem Answers.of_entered {start : Cursor} {result : Except Fault (Parsed start)}
    (called : machine.task = .read .factor) (room : machine.nesting < maxNesting)
    (answers : Answers { machine with
      task := .operand
      frames := .factor :: machine.frames
      nesting := machine.nesting + 1 } result) :
    machine.Answers result := by
  have entered : machine.step = some { machine with
      task := .operand, frames := .factor :: machine.frames, nesting := machine.nesting + 1 } := by
    simp [step, action, called, room]
  cases answers with
  | gave read reached => exact .gave read (.head entered (reached.tail rfl))
  | failed fails =>
      obtain ⟨last, ran, failing, frames, nesting⟩ := fails
      have left : last.step =
          some { last with frames := machine.frames, nesting := last.nesting - 1 } := by
        simp [step, action, failing, frames, afterFault]
      refine .failed ⟨_, .head entered (ran.tail left), failing, rfl, ?_⟩
      rw [nesting]
      rfl

theorem factor_follows {room nesting : Nat} (rooms : nesting + room = maxNesting) :
    Follows (Rule.factor room) .factor nesting := by
  induction room generalizing nesting with
  | zero =>
      rintro machine called rfl
      refine .failed (.of_refuse ?_)
      rw [action, called]
      exact if_neg (by omega)
  | succ room ih =>
      rintro machine called rfl
      have inner : Follows (Rule.factor room) .factor (machine.nesting + 1) := ih (by omega)
      exact .of_entered called (by omega) (operand_answers inner rfl)

end Rules

theorem phrase_follows (phrase : Phrase) {nesting : Nat} (nested : nesting ≤ maxNesting) :
    Follows (phrase.rule (maxNesting - nesting)) phrase nesting := by
  have factor := factor_follows (Nat.add_sub_cancel' nested)
  rcases phrase with _ | (_ | _)
  · exact factor
  · exact chain_follows .additive (chain_follows .multiplicative factor)
  · exact chain_follows .multiplicative factor

section Halts

variable {machine : Machine} {start cursor : Cursor} {result : Except Fault (Parsed start)}
  {fault : Fault} {scanner : Scanner}

/-- A call by itself halts with the result of its rule. -/
theorem Answers.exists_last (answers : machine.Answers result) (outermost : machine.frames = []) :
    ∃ last, machine.Reaches last ∧ last.nesting = machine.nesting ∧
      last.answer? = some (result.map fun parsed => ⟨parsed.tree, parsed.height⟩) := by
  cases answers with
  | gave read reached =>
      refine ⟨_, reached, rfl, ?_⟩
      rw [outermost]
      rfl
  | failed fails =>
      obtain ⟨last, reached, failing, frames, nesting⟩ := fails
      refine ⟨last, reached, nesting, ?_⟩
      rw [answer?, failing, frames, outermost]
      rfl

theorem Fails.exists_last (fails : machine.Fails fault) (asked : machine.frames = [.text]) :
    ∃ last, machine.Reaches last ∧ last.answer? = some (.error fault) := by
  obtain ⟨last, reached, failing, frames, nesting⟩ := fails
  have passed : last.action = .go [] (.fail fault) := by
    rw [action, failing, frames, asked]
    rfl
  exact ⟨_, reached.trans (reaches_go passed), rfl⟩

/-- A whole parse halts with the result of the parser. -/
theorem parsing_halts (mode : Mode) (started : Cursor.ofScanner scanner = .ok cursor) :
    ∃ last result, (parsing ⟨cursor, mode⟩).Reaches last ∧ last.answer? = some result ∧
      (⟨cursor, mode⟩ : Parser).parse = result.map Measured.tree := by
  have answers : Answers (parsing ⟨cursor, mode⟩) (Rule.expression maxNesting cursor) :=
    phrase_follows .expression (Nat.zero_le maxNesting) _ rfl rfl
  cases mode with
  | lenient =>
      obtain ⟨last, reached, _, answered⟩ := answers.exists_last rfl
      refine ⟨last, _, reached, answered, ?_⟩
      simp only [Parser.parse, bind, Except.bind]
      cases Rule.expression maxNesting cursor <;> rfl
  | strict =>
      cases ran : Rule.expression maxNesting cursor with
      | error fault =>
          rw [ran] at answers
          cases answers with
          | failed fails =>
              obtain ⟨last, reached, answered⟩ := fails.exists_last rfl
              refine ⟨last, _, reached, answered, ?_⟩
              simp only [Parser.parse, bind, Except.bind, ran]
              rfl
      | ok parsed =>
          rw [ran] at answers
          rw [Parser.parse_strict_of_expression started ran]
          cases answers with
          | gave read reached =>
              by_cases ended : parsed.rest.lookahead.token = .endOfInput
              · obtain ⟨before, startedLast⟩ := read.exists_ofScanner started
                obtain ⟨next, pulled⟩ := Cursor.exists_ofScanner_of_ended startedLast ended
                refine ⟨_, _, reached.trans (reaches_behind_take (if_pos ended) pulled), rfl, ?_⟩
                rw [if_pos ended]
                rfl
              · have fails := Fails.of_reaches reached (.of_refuse (if_neg ended)) rfl rfl
                obtain ⟨last, refused, answered⟩ := fails.exists_last rfl
                refine ⟨last, _, refused, answered, ?_⟩
                rw [if_neg ended]
                rfl

end Halts

end Machine

end Reckon
