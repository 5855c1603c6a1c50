import Mathlib.Logic.Relation
import Reckon.Parser
import Reckon.Proofs.Grammar

namespace Reckon

/-! The parser as a machine that does one thing at a time.

The rules call one another, and a call is left with a tree or with a fault.  Here the calls
that are open are frames on a stack.  The machine counts the open factors up and down as it
enters and leaves them, and it remembers what the rules do not: the lexemes that were taken,
and how often the scanner was asked for one.
-/

/-- A tree and the height that is counted beside it. -/
structure Measured where
  tree : Expr
  height : Nat

namespace Machine

/-- What an open call does with the tree that it waits for. -/
inductive Frame where
  /-- The rule of an open factor is left. -/
  | factor
  | signed (op : UnaryOp)
  | grouped
  | first (precedence : Precedence)
  | linked (precedence : Precedence) (op : BinaryOp) (left : Measured)
  /-- The end of the text is asked for. -/
  | text

/-- What is to be done next. -/
inductive Task where
  | read (phrase : Phrase)
  /-- The rule of a factor runs, which was entered. -/
  | operand
  /-- A chain goes on from the tree of its first operands. -/
  | extend (precedence : Precedence) (left : Measured)
  | give (result : Measured)
  | fail (fault : Fault)

/-- One thing that a machine does. -/
inductive Action where
  /-- Enters the rule of a factor. -/
  | enter
  /-- Leaves the rule of a factor. -/
  | leave (frames : List Frame)
  | go (frames : List Frame) (task : Task)
  /-- Takes the lexeme in view before it goes on. -/
  | take (frames : List Frame) (task : Task)
  | refuse (expected : Expectation)
  | halt

end Machine

structure Machine where
  task : Machine.Task
  frames : List Machine.Frame
  cursor : Cursor
  /-- The count of open factors. -/
  nesting : Nat
  /-- What was taken so far, in order. -/
  taken : List Lexeme
  /-- How often the scanner was asked for a lexeme. -/
  pulls : Nat

namespace Machine

/-- Goes on with a tree of such a height, if the limit allows it. -/
def Action.build (height : Nat) (frames : List Frame) (task : Task) : Action :=
  if height ≤ maxHeight then .go frames task else .refuse .shallowerNesting

/-- What comes of a tree, by the call that waits for it. -/
def afterTree (token : Token) (result : Measured) : List Frame → Action
  | [] => .halt
  | .factor :: frames => .leave frames
  | .signed op :: frames =>
      let height := result.height + 1
      .build height frames (.give ⟨.unary op result.tree, height⟩)
  | .grouped :: frames =>
      if token = .rightParen then .take frames (.give result) else .refuse .closingParenthesis
  | .first precedence :: frames => .go frames (.extend precedence result)
  | .linked precedence op left :: frames =>
      let height := max left.height result.height + 1
      .build height frames (.extend precedence ⟨.binary op left.tree result.tree, height⟩)
  | .text :: frames =>
      if token = .endOfInput then .take frames (.give result) else .refuse .endOfInput

/-- A fault goes through all calls that are open. -/
def afterFault (fault : Fault) : List Frame → Action
  | [] => .halt
  | .factor :: frames => .leave frames
  | _ :: frames => .go frames (.fail fault)

/-- The rule of a factor, by the token in view. -/
def operandAction (frames : List Frame) : Token → Action
  | .plus => .take (.signed .plus :: frames) (.read .factor)
  | .minus => .take (.signed .negate :: frames) (.read .factor)
  | .leftParen => .take (.grouped :: frames) (.read .expression)
  | .integer value => .take frames (.give ⟨.literal value, 1⟩)
  | _ => .refuse .operand

def action (machine : Machine) : Action :=
  match machine.task with
  | .read .factor => if machine.nesting < maxNesting then .enter else .refuse .shallowerNesting
  | .read (.chain precedence) =>
      .go (.first precedence :: machine.frames) (.read precedence.operand)
  | .operand => operandAction machine.frames machine.cursor.lookahead.token
  | .extend precedence left =>
      match precedence.operator? machine.cursor.lookahead.token with
      | some op => .take (.linked precedence op left :: machine.frames) (.read precedence.operand)
      | none => .go machine.frames (.give left)
  | .give result => afterTree machine.cursor.lookahead.token result machine.frames
  | .fail fault => afterFault fault machine.frames

/-- Takes the lexeme in view and pulls the next one. -/
def pull (machine : Machine) (frames : List Frame) (task : Task) : Machine :=
  match Cursor.ofScanner machine.cursor.scanner with
  | .ok cursor =>
      { machine with
        task, frames, cursor
        taken := machine.taken ++ [machine.cursor.lookahead]
        pulls := machine.pulls + 1 }
  | .error fault => { machine with task := .fail fault, pulls := machine.pulls + 1 }

/-- A machine halts with the tree or the fault of its outermost call. -/
def step (machine : Machine) : Option Machine :=
  match machine.action with
  | .enter =>
      some { machine with
        task := .operand
        frames := .factor :: machine.frames
        nesting := machine.nesting + 1 }
  | .leave frames => some { machine with frames, nesting := machine.nesting - 1 }
  | .go frames task => some { machine with task, frames }
  | .take frames task => some (machine.pull frames task)
  | .refuse expected => some { machine with task := .fail (machine.cursor.unexpected expected) }
  | .halt => none

abbrev Reaches : Machine → Machine → Prop :=
  Relation.ReflTransGen fun machine next => machine.step = some next

/-- A call of a rule by itself, with so many factors open around it. -/
def reading (phrase : Phrase) (cursor : Cursor) (nesting : Nat) : Machine :=
  { task := .read phrase, frames := [], cursor, nesting, taken := [], pulls := 0 }

/-- A whole parse; its first lexeme was pulled when the parser was made. -/
def parsing (parser : Parser) : Machine where
  task := .read .expression
  frames :=
    match parser.mode with
    | .strict => [.text]
    | .lenient => []
  cursor := parser.cursor
  nesting := 0
  taken := []
  pulls := 1

/-- What a machine came to where all its calls are left. -/
def answer? (machine : Machine) : Option (Except Fault Measured) :=
  match machine.frames, machine.task with
  | [], .give result => some (.ok result)
  | [], .fail fault => some (.error fault)
  | _, _ => none

/-! What a step can do. -/

/-- When a lexeme is taken, and what is done behind it. -/
inductive Takes (machine : Machine) : List Frame → Task → Prop where
  | sign (op : UnaryOp) (task : machine.task = .operand)
      (seen : machine.cursor.lookahead.token = op.token) :
      Takes machine (.signed op :: machine.frames) (.read .factor)
  | opening (task : machine.task = .operand)
      (seen : machine.cursor.lookahead.token = .leftParen) :
      Takes machine (.grouped :: machine.frames) (.read .expression)
  | integer {value : Float} (task : machine.task = .operand)
      (seen : machine.cursor.lookahead.token = .integer value) :
      Takes machine machine.frames (.give ⟨.literal value, 1⟩)
  | operator {precedence : Precedence} {left : Measured} {op : BinaryOp}
      (task : machine.task = .extend precedence left)
      (spelled : precedence.operator? machine.cursor.lookahead.token = some op) :
      Takes machine (.linked precedence op left :: machine.frames) (.read precedence.operand)
  | closing {result : Measured} {frames : List Frame} (task : machine.task = .give result)
      (waits : machine.frames = .grouped :: frames)
      (seen : machine.cursor.lookahead.token = .rightParen) : Takes machine frames (.give result)
  | ending {result : Measured} {frames : List Frame} (task : machine.task = .give result)
      (waits : machine.frames = .text :: frames)
      (seen : machine.cursor.lookahead.token = .endOfInput) : Takes machine frames (.give result)

/-- When a machine goes on and nothing is taken. -/
inductive Goes (machine : Machine) : List Frame → Task → Prop where
  | called {precedence : Precedence} (task : machine.task = .read (.chain precedence)) :
      Goes machine (.first precedence :: machine.frames) (.read precedence.operand)
  | ended {precedence : Precedence} {left : Measured}
      (task : machine.task = .extend precedence left)
      (other : precedence.operator? machine.cursor.lookahead.token = none) :
      Goes machine machine.frames (.give left)
  | signed {op : UnaryOp} {result : Measured} {frames : List Frame}
      (task : machine.task = .give result) (waits : machine.frames = .signed op :: frames)
      (low : result.height + 1 ≤ maxHeight) :
      Goes machine frames (.give ⟨.unary op result.tree, result.height + 1⟩)
  | first {precedence : Precedence} {result : Measured} {frames : List Frame}
      (task : machine.task = .give result) (waits : machine.frames = .first precedence :: frames) :
      Goes machine frames (.extend precedence result)
  | linked {precedence : Precedence} {op : BinaryOp} {left result : Measured} {frames : List Frame}
      (task : machine.task = .give result)
      (waits : machine.frames = .linked precedence op left :: frames)
      (low : max left.height result.height + 1 ≤ maxHeight) :
      Goes machine frames (.extend precedence
        ⟨.binary op left.tree result.tree, max left.height result.height + 1⟩)
  | passed {fault : Fault} {frame : Frame} {frames : List Frame}
      (task : machine.task = .fail fault) (waits : machine.frames = frame :: frames)
      (other : frame ≠ .factor) : Goes machine frames (.fail fault)

/-- How the frames change where no factor is entered or left. -/
inductive Shifts : List Frame → List Frame → Prop where
  | same (frames : List Frame) : Shifts frames frames
  | push {frame : Frame} {frames : List Frame} (noFactor : frame ≠ .factor)
      (noText : frame ≠ .text) :
      Shifts frames (frame :: frames)
  | pop {frame : Frame} {frames : List Frame} (noFactor : frame ≠ .factor) :
      Shifts (frame :: frames) frames

/-- What a machine does, with what it depends on. -/
inductive Decides (machine : Machine) : Action → Prop where
  | enters (task : machine.task = .read .factor) (room : machine.nesting < maxNesting) :
      Decides machine .enter
  | leaves {frames : List Frame} (waits : machine.frames = .factor :: frames) :
      Decides machine (.leave frames)
  | goes {frames : List Frame} {task : Task} (goes : machine.Goes frames task) :
      Decides machine (.go frames task)
  | takes {frames : List Frame} {task : Task} (takes : machine.Takes frames task) :
      Decides machine (.take frames task)
  | refuses (expected : Expectation) : Decides machine (.refuse expected)
  | halts (answered : machine.answer?.isSome) : Decides machine .halt

section

variable {machine next : Machine} {frames : List Frame} {task : Task} {result : Measured}
  {fault : Fault}

theorem Takes.shifts (takes : machine.Takes frames task) : Shifts machine.frames frames := by
  cases takes with
  | sign | opening | operator => exact .push Frame.noConfusion Frame.noConfusion
  | integer => exact .same _
  | closing _ waits | ending _ waits =>
      rw [waits]
      exact .pop Frame.noConfusion

theorem Goes.shifts (goes : machine.Goes frames task) : Shifts machine.frames frames := by
  cases goes with
  | called => exact .push Frame.noConfusion Frame.noConfusion
  | ended => exact .same _
  | signed _ waits | first _ waits | linked _ waits =>
      rw [waits]
      exact .pop Frame.noConfusion
  | passed _ waits other =>
      rw [waits]
      exact .pop other

theorem Decides.build {height : Nat} (goes : height ≤ maxHeight → machine.Goes frames task) :
    machine.Decides (.build height frames task) := by
  rw [Action.build]
  split
  · rename_i low
    exact .goes (goes low)
  · exact .refuses _

theorem decides_afterTree (given : machine.task = .give result) :
    machine.Decides (afterTree machine.cursor.lookahead.token result machine.frames) := by
  cases waits : machine.frames with
  | nil => exact .halts (by rw [answer?, given, waits]; rfl)
  | cons frame rest =>
      cases frame with
      | factor => exact .leaves waits
      | signed op => exact .build (.signed given waits)
      | grouped =>
          rw [afterTree]
          split
          · rename_i seen
            exact .takes (.closing given waits seen)
          · exact .refuses _
      | first precedence => exact .goes (.first given waits)
      | linked precedence op left => exact .build (.linked given waits)
      | text =>
          rw [afterTree]
          split
          · rename_i seen
            exact .takes (.ending given waits seen)
          · exact .refuses _

theorem decides_afterFault (failing : machine.task = .fail fault) :
    machine.Decides (afterFault fault machine.frames) := by
  cases waits : machine.frames with
  | nil => exact .halts (by rw [answer?, failing, waits]; rfl)
  | cons frame rest =>
      cases frame with
      | factor => exact .leaves waits
      | _ => exact .goes (.passed failing waits Frame.noConfusion)

theorem decides_operandAction (runs : machine.task = .operand) :
    machine.Decides (operandAction machine.frames machine.cursor.lookahead.token) := by
  cases seen : machine.cursor.lookahead.token with
  | plus => exact .takes (.sign .plus runs seen)
  | minus => exact .takes (.sign .negate runs seen)
  | leftParen => exact .takes (.opening runs seen)
  | integer value => exact .takes (.integer runs seen)
  | _ => exact .refuses _

theorem decides_action (machine : Machine) : machine.Decides machine.action := by
  rw [action]
  split
  · rename_i called
    split
    · rename_i room
      exact .enters called room
    · exact .refuses _
  · rename_i called
    exact .goes (.called called)
  · rename_i runs
    exact decides_operandAction runs
  · rename_i linking
    split
    · rename_i spelled
      exact .takes (.operator linking spelled)
    · rename_i other
      exact .goes (.ended linking other)
  · rename_i given
    exact decides_afterTree given
  · rename_i failing
    exact decides_afterFault failing

/-- Everything that a step can do. -/
inductive Moves (machine : Machine) : Machine → Prop where
  | entered (task : machine.task = .read .factor) (room : machine.nesting < maxNesting) :
      Moves machine { machine with
        task := .operand, frames := .factor :: machine.frames, nesting := machine.nesting + 1 }
  | left {frames : List Frame} (waits : machine.frames = .factor :: frames) :
      Moves machine { machine with frames, nesting := machine.nesting - 1 }
  | went {frames : List Frame} {task : Task} (goes : machine.Goes frames task) :
      Moves machine { machine with task, frames }
  | took {frames : List Frame} {task : Task} {cursor : Cursor} (takes : machine.Takes frames task)
      (pulled : Cursor.ofScanner machine.cursor.scanner = .ok cursor) :
      Moves machine { machine with
        task, frames, cursor
        taken := machine.taken ++ [machine.cursor.lookahead]
        pulls := machine.pulls + 1 }
  | broke {frames : List Frame} {task : Task} {fault : Fault} (takes : machine.Takes frames task)
      (failed : Cursor.ofScanner machine.cursor.scanner = .error fault) :
      Moves machine { machine with task := .fail fault, pulls := machine.pulls + 1 }
  | refused (expected : Expectation) :
      Moves machine { machine with task := .fail (machine.cursor.unexpected expected) }

theorem step_of_answered (answered : machine.answer?.isSome) : machine.step = none := by
  rw [answer?] at answered
  split at answered
  · rename_i waits given
    rw [step, action, given, waits]
    rfl
  · rename_i waits failing
    rw [step, action, failing, waits]
    rfl
  · cases answered

theorem answer?_eq_ok_iff : machine.answer? = some (.ok result) ↔
    machine.frames = [] ∧ machine.task = .give result := by
  rw [answer?]
  split
  · rename_i waits given
    simp [waits, given]
  · rename_i waits failing
    simp [failing]
  · rename_i other _
    constructor
    · exact nofun
    · exact fun answered => (other result answered.1 answered.2).elim

theorem moves_of_step (stepped : machine.step = some next) : machine.Moves next := by
  have decided := machine.decides_action
  rw [step] at stepped
  generalize machine.action = action at stepped decided
  cases decided with
  | enters task room =>
      cases stepped
      exact .entered task room
  | leaves waits =>
      cases stepped
      exact .left waits
  | goes goes =>
      cases stepped
      exact .went goes
  | takes takes =>
      cases stepped
      rw [pull]
      split
      · rename_i pulled
        exact .took takes pulled
      · rename_i failed
        exact .broke takes failed
  | refuses expected =>
      cases stepped
      exact .refused expected
  | halts => cases stepped

/-- A machine is never stuck inside a call. -/
theorem step_eq_none_iff : machine.step = none ↔ machine.answer?.isSome := by
  refine ⟨fun halted => ?_, step_of_answered⟩
  have decided := machine.decides_action
  rw [step] at halted
  generalize machine.action = action at halted decided
  cases decided with
  | halts answered => exact answered
  | _ => cases halted

/-- What every step keeps is so all along a run. -/
theorem Reaches.keeps (Kept : Machine → Prop) (reached : machine.Reaches next)
    (before : Kept machine)
    (kept : ∀ {machine next : Machine}, machine.step = some next → Kept machine → Kept next) :
    Kept next := by
  induction reached with
  | refl => exact before
  | tail _ stepped ih => exact kept stepped ih

/-- A machine that can come to halt comes to halt there from wherever it went. -/
theorem Reaches.halts {last : Machine} (ran : machine.Reaches last) (halted : last.step = none)
    (reached : machine.Reaches next) : next.Reaches last := by
  induction reached with
  | refl => exact ran
  | @tail here there _ stepped ih =>
      rcases ih.cases_head with rfl | ⟨other, steppedOther, ranOn⟩
      · cases halted.symm.trans stepped
      · cases stepped.symm.trans steppedOther
        exact ranOn

end

end Machine

end Reckon
