import Reckon.CommandLine
import Reckon.Proofs.Acceptance
import Reckon.Proofs.Calls

namespace Reckon

/-! What a parser counts on its way.

The count of open factors is the number of factors that are open, at every moment, and the
height beside a tree is the height of that tree.  Both are kept by every step, and so the
limits hold for what is really there.
-/

/-- The height that is counted beside a tree is that of the tree, and within the limit. -/
structure Measured.Exact (measured : Measured) : Prop where
  height : measured.height = measured.tree.height
  pos : 1 ≤ measured.height
  low : measured.height ≤ maxHeight

namespace Measured.Exact

variable {left right operand : Measured}

theorem literal (value : Float) : Exact ⟨.literal value, 1⟩ :=
  ⟨rfl, Nat.le_refl 1, show 1 ≤ maxHeight by decide⟩

theorem unary (op : UnaryOp) (exact : operand.Exact) (low : operand.height + 1 ≤ maxHeight) :
    Exact ⟨.unary op operand.tree, operand.height + 1⟩ := by
  refine ⟨?_, Nat.le_add_left 1 _, low⟩
  rw [Expr.height, exact.height]

theorem binary (op : BinaryOp) (leftExact : left.Exact) (rightExact : right.Exact)
    (low : max left.height right.height + 1 ≤ maxHeight) :
    Exact ⟨.binary op left.tree right.tree, max left.height right.height + 1⟩ := by
  refine ⟨?_, Nat.le_add_left 1 _, low⟩
  rw [Expr.height, leftExact.height, rightExact.height]

end Measured.Exact

namespace Machine

/-- Whether the rule of a factor runs in a call. -/
def Frame.opens : Frame → Bool
  | .factor => true
  | _ => false

/-- How many rules of factors run inside one another. -/
def openFactors (machine : Machine) : Nat := machine.frames.countP Frame.opens

def Task.Exact : Task → Prop
  | .extend _ left => left.Exact
  | .give result => result.Exact
  | _ => True

def Frame.Exact : Frame → Prop
  | .linked _ _ left => left.Exact
  | _ => True

/-- What is counted is so, with so many factors open around the outermost call. -/
structure Counts (machine : Machine) (around : Nat) : Prop where
  nesting_eq : machine.nesting = around + machine.openFactors
  nesting_le : machine.nesting ≤ maxNesting
  task : machine.task.Exact
  frames : ∀ frame ∈ machine.frames, frame.Exact

section

variable {machine next : Machine} {frames others : List Frame} {task : Task} {around : Nat}

theorem Frame.opens_eq_false {frame : Frame} (noFactor : frame ≠ .factor) :
    frame.opens = false := by
  cases frame with
  | factor => exact absurd rfl noFactor
  | _ => rfl

theorem Shifts.countP_opens (shifts : Shifts frames others) :
    others.countP Frame.opens = frames.countP Frame.opens := by
  cases shifts with
  | same => rfl
  | push noFactor => simp [Frame.opens_eq_false noFactor]
  | pop noFactor => simp [Frame.opens_eq_false noFactor]

theorem Takes.exact (takes : machine.Takes frames task) (taskExact : machine.task.Exact)
    (framesExact : ∀ frame ∈ machine.frames, frame.Exact) :
    task.Exact ∧ ∀ frame ∈ frames, frame.Exact := by
  cases takes with
  | sign | opening => exact ⟨trivial, List.forall_mem_cons.mpr ⟨trivial, framesExact⟩⟩
  | integer => exact ⟨.literal _, framesExact⟩
  | operator linking =>
      rw [linking] at taskExact
      exact ⟨trivial, List.forall_mem_cons.mpr ⟨taskExact, framesExact⟩⟩
  | closing given waits | ending given waits =>
      rw [given] at taskExact
      rw [waits] at framesExact
      exact ⟨taskExact, (List.forall_mem_cons.mp framesExact).2⟩

theorem Goes.exact (goes : machine.Goes frames task) (taskExact : machine.task.Exact)
    (framesExact : ∀ frame ∈ machine.frames, frame.Exact) :
    task.Exact ∧ ∀ frame ∈ frames, frame.Exact := by
  cases goes with
  | called => exact ⟨trivial, List.forall_mem_cons.mpr ⟨trivial, framesExact⟩⟩
  | ended linking =>
      rw [linking] at taskExact
      exact ⟨taskExact, framesExact⟩
  | signed given waits low =>
      rw [given] at taskExact
      rw [waits] at framesExact
      exact ⟨.unary _ taskExact low, (List.forall_mem_cons.mp framesExact).2⟩
  | first given waits =>
      rw [given] at taskExact
      rw [waits] at framesExact
      exact ⟨taskExact, (List.forall_mem_cons.mp framesExact).2⟩
  | linked given waits low =>
      rw [given] at taskExact
      rw [waits] at framesExact
      obtain ⟨leftExact, restExact⟩ := List.forall_mem_cons.mp framesExact
      exact ⟨.binary _ leftExact taskExact low, restExact⟩
  | passed failing waits =>
      rw [waits] at framesExact
      exact ⟨trivial, (List.forall_mem_cons.mp framesExact).2⟩

theorem Counts.step (stepped : machine.step = some next) (counts : machine.Counts around) :
    next.Counts around := by
  obtain ⟨nestingEq, nestingLe, taskExact, framesExact⟩ := counts
  rw [openFactors] at nestingEq
  cases moves_of_step stepped with
  | entered called room =>
      refine ⟨?_, room, trivial, List.forall_mem_cons.mpr ⟨trivial, framesExact⟩⟩
      rw [openFactors, List.countP_cons_of_pos rfl, nestingEq, Nat.add_assoc]
  | left waits =>
      rw [waits] at framesExact
      rw [waits, List.countP_cons_of_pos rfl] at nestingEq
      refine ⟨?_, Nat.le_trans (Nat.sub_le _ 1) nestingLe, taskExact,
        (List.forall_mem_cons.mp framesExact).2⟩
      rw [openFactors, nestingEq, ← Nat.add_assoc, Nat.add_sub_cancel]
  | went goes =>
      obtain ⟨nextTask, nextFrames⟩ := goes.exact taskExact framesExact
      refine ⟨?_, nestingLe, nextTask, nextFrames⟩
      rw [openFactors, goes.shifts.countP_opens, nestingEq]
  | took takes pulled =>
      obtain ⟨nextTask, nextFrames⟩ := takes.exact taskExact framesExact
      refine ⟨?_, nestingLe, nextTask, nextFrames⟩
      rw [openFactors, takes.shifts.countP_opens, nestingEq]
  | broke takes failed => exact ⟨nestingEq, nestingLe, trivial, framesExact⟩
  | refused expected => exact ⟨nestingEq, nestingLe, trivial, framesExact⟩

theorem counts_of_reading {phrase : Phrase} {cursor : Cursor} (nested : around ≤ maxNesting)
    (reached : (reading phrase cursor around).Reaches machine) : machine.Counts around :=
  reached.keeps (Counts · around) ⟨rfl, nested, trivial, by simp [reading]⟩ Counts.step

theorem counts_of_parsing {parser : Parser} (reached : (parsing parser).Reaches machine) :
    machine.Counts 0 := by
  refine reached.keeps (Counts · 0) ⟨?_, Nat.zero_le _, trivial, ?_⟩ Counts.step
  · rw [openFactors, parsing]
    cases parser.mode <;> rfl
  · rw [parsing]
    cases parser.mode <;> simp [Frame.Exact]

theorem Counts.of_answer {result : Measured} (counts : machine.Counts around)
    (answered : machine.answer? = some (.ok result)) : result.Exact := by
  obtain ⟨_, given⟩ := answer?_eq_ok_iff.mp answered
  have exact := counts.task
  rwa [given] at exact

end

end Machine

open Machine

theorem Phrase.rule_exact {phrase : Phrase} {cursor : Cursor} {nesting : Nat}
    (nested : nesting ≤ maxNesting) {parsed : Parsed cursor}
    (ran : phrase.rule (maxNesting - nesting) cursor = .ok parsed) :
    Measured.Exact ⟨parsed.tree, parsed.height⟩ := by
  have answers :
      Answers (reading phrase cursor nesting) (phrase.rule (maxNesting - nesting) cursor) :=
    phrase_follows phrase nested _ rfl rfl
  rw [ran] at answers
  obtain ⟨last, reached, _, answered⟩ := answers.exists_last rfl
  exact (counts_of_reading nested reached).of_answer answered

/-- A tree that is evaluated or shown is within the limit. -/
theorem height_le_of_parse {mode : Mode} {text : String} {tree : Expr}
    (accepted : parse mode text = .ok tree) : tree.height ≤ maxHeight := by
  cases started : Cursor.ofScanner (.ofText text) with
  | error fault => cases (parse_of_ofScanner_error started).symm.trans accepted
  | ok cursor =>
      obtain ⟨last, result, reached, answered, same⟩ := parsing_halts mode started
      have accepted : (⟨cursor, mode⟩ : Parser).parse = .ok tree := by
        rw [← accepted, parse, Parser.ofScanner, started]
        rfl
      cases result with
      | error fault => cases same.symm.trans accepted
      | ok measured =>
          cases same.symm.trans accepted
          have exact := (counts_of_parsing reached).of_answer answered
          exact exact.height ▸ exact.low

/-- Whatever a rule is called on, the count of open factors is exact at every moment and never
passes the limit.  The call ends with the count that it began with, and the height of a tree
that it comes to is counted exactly.  So no parse has more factors open than the limit allows,
and no tree that is evaluated or shown is taller than its own limit. -/
theorem parser_counts_exactly :
    (∀ phrase cursor nesting, nesting ≤ maxNesting →
      (∀ machine, (reading phrase cursor nesting).Reaches machine → machine.Counts nesting) ∧
      (∃ last, (reading phrase cursor nesting).Reaches last ∧ last.nesting = nesting ∧
        last.answer? = some ((phrase.rule (maxNesting - nesting) cursor).map fun parsed =>
          ⟨parsed.tree, parsed.height⟩)) ∧
      ∀ parsed, phrase.rule (maxNesting - nesting) cursor = .ok parsed →
        parsed.height = parsed.tree.height ∧ 1 ≤ parsed.height ∧ parsed.height ≤ maxHeight) ∧
    ∀ mode text,
      (∀ cursor, Cursor.ofScanner (.ofText text) = .ok cursor →
        ∀ machine, (parsing ⟨cursor, mode⟩).Reaches machine → machine.openFactors ≤ maxNesting) ∧
      (∀ value, evaluate mode text = .ok value →
        ∃ tree, parse mode text = .ok tree ∧ tree.height ≤ maxHeight ∧ value = tree.value) ∧
      ∀ shown, CommandLine.treeSection mode text = .ok shown →
        ∃ tree, parse mode text = .ok tree ∧ tree.height ≤ maxHeight ∧
          shown = CommandLine.line tree.render := by
  refine ⟨fun phrase cursor nesting nested => ⟨?_, ?_, ?_⟩, fun mode text => ⟨?_, ?_, ?_⟩⟩
  · exact fun machine reached => counts_of_reading nested reached
  · exact (phrase_follows phrase nested (reading phrase cursor nesting) rfl rfl).exists_last rfl
  · intro parsed ran
    have exact := Phrase.rule_exact nested ran
    exact ⟨exact.height, exact.pos, exact.low⟩
  · intro cursor started machine reached
    have counts := counts_of_parsing reached
    rw [← Nat.zero_add machine.openFactors, ← counts.nesting_eq]
    exact counts.nesting_le
  · intro value evaluated
    rw [evaluate_eq_map_parse] at evaluated
    cases accepted : parse mode text with
    | error fault => rw [accepted] at evaluated; cases evaluated
    | ok tree =>
        rw [accepted] at evaluated
        cases evaluated
        exact ⟨tree, rfl, height_le_of_parse accepted, rfl⟩
  · intro shown printed
    rw [CommandLine.treeSection] at printed
    cases accepted : parse mode text with
    | error fault => rw [accepted] at printed; cases printed
    | ok tree =>
        rw [accepted] at printed
        cases printed
        exact ⟨tree, rfl, height_le_of_parse accepted, rfl⟩

/-- The innermost factor that may be open has a sign, and its operand is refused. -/
theorem parser_counts_exactly_innermost :
    255 ≤ maxNesting ∧
    (∀ machine, (reading .factor ⟨⟨.minus, 0⟩, ⟨['7'], 1⟩⟩ 255).Reaches machine →
      machine.Counts 255) ∧
    (∃ last, (reading .factor ⟨⟨.minus, 0⟩, ⟨['7'], 1⟩⟩ 255).Reaches last ∧ last.nesting = 255 ∧
      last.answer? =
        some (.error (.unexpectedToken .shallowerNesting (.integer (Number.ofDigits ['7'])) 1))) ∧
    ∃ tree, parse .strict "1-(2*3)" = .ok tree ∧ tree.height ≤ maxHeight ∧ -5 = tree.value := by
  have nested : 255 ≤ maxNesting := by decide
  obtain ⟨counts, halts, _⟩ :=
    parser_counts_exactly.1 .factor ⟨⟨.minus, 0⟩, ⟨['7'], 1⟩⟩ 255 nested
  exact ⟨nested, counts, halts,
    (parser_counts_exactly.2 .strict "1-(2*3)").2.1 (-5) (by decide +kernel)⟩

end Reckon
