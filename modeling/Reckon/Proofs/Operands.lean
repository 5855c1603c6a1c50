import Reckon.Proofs.Readability

namespace Reckon

/-! Where the operands stand in the text of a tree.

An operand is reached past everything on its left.  As long as that can be read, the
parser comes to the operand with as many factors open as there are signs and
parentheses around it, and what then refuses the operand refuses the text.
-/

/-- What a run of digits denotes: a whole number, or infinity past the largest double. -/
def Number.Denoted (value : Float) : Prop :=
  isNegative value = false ∧ (Whole value ∨ view value = .infinite false)

theorem Number.Denoted.exists_front {value : Float} (denoted : Denoted value) :
    ∃ character others, (text value).toList = character :: others ∧
      (character.isDigit = true ∨ character :: others = ['i', 'n', 'f']) := by
  rcases denoted.2 with whole | passed
  · obtain ⟨number, written, _⟩ := text_of_whole denoted.1 whole
    obtain ⟨character, others, split⟩ := List.exists_cons_of_ne_nil (@Nat.toDigits_ne_nil number 10)
    have digit : character.isDigit = true :=
      isDigit_of_mem_toDigits character (split ▸ List.mem_cons_self)
    exact ⟨character, others, by rw [written, Nat.toList_repr, split], .inl digit⟩
  · exact ⟨'i', ['n', 'f'], by rw [text, passed]; rfl, .inr rfl⟩

@[simp] theorem UnaryOp.utf8ByteSize_symbol (op : UnaryOp) : op.symbol.utf8ByteSize = 1 := by
  cases op <;> rfl

@[simp] theorem BinaryOp.utf8ByteSize_symbol (op : BinaryOp) : op.symbol.utf8ByteSize = 1 := by
  cases op <;> rfl

@[simp] theorem utf8ByteSize_opening : "(".utf8ByteSize = 1 := rfl

namespace Expr

/-- The literals of the tree are such as are read. -/
abbrev Denoted (tree : Expr) : Prop := tree.Every Number.Denoted

/-- `tree.OperandAt depth before`: in the text of the tree an operand stands behind
`before`, with `depth` signs and parentheses around it.  An operand that has a sign is
one, and what the sign applies to is another.  The tree has no negative literals. -/
inductive OperandAt : Expr → Nat → String → Prop where
  | whole (tree : Expr) : OperandAt tree 0 ""
  | signed (op : UnaryOp) (operand : Expr) : OperandAt (.unary op operand) 1 "("
  | operand (op : UnaryOp) {operand : Expr} {depth : Nat} {before : String}
      (inner : OperandAt operand depth before) :
      OperandAt (.unary op operand) (depth + 2) ("(" ++ op.symbol ++ before)
  | left (op : BinaryOp) {left : Expr} (right : Expr) {depth : Nat} {before : String}
      (inner : OperandAt left depth before) :
      OperandAt (.binary op left right) (depth + 1) ("(" ++ before)
  | right (op : BinaryOp) (left : Expr) {right : Expr} {depth : Nat} {before : String}
      (inner : OperandAt right depth before) :
      OperandAt (.binary op left right) (depth + 1)
        ("(" ++ left.render ++ " " ++ op.symbol ++ " " ++ before)

variable {tree : Expr} {depth : Nat} {before : String}

/-- There are operands at every depth that the text has. -/
theorem exists_operandAt (denoted : tree.Denoted)
    (few : depth < tree.levels) : ∃ before, tree.OperandAt depth before := by
  induction tree generalizing depth with
  | literal value =>
      have none : depth = 0 := by simpa [levels, (every_literal.mp denoted).1] using few
      subst none
      exact ⟨_, .whole _⟩
  | unary op operand ih =>
      rw [levels] at few
      rcases depth with _ | _ | depth
      · exact ⟨_, .whole _⟩
      · exact ⟨_, .signed op operand⟩
      · obtain ⟨before, inner⟩ := @ih depth (every_unary.mp denoted) (by omega)
        exact ⟨_, .operand op inner⟩
  | binary op left right leftIH rightIH =>
      obtain ⟨leftDenoted, rightDenoted⟩ := every_binary.mp denoted
      rw [levels] at few
      cases depth with
      | zero => exact ⟨_, .whole _⟩
      | succ depth =>
          rcases Nat.lt_or_ge depth left.levels with inLeft | beyond
          · obtain ⟨before, inner⟩ := leftIH leftDenoted inLeft
            exact ⟨_, .left op right inner⟩
          · obtain ⟨before, inner⟩ := @rightIH depth rightDenoted (by omega)
            exact ⟨_, .right op left inner⟩

/-- What an operand can start with. -/
inductive Fronts : List Char → Prop where
  | symbol {character : Char} {others : List Char} {token : Token}
      (spelled : Token.ofSymbol? character = some token) (starts : token.startsOperand = true) :
      Fronts (character :: others)
  | digit {character : Char} {others : List Char} (digit : character.isDigit = true) :
      Fronts (character :: others)
  | infinity (others : List Char) : Fronts ('i' :: 'n' :: 'f' :: others)

theorem Fronts.append {text : List Char} (fronts : Fronts text) (more : List Char) :
    Fronts (text ++ more) := by
  cases fronts with
  | symbol spelled starts => exact .symbol spelled starts
  | digit digit => exact .digit digit
  | infinity others => exact .infinity (others ++ more)

theorem Denoted.fronts_render (denoted : tree.Denoted) : Fronts tree.render.toList := by
  have paren (others : List Char) : Fronts ('(' :: others) := .symbol rfl rfl
  cases tree with
  | literal value =>
      have literal := every_literal.mp denoted
      obtain ⟨character, others, written, front⟩ := literal.exists_front
      rw [render_literal, renderLiteral, literal.1, if_neg Bool.false_ne_true, written]
      rcases front with digit | infinity
      · exact .digit digit
      · exact infinity ▸ .infinity []
  | unary op operand => simpa using paren _
  | binary op left right => simpa using paren _

/-- An operand follows there. -/
theorem OperandAt.exists_fronts (stands : tree.OperandAt depth before) (denoted : tree.Denoted) :
    ∃ behind, tree.render.toList = before.toList ++ behind ∧ Fronts behind := by
  induction stands with
  | whole tree => exact ⟨_, rfl, denoted.fronts_render⟩
  | signed op operand =>
      refine ⟨op.symbol.toList ++ operand.render.toList ++ [')'], by simp, ?_⟩
      cases op <;> exact .symbol rfl rfl
  | operand op inner ih =>
      obtain ⟨behind, split, fronts⟩ := ih (every_unary.mp denoted)
      exact ⟨behind ++ [')'], by simp [split], fronts.append _⟩
  | left op right inner ih =>
      obtain ⟨behind, split, fronts⟩ := ih (every_binary.mp denoted).1
      exact ⟨_, by simp [split]; rfl, fronts.append _⟩
  | right op left inner ih =>
      obtain ⟨behind, split, fronts⟩ := ih (every_binary.mp denoted).2
      exact ⟨behind ++ [')'], by simp [split], fronts.append _⟩

theorem OperandAt.utf8ByteSize_le (stands : tree.OperandAt depth before) (denoted : tree.Denoted) :
    before.utf8ByteSize ≤ tree.render.utf8ByteSize := by
  obtain ⟨behind, split, _⟩ := stands.exists_fronts denoted
  rw [← byteLength_toList, ← byteLength_toList, split, byteLength_append]
  exact Nat.le_add_right _ _

theorem endsDigit_append_eq_false {front back : List Char} (plain : endsDigit front = false)
    (plainBack : endsDigit back = false) : endsDigit (front ++ back) = false := by
  cases back with
  | nil => rwa [List.append_nil]
  | cons first others => rwa [endsDigit_append (List.cons_ne_nil first others)]

theorem OperandAt.endsDigit_eq (stands : tree.OperandAt depth before) :
    endsDigit before.toList = false := by
  induction stands with
  | whole tree => rfl
  | signed op operand => rfl
  | operand op inner ih =>
      rw [String.toList_append]
      exact endsDigit_append_eq_false (by cases op <;> rfl) ih
  | left op right inner ih =>
      rw [String.toList_append]
      exact endsDigit_append_eq_false rfl ih
  | right op left inner ih =>
      rw [String.toList_append, String.toList_append]
      refine endsDigit_append_eq_false ?_ ih
      rw [endsDigit_append (by decide)]
      rfl

theorem OperandAt.utf8ByteSize_pos (stands : tree.OperandAt depth before) (inside : 0 < depth) :
    0 < before.utf8ByteSize := by
  cases stands with
  | whole tree => exact absurd inside (Nat.lt_irrefl 0)
  | signed op operand => exact Nat.one_pos
  | operand op inner =>
      simp only [String.utf8ByteSize_append, utf8ByteSize_opening]
      omega
  | left op right inner =>
      simp only [String.utf8ByteSize_append, utf8ByteSize_opening]
      omega
  | right op left inner =>
      simp only [String.utf8ByteSize_append, utf8ByteSize_opening]
      omega

/-- An operand has operands around it at all lesser depths, which start earlier. -/
theorem OperandAt.exists_around (stands : tree.OperandAt depth before) {fewer : Nat}
    (less : fewer < depth) :
    ∃ around, tree.OperandAt fewer around ∧ around.utf8ByteSize < before.utf8ByteSize := by
  induction stands generalizing fewer with
  | whole tree => exact absurd less (Nat.not_lt_zero _)
  | signed op operand =>
      obtain rfl := Nat.lt_one_iff.mp less
      exact ⟨_, .whole _, Nat.one_pos⟩
  | operand op inner ih =>
      have size := (OperandAt.operand op inner).utf8ByteSize_pos (Nat.succ_pos _)
      rcases fewer with _ | _ | fewer
      · exact ⟨_, .whole _, size⟩
      · refine ⟨_, .signed op _, ?_⟩
        simp only [String.utf8ByteSize_append, UnaryOp.utf8ByteSize_symbol]
        omega
      · obtain ⟨around, stands, early⟩ := @ih fewer (by omega)
        exact ⟨_, .operand op stands, by simpa using early⟩
  | left op right inner ih =>
      have size := (OperandAt.left op right inner).utf8ByteSize_pos (Nat.succ_pos _)
      cases fewer with
      | zero => exact ⟨_, .whole _, size⟩
      | succ fewer =>
          obtain ⟨around, stands, early⟩ := @ih fewer (by omega)
          exact ⟨_, .left op _ stands, by simpa using early⟩
  | right op left inner ih =>
      have size := (OperandAt.right op left inner).utf8ByteSize_pos (Nat.succ_pos _)
      cases fewer with
      | zero => exact ⟨_, .whole _, size⟩
      | succ fewer =>
          obtain ⟨around, stands, early⟩ := @ih fewer (by omega)
          exact ⟨_, .right op left stands, by simpa using early⟩

/-- The text of the tree goes on behind `before` with that of infinity. -/
def InfinityBehind (tree : Expr) (before : String) : Prop :=
  ∃ after, tree.render = before ++ ("inf" ++ after)

namespace InfinityBehind

variable {operand left right : Expr}

theorem of_operand (op : UnaryOp) (found : operand.InfinityBehind before) :
    (unary op operand).InfinityBehind ("(" ++ op.symbol ++ before) := by
  obtain ⟨after, split⟩ := found
  exact ⟨after ++ ")", by simp [split, String.append_assoc]⟩

theorem of_left (op : BinaryOp) (right : Expr) (found : left.InfinityBehind before) :
    (binary op left right).InfinityBehind ("(" ++ before) := by
  obtain ⟨after, split⟩ := found
  exact ⟨after ++ (" " ++ (op.symbol ++ (" " ++ (right.render ++ ")")))),
    by simp [split, String.append_assoc]⟩

theorem of_right (op : BinaryOp) (left : Expr) (found : right.InfinityBehind before) :
    (binary op left right).InfinityBehind
      ("(" ++ left.render ++ " " ++ op.symbol ++ " " ++ before) := by
  obtain ⟨after, split⟩ := found
  exact ⟨after ++ ")", by simp [split, String.append_assoc]⟩

theorem utf8ByteSize_lt (found : tree.InfinityBehind before) :
    before.utf8ByteSize < tree.render.utf8ByteSize := by
  obtain ⟨after, split⟩ := found
  have letters : "inf".utf8ByteSize = 3 := rfl
  rw [split, String.utf8ByteSize_append, String.utf8ByteSize_append, letters]
  omega

end InfinityBehind

theorem not_invalid_of_whole (whole : ∀ value ∈ tree.literals, Number.Whole value) :
    ∀ character ∈ tree.render.toList, ¬ Invalid character := by
  obtain ⟨tokens, _, spelled, _⟩ := render_readsAs whole
  exact spelled.not_invalid

/-- The first number that is not whole is an operand, and every character in front of it
belongs to a token. -/
theorem exists_infinite_operand (denoted : tree.Denoted)
    (broken : ¬ ∀ value ∈ tree.literals, Number.Whole value) :
    ∃ depth before, tree.OperandAt depth before ∧ tree.InfinityBehind before ∧
      ∀ character ∈ before.toList, ¬ Invalid character := by
  have opening : ∀ character ∈ "(".toList, ¬ Invalid character :=
    (Spelled.of_spells (.symbol rfl) : Spelled ['('] [.leftParen]).not_invalid
  induction tree with
  | literal value =>
      have literal := every_literal.mp denoted
      have passed := literal.2.resolve_left fun whole => broken (by simpa [literals] using whole)
      refine ⟨0, "", .whole _, ⟨"", ?_⟩, by simp⟩
      rw [render_literal, renderLiteral, literal.1, if_neg Bool.false_ne_true, Number.text, passed]
      rfl
  | unary op operand ih =>
      obtain ⟨depth, before, stands, found, valid⟩ := ih (every_unary.mp denoted) broken
      refine ⟨_, _, .operand op stands, found.of_operand op, ?_⟩
      have symbol := op.spelled.1.not_invalid
      simp only [String.toList_append, List.mem_append]
      rintro character ((inside | inside) | inside)
      · exact opening character inside
      · exact symbol character inside
      · exact valid character inside
  | binary op left right leftIH rightIH =>
      obtain ⟨leftDenoted, rightDenoted⟩ := every_binary.mp denoted
      by_cases wholeLeft : ∀ value ∈ left.literals, Number.Whole value
      · have brokenRight : ¬ ∀ value ∈ right.literals, Number.Whole value := by
          intro wholeRight
          refine broken fun value leaf => ?_
          exact (List.mem_append.mp leaf).elim (wholeLeft value) (wholeRight value)
        obtain ⟨depth, before, stands, found, valid⟩ := rightIH rightDenoted brokenRight
        refine ⟨_, _, .right op left stands, found.of_right op left, ?_⟩
        have front := not_invalid_of_whole wholeLeft
        have symbol := op.spelled.not_invalid
        intro character member
        have parts : character ∈ "(".toList ∨ character ∈ left.render.toList ∨
            character ∈ ' ' :: (op.symbol.toList ++ [' ']) ∨ character ∈ before.toList := by
          simpa [or_assoc] using member
        rcases parts with inside | inside | inside | inside
        · exact opening character inside
        · exact front character inside
        · exact symbol character inside
        · exact valid character inside
      · obtain ⟨depth, before, stands, found, valid⟩ := leftIH leftDenoted wholeLeft
        refine ⟨_, _, .left op right stands, found.of_left op right, ?_⟩
        simp only [String.toList_append, List.mem_append]
        rintro character (inside | inside)
        · exact opening character inside
        · exact valid character inside

end Expr

/-- A refusal behind a left operand that was read. -/
theorem Refuses.behind {op : BinaryOp} {room : Nat} {before taken : List Token} {left : Expr}
    {depths : List Nat} {token : Token} {expected : Expectation}
    (leftOperand : Derives .factor before left depths) (within : Within room left depths)
    (inner : Refuses .factor room taken token expected) :
    Refuses .expression room (before ++ op.token :: taken) token expected := by
  cases binds : op.precedence with
  | additive => exact .later binds leftOperand.of_factor within (.first inner)
  | multiplicative => exact .first (.later binds (.single leftOperand) within inner)

/-- What lies on the left of an operand can be read: no number that is not whole, and no
operand that is too deep, begins in front of it. -/
structure Expr.Reachable (tree : Expr) (room : Nat) (before : String) : Prop where
  integers : ∀ other, tree.InfinityBehind other → before.utf8ByteSize ≤ other.utf8ByteSize
  shallow : ∀ other, tree.OperandAt room other → before.utf8ByteSize ≤ other.utf8ByteSize

namespace Expr.Reachable

variable {operand left right : Expr} {op : UnaryOp} {joint : BinaryOp} {room : Nat}
    {before : String}

theorem of_operand
    (reachable : (unary op operand).Reachable (room + 2) ("(" ++ op.symbol ++ before)) :
    operand.Reachable room before := by
  constructor
  · intro other found
    simpa using reachable.integers _ (found.of_operand op)
  · intro other stands
    simpa using reachable.shallow _ (.operand op stands)

theorem of_left (reachable : (binary joint left right).Reachable (room + 1) ("(" ++ before)) :
    left.Reachable room before := by
  constructor
  · intro other found
    simpa using reachable.integers _ (found.of_left joint right)
  · intro other stands
    simpa using reachable.shallow _ (.left joint right stands)

section

variable (reachable : (binary joint left right).Reachable (room + 1)
  ("(" ++ left.render ++ " " ++ joint.symbol ++ " " ++ before))
include reachable

theorem of_right : right.Reachable room before := by
  constructor
  · intro other found
    simpa using reachable.integers _ (found.of_right joint left)
  · intro other stands
    simpa using reachable.shallow _ (.right joint left stands)

/-- The left operand is read whole. -/
theorem left_reads (denoted : left.Denoted) (limit : room ≤ maxHeight) :
    ∃ tokens depths, Spelled left.render.toList tokens ∧ Derives .factor tokens left depths ∧
      Within room left depths := by
  have whole : ∀ value ∈ left.literals, Number.Whole value := by
    apply Classical.byContradiction
    intro broken
    obtain ⟨_, other, _, found, _⟩ := exists_infinite_operand denoted broken
    have size := found.utf8ByteSize_lt
    have place := reachable.integers _ (found.of_left joint right)
    simp only [String.utf8ByteSize_append] at place
    omega
  have few : left.levels ≤ room := by
    apply Nat.le_of_not_lt
    intro many
    obtain ⟨other, stands⟩ := exists_operandAt denoted many
    have size := stands.utf8ByteSize_le denoted
    have place := reachable.shallow _ (.left joint right stands)
    simp only [String.utf8ByteSize_append, BinaryOp.utf8ByteSize_symbol] at place
    omega
  obtain ⟨tokens, depths, spelled, derived, deepest⟩ := render_readsAs whole
  have height := left.height_unsigned_le
  have clear : left.unsigned = left := unsigned_eq_self fun value leaf => (denoted value leaf).1
  rw [clear] at derived height
  refine ⟨tokens, depths, spelled, derived, ?_, by omega⟩
  exact fun depth member => Nat.lt_of_lt_of_le (deepest.bound depth member) few

end

end Expr.Reachable

/-- The parser comes to an operand with the room that the depth leaves, and what refuses
the operand refuses the text. -/
theorem Expr.OperandAt.refuses {tree : Expr} {depth room : Nat} {before : String}
    (stands : tree.OperandAt depth before) (denoted : tree.Denoted) (deep : depth ≤ room)
    (limit : room ≤ maxHeight) (reachable : tree.Reachable room before) :
    ∃ tokens, Spelled before.toList tokens ∧ ∀ token expected,
      Refuses .factor (room - depth) [] token expected →
        Refuses .factor room tokens token expected := by
  have opening : Spelled ['('] [.leftParen] := .of_spells (.symbol rfl)
  -- Each sign and each parenthesis takes one of the open factors that there is room for.
  induction stands generalizing room with
  | whole tree => exact ⟨[], .spaces 0, fun token expected refused => refused⟩
  | signed op operand =>
      obtain ⟨room, rfl⟩ := Nat.exists_eq_add_of_le' deep
      exact ⟨_, opening, fun token expected refused => .grouped (.first (.first refused))⟩
  | @operand op operand depth before inner ih =>
      obtain ⟨room, rfl⟩ : ∃ more, room = more + 2 := ⟨room - 2, by omega⟩
      obtain ⟨tokens, spelled, refuses⟩ := ih (every_unary.mp denoted) (by omega) (by omega)
        reachable.of_operand
      obtain ⟨symbol, plain⟩ := op.spelled
      refine ⟨.leftParen :: op.token :: tokens, ?_, fun token expected refused => ?_⟩
      · have signed := symbol.append spelled (.of_endsDigit plain)
        simpa using opening.append signed (.of_endsDigit rfl)
      · rw [Nat.add_sub_add_right] at refused
        exact .grouped (.first (.first (.signed op (refuses token expected refused))))
  | @left op left right depth before inner ih =>
      obtain ⟨room, rfl⟩ : ∃ more, room = more + 1 := ⟨room - 1, by omega⟩
      obtain ⟨tokens, spelled, refuses⟩ := ih (every_binary.mp denoted).1 (by omega) (by omega)
        reachable.of_left
      refine ⟨.leftParen :: tokens, ?_, fun token expected refused => ?_⟩
      · simpa using opening.append spelled (.of_endsDigit rfl)
      · rw [Nat.add_sub_add_right] at refused
        exact .grouped (.first (.first (refuses token expected refused)))
  | @right op left right depth before inner ih =>
      obtain ⟨room, rfl⟩ : ∃ more, room = more + 1 := ⟨room - 1, by omega⟩
      obtain ⟨leftDenoted, rightDenoted⟩ := every_binary.mp denoted
      obtain ⟨leftTokens, depths, leftSpelled, derived, within⟩ :=
        reachable.left_reads leftDenoted (by omega)
      obtain ⟨tokens, spelled, refuses⟩ := ih rightDenoted (by omega) (by omega) reachable.of_right
      refine ⟨.leftParen :: (leftTokens ++ op.token :: tokens), ?_,
        fun token expected refused => ?_⟩
      · have spaced : endsDigit (' ' :: (op.symbol.toList ++ [' '])) = false := by cases op <;> rfl
        have behind := op.spelled.append spelled (.of_endsDigit spaced)
        have both := leftSpelled.append behind (.of_startsDigit rfl)
        simpa using opening.append both (.of_endsDigit rfl)
      · rw [Nat.add_sub_add_right] at refused
        exact .grouped (.behind derived within (refuses token expected refused))

end Reckon
