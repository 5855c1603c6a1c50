import Reckon.Number.Text
import Reckon.Operator

namespace Reckon

/-! Expression trees: their height, value, equality and written form. -/

inductive Expr where
  | literal (value : Float)
  | unary (op : UnaryOp) (operand : Expr)
  | binary (op : BinaryOp) (left right : Expr)
deriving DecidableEq

namespace Expr

/-- Levels of the tree, of which a literal is one. -/
def height : Expr → Nat
  | .literal _ => 1
  | .unary _ operand => operand.height + 1
  | .binary _ left right => max left.height right.height + 1

/-- The double that a tree computes, operands first. -/
def value : Expr → Float
  | .literal value => value
  | .unary op operand => op.apply operand.value
  | .binary op left right => op.apply left.value right.value

/-- Whether two trees are of one shape and have equal numbers at their leaves.
Numbers are compared as numbers: zeros of both signs are equal, and what is not
a number differs even from itself. -/
def equal : Expr → Expr → Bool
  | .literal value, .literal other => value == other
  | .unary op operand, .unary otherOp otherOperand =>
      op == otherOp && operand.equal otherOperand
  | .binary op left right, .binary otherOp otherLeft otherRight =>
      op == otherOp && left.equal otherLeft && right.equal otherRight
  | _, _ => false

/-- The written form of a literal.  The language has no signed literals, so that
a negative one is written as the negation that reads back to the same number. -/
def renderLiteral (value : Float) : String :=
  if Number.isNegative value then "(-" ++ Number.text (-value) ++ ")" else Number.text value

/-- Writes a tree behind a text.  Only ever adding at the end keeps the work in
proportion to the text, however the tree leans. -/
def renderBehind (before : String) : Expr → String
  | .literal value => before ++ renderLiteral value
  | .unary op operand => operand.renderBehind (before ++ "(" ++ op.symbol) ++ ")"
  | .binary op left right =>
      right.renderBehind (left.renderBehind (before ++ "(") ++ " " ++ op.symbol ++ " ") ++ ")"

/-- Writes a tree with parentheses around every operation. -/
def render (tree : Expr) : String := tree.renderBehind ""

theorem renderBehind_eq (before : String) (tree : Expr) :
    tree.renderBehind before = before ++ tree.render := by
  unfold render
  induction tree generalizing before with
  | literal value => simp [renderBehind]
  | unary op operand operandIH =>
      simp only [renderBehind]
      rw [operandIH (before ++ "(" ++ op.symbol), operandIH ("" ++ "(" ++ op.symbol)]
      simp [String.append_assoc]
  | binary op left right leftIH rightIH =>
      simp only [renderBehind]
      rw [rightIH, rightIH (left.renderBehind ("" ++ "(") ++ " " ++ op.symbol ++ " "),
        leftIH (before ++ "("), leftIH ("" ++ "(")]
      simp [String.append_assoc]

@[simp] theorem render_literal (value : Float) :
    (literal value).render = renderLiteral value := by
  simp [render, renderBehind]

@[simp] theorem render_unary (op : UnaryOp) (operand : Expr) :
    (unary op operand).render = "(" ++ op.symbol ++ operand.render ++ ")" := by
  rw [render, renderBehind, renderBehind_eq]
  simp

@[simp] theorem render_binary (op : BinaryOp) (left right : Expr) :
    (binary op left right).render =
      "(" ++ left.render ++ " " ++ op.symbol ++ " " ++ right.render ++ ")" := by
  rw [render, renderBehind, renderBehind_eq, renderBehind_eq]
  simp

end Expr

end Reckon
