namespace Reckon

/-! The operators: how each is written and what it does to doubles. -/

inductive UnaryOp where
  | plus
  | negate
deriving DecidableEq, Repr

namespace UnaryOp

def symbol : UnaryOp → String
  | .plus => "+"
  | .negate => "-"

def apply : UnaryOp → Float → Float
  | .plus, operand => operand
  | .negate, operand => -operand

end UnaryOp

inductive BinaryOp where
  | add
  | subtract
  | multiply
  | divide
deriving DecidableEq, Repr

namespace BinaryOp

def symbol : BinaryOp → String
  | .add => "+"
  | .subtract => "-"
  | .multiply => "*"
  | .divide => "/"

/-- Every operation has a result; what would have none is not a number. -/
def apply : BinaryOp → Float → Float → Float
  | .add, left, right => left + right
  | .subtract, left, right => left - right
  | .multiply, left, right => left * right
  | .divide, left, right => left / right

end BinaryOp

end Reckon
