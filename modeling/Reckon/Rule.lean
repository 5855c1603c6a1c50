import Reckon.Cursor
import Reckon.Expr

namespace Reckon

/-! The rules that build the tree of an expression.

The grammar has three rules, with one lexeme of lookahead between them:

* an expression is one or more terms, joined by `+` and `-`;
* a term is one or more factors, joined by `*` and `/`;
* a factor is an integer, an expression in parentheses, or a sign and a factor.

Chains group to the left.  Two limits keep every later walk over a tree short:
how many factors may be open inside one another, and how tall a tree may grow.
-/

/-- The most factors that are open inside one another. -/
def maxNesting : Nat := 256

/-- The height of the tallest tree that is built. -/
def maxHeight : Nat := 2048

/-- A tree that was read from `start` onwards, its height, and where it ended. -/
structure Parsed (start : Cursor) where
  tree : Expr
  height : Nat
  rest : Cursor
  shorter : rest.remaining < start.remaining

/-- Reads one tree from the front of a cursor. -/
abbrev Rule := (start : Cursor) → Except Fault (Parsed start)

/-- Refuses a height that is about to be reached if it passes the limit. -/
def Cursor.limitHeight (cursor : Cursor) (height : Nat) : Except Fault Unit :=
  if height ≤ maxHeight then .ok () else .error (cursor.unexpected .shallowerNesting)

/-- How tightly an operator binds. -/
inductive Precedence where
  | additive
  | multiplicative
deriving DecidableEq, Repr

/-- The operator of a precedence that a token spells between two operands. -/
def Precedence.operator? : Precedence → Token → Option BinaryOp
  | .additive, .plus => some .add
  | .additive, .minus => some .subtract
  | .multiplicative, .times => some .multiply
  | .multiplicative, .divide => some .divide
  | _, _ => none

theorem Precedence.ne_endOfInput_of_operator? {precedence : Precedence} {token : Token}
    {op : BinaryOp} (spelled : precedence.operator? token = some op) :
    token ≠ .endOfInput := by
  rintro rfl
  cases precedence <;> cases spelled

theorem Precedence.kind_ne_endOfInput_of_operator? {precedence : Precedence} {token : Token}
    {op : BinaryOp} (spelled : precedence.operator? token = some op) :
    token.kind ≠ .endOfInput :=
  mt Token.kind_eq_endOfInput_iff.mp (ne_endOfInput_of_operator? spelled)

/-- The kind of token that spells a sign. -/
def UnaryOp.kind : UnaryOp → Token.Kind
  | .plus => .plus
  | .negate => .minus

theorem UnaryOp.kind_ne_endOfInput (op : UnaryOp) : op.kind ≠ .endOfInput := by
  cases op <;> decide

namespace Rule

/-- Extends a tree by the operators of one precedence that follow it. -/
def chainTail (precedence : Precedence) (operand : Rule) {start : Cursor}
    (left : Parsed start) : Except Fault (Parsed start) :=
  match spelled : precedence.operator? left.rest.lookahead.token with
  | none => .ok left
  | some op => do
      let ⟨behind, taken⟩ ← left.rest.eat left.rest.lookahead.token.kind
      have shorter := taken (Precedence.kind_ne_endOfInput_of_operator? spelled)
      let right ← operand behind
      let height := max left.height right.height + 1
      right.rest.limitHeight height
      chainTail precedence operand {
        tree := .binary op left.tree right.tree
        height
        rest := right.rest
        shorter := Nat.lt_trans right.shorter (Nat.lt_trans shorter left.shorter) }
termination_by left.rest.remaining
decreasing_by exact Nat.lt_trans right.shorter shorter

/-- Operands joined by the operators of one precedence, grouped to the left. -/
def chain (precedence : Precedence) (operand : Rule) : Rule := fun start => do
  let first ← operand start
  chainTail precedence operand first

/-- A sign and the operand that it applies to. -/
def signed (op : UnaryOp) (operand : Rule) : Rule := fun start => do
  let ⟨behind, taken⟩ ← start.eat op.kind
  let inner ← operand behind
  inner.rest.limitHeight (inner.height + 1)
  return {
    tree := .unary op inner.tree
    height := inner.height + 1
    rest := inner.rest
    shorter := Nat.lt_trans inner.shorter (taken op.kind_ne_endOfInput) }

/-- An opening parenthesis, what stands behind it, and the closing one.  The
parentheses leave no trace in the tree. -/
def grouped (content : Rule) : Rule := fun start => do
  let ⟨behind, taken⟩ ← start.eat .leftParen
  let inner ← content behind
  let ⟨rest, passed⟩ ← inner.rest.eat .rightParen
  return {
    tree := inner.tree
    height := inner.height
    rest
    shorter := Nat.lt_trans (passed Token.Kind.noConfusion)
      (Nat.lt_trans inner.shorter (taken Token.Kind.noConfusion)) }

/-- A factor that may hold `room` open factors, itself included. -/
def factor : (room : Nat) → Rule
  | 0, start => .error (start.unexpected .shallowerNesting)
  | room + 1, start =>
      match start.lookahead.token with
      | .plus => signed .plus (factor room) start
      | .minus => signed .negate (factor room) start
      | .leftParen => grouped (chain .additive (chain .multiplicative (factor room))) start
      | .integer value => do
          let ⟨rest, taken⟩ ← start.eat .integer
          return {
            tree := .literal value
            height := 1
            rest
            shorter := taken Token.Kind.noConfusion }
      | _ => .error (start.unexpected .operand)

/-- A term whose factors may hold `room` open factors. -/
def term (room : Nat) : Rule := chain .multiplicative (factor room)

/-- An expression whose factors may hold `room` open factors. -/
def expression (room : Nat) : Rule := chain .additive (term room)

end Rule

end Reckon
