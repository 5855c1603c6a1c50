import Reckon.Rule

namespace Reckon

/-! Reading a text as an expression.

A strict reading asks for the end of the text behind the expression; a lenient
one ends with the expression, and then never looks further than one lexeme
behind it.
-/

/-- Whether an expression must be the whole text. -/
inductive Mode where
  | strict
  /-- Whatever follows the first complete expression is ignored. -/
  | lenient
deriving DecidableEq, Repr

/-- A cursor at the start of an expression, and how it is to be read. -/
structure Parser where
  cursor : Cursor
  mode : Mode
deriving DecidableEq

namespace Parser

/-- Starts on whatever a scanner delivers next. -/
def ofScanner (mode : Mode) (scanner : Scanner) : Except Fault Parser := do
  return { cursor := ← Cursor.ofScanner scanner, mode }

/-- The tree of the expression. -/
def parse (parser : Parser) : Except Fault Expr := do
  let parsed ← Rule.expression maxNesting parser.cursor
  match parser.mode with
  | .lenient => return parsed.tree
  | .strict =>
      let _ ← parsed.rest.eat .endOfInput
      return parsed.tree

/-- The value of the expression. -/
def evaluate (parser : Parser) : Except Fault Float := do
  return (← parser.parse).value

end Parser

/-- The tree of a text. -/
def parse (mode : Mode) (text : String) : Except Fault Expr := do
  (← Parser.ofScanner mode (Scanner.ofText text)).parse

/-- The value of a text. -/
def evaluate (mode : Mode) (text : String) : Except Fault Float := do
  (← Parser.ofScanner mode (Scanner.ofText text)).evaluate

end Reckon
