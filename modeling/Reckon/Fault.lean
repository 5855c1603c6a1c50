import Reckon.Token

namespace Reckon

/-! What can be wrong with a text.

A text fails at one place and for one cause.  There are only two causes: a
character of no token, and a token where the grammar, or one of the limits on
depth, asks for something else.
-/

/-- What was asked for where an unexpected token stood. -/
inductive Expectation where
  | operand
  | kind (missing : Token.Kind)
  /-- An expression that keeps within the limits on depth. -/
  | shallowerNesting
deriving DecidableEq, Repr

namespace Expectation

@[match_pattern] abbrev closingParenthesis : Expectation := .kind .rightParen

@[match_pattern] abbrev endOfInput : Expectation := .kind .endOfInput

def text : Expectation → String
  | .operand => "an operand"
  | .kind missing => missing.text
  | .shallowerNesting => "shallower nesting"

end Expectation

/-- A cause and the byte offset at which it was found. -/
inductive Fault where
  | invalidCharacter (character : Char) (position : Nat)
  | unexpectedToken (expected : Expectation) (found : Token) (position : Nat)
deriving DecidableEq

namespace Fault

def position : Fault → Nat
  | .invalidCharacter _ position => position
  | .unexpectedToken _ _ position => position

def message (fault : Fault) : String :=
  "Error at position " ++ Nat.repr fault.position ++
    match fault with
    | .invalidCharacter character _ =>
        ": Invalid character '" ++ character.toString ++ "'."
    | .unexpectedToken expected found _ =>
        ": Unexpected token: expected " ++ expected.text ++ ", found " ++ found.text ++ "."

end Fault

end Reckon
