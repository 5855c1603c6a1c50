import Reckon.Number.Text

namespace Reckon

/-! The words of the language: integers, four operators, parentheses and the
end of the text, which counts as a word so that a fault can name it. -/

inductive Token where
  | integer (value : Float)
  | plus
  | minus
  | times
  | divide
  | leftParen
  | rightParen
  | endOfInput
deriving DecidableEq

namespace Token

/-- A token without the value that an integer carries. -/
inductive Kind where
  | integer
  | plus
  | minus
  | times
  | divide
  | leftParen
  | rightParen
  | endOfInput
deriving DecidableEq, Repr

/-- How a fault names a kind of token. -/
def Kind.text : Kind → String
  | .integer => "integer"
  | .plus => "'+'"
  | .minus => "'-'"
  | .times => "'*'"
  | .divide => "'/'"
  | .leftParen => "'('"
  | .rightParen => "')'"
  | .endOfInput => "end of input"

def kind : Token → Kind
  | .integer _ => .integer
  | .plus => .plus
  | .minus => .minus
  | .times => .times
  | .divide => .divide
  | .leftParen => .leftParen
  | .rightParen => .rightParen
  | .endOfInput => .endOfInput

/-- How a fault names a token: an integer with its value, any other by its kind. -/
def text : Token → String
  | .integer value => "integer " ++ Number.text value
  | token => token.kind.text

/-- The token that a single character spells. -/
def ofSymbol? : Char → Option Token
  | '+' => some .plus
  | '-' => some .minus
  | '*' => some .times
  | '/' => some .divide
  | '(' => some .leftParen
  | ')' => some .rightParen
  | _ => none

/-- Only integers share their kind with other tokens. -/
theorem kind_eq_kind_iff {token other : Token} (plain : other.kind ≠ .integer) :
    token.kind = other.kind ↔ token = other := by
  cases token <;> cases other <;> simp_all [kind]

theorem kind_eq_rightParen_iff {token : Token} :
    token.kind = .rightParen ↔ token = .rightParen :=
  @kind_eq_kind_iff token .rightParen Kind.noConfusion

theorem kind_eq_endOfInput_iff {token : Token} :
    token.kind = .endOfInput ↔ token = .endOfInput :=
  @kind_eq_kind_iff token .endOfInput Kind.noConfusion

theorem kind_of_ofSymbol? {symbol : Char} {token : Token}
    (spelled : ofSymbol? symbol = some token) :
    token.kind ≠ .integer ∧ token.kind ≠ .endOfInput := by
  unfold ofSymbol? at spelled
  split at spelled <;> cases spelled <;> decide

end Token

/-- A token with the byte offset at which it starts. -/
structure Lexeme where
  token : Token
  position : Nat
deriving DecidableEq

/-- The line that lists a lexeme. -/
def Lexeme.text (lexeme : Lexeme) : String :=
  Nat.repr lexeme.position ++ ": " ++ lexeme.token.text

end Reckon
