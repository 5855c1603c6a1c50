import Reckon.Fault
import Reckon.Number.Nearest

namespace Reckon

/-! Delivering the tokens of a text one at a time.

A scanner is the text that is still to be read and the number of bytes before
it.  Only spaces are skipped.  A fault does not stop a scanner: it has then
passed the character at fault and goes on behind it.
-/

structure Scanner where
  rest : List Char
  position : Nat
deriving DecidableEq, Repr

namespace Scanner

def ofText (text : String) : Scanner := ⟨text.toList, 0⟩

def isSpace (character : Char) : Bool := character == ' '

/-- Passes the spaces in front, of one byte each. -/
def skipSpaces (scanner : Scanner) : Scanner where
  rest := scanner.rest.dropWhile isSpace
  position := scanner.position + (scanner.rest.takeWhile isSpace).length

/-- Delivers the next lexeme or fault, and the scanner behind it.  A run of
digits is taken whole, and the end of the text is delivered again and again. -/
def next (scanner : Scanner) : Except Fault Lexeme × Scanner :=
  let start := scanner.skipSpaces
  match start.rest with
  | [] => (.ok ⟨.endOfInput, start.position⟩, start)
  | character :: rest =>
      if character.isDigit then
        let digits := character :: rest.takeWhile Char.isDigit
        (.ok ⟨.integer (Number.ofDigits digits), start.position⟩,
          ⟨rest.dropWhile Char.isDigit, start.position + digits.length⟩)
      else
        let behind := ⟨rest, start.position + character.utf8Size⟩
        match Token.ofSymbol? character with
        | some token => (.ok ⟨token, start.position⟩, behind)
        | none => (.error (.invalidCharacter character start.position), behind)

theorem length_dropWhile_le (test : Char → Bool) (text : List Char) :
    (text.dropWhile test).length ≤ text.length :=
  (List.dropWhile_sublist test).length_le

theorem skipSpaces_rest_length_le (scanner : Scanner) :
    scanner.skipSpaces.rest.length ≤ scanner.rest.length :=
  length_dropWhile_le _ _

/-- A scanner at the end of its text has nothing left to read. -/
theorem next_rest_of_endOfInput {scanner behind : Scanner} {position : Nat}
    (delivered : scanner.next = (.ok ⟨.endOfInput, position⟩, behind)) :
    behind.rest = [] := by
  unfold next at delivered
  dsimp only at delivered
  split at delivered
  · rename_i empty
    cases delivered
    exact empty
  · split at delivered
    · simp at delivered
    · split at delivered
      · rename_i spelled
        have other := (Token.kind_of_ofSymbol? spelled).2
        simp_all [Token.kind_eq_endOfInput_iff]
      · simp at delivered

/-- Whatever is delivered before the end takes at least one character. -/
theorem next_rest_length_lt {scanner behind : Scanner} {delivered : Except Fault Lexeme}
    (step : scanner.next = (delivered, behind))
    (more : ∀ position, delivered ≠ .ok ⟨.endOfInput, position⟩) :
    behind.rest.length < scanner.rest.length := by
  have skipped := scanner.skipSpaces_rest_length_le
  unfold next at step
  dsimp only at step
  split at step
  · cases step
    exact absurd rfl (more _)
  · rename_i character rest unread
    rw [unread, List.length_cons] at skipped
    split at step
    · cases step
      have run := length_dropWhile_le Char.isDigit rest
      dsimp only
      omega
    · split at step <;> cases step <;> exact skipped

/-- Delivers everything up to the end of the text, which is the last lexeme. -/
def tokens (scanner : Scanner) : Except Fault (List Lexeme) :=
  match step : scanner.next with
  | (.error fault, _) => .error fault
  | (.ok lexeme, behind) =>
      if last : lexeme.token = .endOfInput then .ok [lexeme]
      else
        have : behind.rest.length < scanner.rest.length :=
          next_rest_length_lt step (by rintro position ⟨⟩; exact last rfl)
        (lexeme :: ·) <$> behind.tokens
termination_by scanner.rest.length

end Scanner

/-- All lexemes of a text, or its first invalid character. -/
def tokenize (text : String) : Except Fault (List Lexeme) :=
  (Scanner.ofText text).tokens

end Reckon
