import Reckon.Fault
import Reckon.Proofs.NumberTexts

namespace Reckon

/-! How the words of the language are written where they are reported.

No two kinds of token share a text, and an integer is told from every other token
by the first letter of its own.
-/

namespace Token

/-- What stands for a token in a report. -/
inductive Written : Token → String → Prop where
  | integer (value : Float) : Written (.integer value) ("integer " ++ Number.text value)
  | plus : Written .plus "'+'"
  | minus : Written .minus "'-'"
  | times : Written .times "'*'"
  | divide : Written .divide "'/'"
  | leftParen : Written .leftParen "'('"
  | rightParen : Written .rightParen "')'"
  | endOfInput : Written .endOfInput "end of input"

theorem written_text (token : Token) : token.Written token.text := by
  cases token <;> constructor

theorem written_iff {token : Token} {written : String} :
    token.Written written ↔ token.text = written := by
  constructor
  · intro shown
    cases shown <;> rfl
  · rintro rfl
    exact token.written_text

theorem Kind.text_injective {kind other : Kind} (same : kind.text = other.text) : kind = other := by
  cases kind <;> cases other <;> first | rfl | exact absurd same (by decide)

theorem head?_text_integer (value : Float) : (integer value).text.toList.head? = some 'i' := by
  simp [text]

theorem head?_text_ne {token : Token} (plain : token.kind ≠ .integer) :
    token.text.toList.head? ≠ some 'i' := by
  cases token with
  | integer value => exact absurd rfl plain
  | plus | minus | times | divide | leftParen | rightParen | endOfInput => decide

theorem text_of_kind_ne_integer {token : Token} (plain : token.kind ≠ .integer) :
    token.text = token.kind.text := by
  cases token with
  | integer value => exact absurd rfl plain
  | plus | minus | times | divide | leftParen | rightParen | endOfInput => rfl

theorem kind_eq_of_text_eq {token other : Token} (same : token.text = other.text) :
    token.kind = other.kind := by
  by_cases plain : token.kind = .integer <;> by_cases otherPlain : other.kind = .integer
  · rw [plain, otherPlain]
  · cases token <;> cases plain
    exact absurd (same ▸ head?_text_integer _) (head?_text_ne otherPlain)
  · cases other <;> cases otherPlain
    exact absurd (same ▸ head?_text_integer _) (head?_text_ne plain)
  · rw [text_of_kind_ne_integer plain, text_of_kind_ne_integer otherPlain] at same
    exact Kind.text_injective same

/-- The tokens that a scanner can deliver have texts of their own; no integer of
theirs is below zero or not a number. -/
theorem text_injective {token other : Token}
    (plain : ∀ value, token = .integer value → Number.Plain value)
    (otherPlain : ∀ value, other = .integer value → Number.Plain value)
    (same : token.text = other.text) : token = other := by
  have kinds := kind_eq_of_text_eq same
  cases token with
  | integer value =>
      cases other with
      | integer otherValue =>
          have texts : Number.text value = Number.text otherValue :=
            (String.append_right_inj "integer ").mp same
          rw [(plain value rfl).text_injective (otherPlain otherValue rfl) texts]
      | plus | minus | times | divide | leftParen | rightParen | endOfInput => cases kinds
  | plus | minus | times | divide | leftParen | rightParen | endOfInput =>
      exact ((kind_eq_kind_iff Kind.noConfusion).mp kinds.symm).symm

end Token

/-- What is asked for has a text of its own as well. -/
theorem Expectation.text_injective {expected other : Expectation}
    (same : expected.text = other.text) : expected = other := by
  cases expected with
  | operand | shallowerNesting =>
      cases other with
      | kind missing => cases missing <;> exact absurd same (by decide)
      | operand | shallowerNesting => first | rfl | exact absurd same (by decide)
  | kind missing =>
      cases other with
      | kind otherMissing => rw [Token.Kind.text_injective same]
      | operand | shallowerNesting => cases missing <;> exact absurd same (by decide)

namespace Fault

theorem message_invalidCharacter (character : Char) (position : Nat) :
    (invalidCharacter character position).message =
      "Error at position " ++ Nat.repr position ++ ": Invalid character '" ++
        character.toString ++ "'." := by
  have parts : (invalidCharacter character position).message =
      "Error at position " ++ Nat.repr position ++
        (": Invalid character '" ++ character.toString ++ "'.") := rfl
  rw [parts]
  simp only [← String.append_assoc]

end Fault

end Reckon
