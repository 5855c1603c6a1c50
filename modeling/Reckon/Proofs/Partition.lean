import Reckon.Proofs.OnDemand
import Reckon.Proofs.Pieces
import Reckon.Proofs.Rounding

namespace Reckon

/-! How the deliveries of a scanner divide its text.

What a piece of the text means is said here without the scanner: by the table of the
symbols, by the alphabet, and by the number that a run of digits denotes.
-/

/-- The characters that are tokens by themselves. -/
def symbols : List (Char × Token) :=
  [('(', .leftParen), (')', .rightParen), ('+', .plus), ('-', .minus), ('*', .times),
    ('/', .divide)]

theorem ofSymbol?_eq_some_iff {character : Char} {token : Token} :
    Token.ofSymbol? character = some token ↔ (character, token) ∈ symbols := by
  constructor
  · intro spelled
    unfold Token.ofSymbol? at spelled
    split at spelled <;> cases spelled <;> decide
  · intro member
    simp only [symbols, List.mem_cons, Prod.mk.injEq, List.not_mem_nil, or_false] at member
    rcases member with
      ⟨rfl, rfl⟩ | ⟨rfl, rfl⟩ | ⟨rfl, rfl⟩ | ⟨rfl, rfl⟩ | ⟨rfl, rfl⟩ | ⟨rfl, rfl⟩ <;> rfl

/-- `Denotes before piece after delivered`: what the characters in the middle mean where
the others stand around them.  An integer is the double nearest to the number that a
maximal run of digits denotes. -/
inductive Denotes : List Char → List Char → List Char → Except Fault Lexeme → Prop where
  | integer {before digits after : List Char} {value : Float} (nonempty : digits ≠ [])
      (all : ∀ character ∈ digits, character.isDigit = true)
      (first : ∀ character ∈ before.getLast?, character.isDigit = false)
      (last : ∀ character ∈ after.head?, character.isDigit = false)
      (rounds : Number.RoundsTo (Nat.ofDigitChars 10 digits 0) value) :
      Denotes before digits after (.ok ⟨.integer value, byteLength before⟩)
  | symbol {before after : List Char} {character : Char} {token : Token}
      (listed : (character, token) ∈ symbols) :
      Denotes before [character] after (.ok ⟨token, byteLength before⟩)
  | foreign {before after : List Char} {character : Char} (other : character ∉ alphabet) :
      Denotes before [character] after (.error (.invalidCharacter character (byteLength before)))

theorem Stands.denotes {before characters after : List Char} {delivered : Except Fault Lexeme}
    (stands : Stands before characters after delivered) :
    Denotes before characters after delivered := by
  cases stands with
  | integer nonempty all first last =>
      refine .integer nonempty all ?_ ?_ (Number.roundsTo_nearest _)
      · intro character final
        rw [endsDigit, Option.mem_def.mp final] at first
        exact first
      · intro character next
        rw [startsDigit, Option.mem_def.mp next] at last
        exact last
  | symbol spelled => exact .symbol (ofSymbol?_eq_some_iff.mp spelled)
  | invalid invalid => exact .foreign (invalid_iff_not_mem_alphabet.mp invalid)

/-- Calling a scanner again and again delivers one piece of the text after the
other, each at the byte where it starts and for what it means, and then always the
end behind the last byte.  The pieces come in order and apart from one another, and
every byte in none of them is a space. -/
theorem calls_partition_text (text : String) :
    ∃ pieces : List (Piece text),
      (∀ calls, (Scanner.ofText text).delivery calls =
        (pieces.map Piece.delivered)[calls]?.getD (.ok ⟨.endOfInput, text.utf8ByteSize⟩)) ∧
      (∀ piece ∈ pieces, Scanner.isLast piece.delivered = false ∧
        Scanner.place piece.delivered = piece.first ∧
        String.Pos.Raw.IsValid text ⟨piece.first⟩ ∧
        Denotes piece.before piece.characters piece.after piece.delivered) ∧
      pieces.Pairwise (fun piece later =>
        Scanner.place piece.delivered < Scanner.place later.delivered ∧ piece.last ≤ later.first) ∧
      (∀ index, index < text.utf8ByteSize →
        (∀ piece ∈ pieces, ¬ (piece.first ≤ index ∧ index < piece.last)) →
        text.toByteArray[index]? = some ' '.val.toUInt8) ∧
      pieces.length + 1 ≤ text.utf8ByteSize + 1 := by
  have whole : text.toList = [] ++ text.toList := rfl
  obtain ⟨pieces, covers, delivered⟩ := Scanner.exists_pieces whole (.of_endsDigit rfl)
  refine ⟨pieces, fun calls => ?_, fun piece member => ?_, ?_, ?_, ?_⟩
  · have size : (Scanner.ofText text).position + byteLength (Scanner.ofText text).rest =
        text.utf8ByteSize := by
      rw [← byteLength_toList]
      exact Nat.zero_add _
    have start : (Scanner.ofText text).deliveries =
        pieces.map Piece.delivered ++ [.ok ⟨.endOfInput, text.utf8ByteSize⟩] := delivered
    rw [Scanner.delivery_eq, start, size, List.getElem?_append]
    split
    · rfl
    · rename_i beyond
      rw [List.getElem?_eq_none (Nat.le_of_not_lt beyond)]
      cases calls - (pieces.map Piece.delivered).length <;> rfl
  · exact ⟨piece.isLast_delivered, piece.place_delivered, isValid_of_split piece.split,
      piece.stands.denotes⟩
  · refine covers.ordered.imp fun {piece later} apart => ⟨?_, apart⟩
    rw [piece.place_delivered, later.place_delivered]
    exact Nat.lt_of_lt_of_le piece.first_lt_last apart
  · exact fun index inside outside => covers.byte inside outside
  · have few := covers.length_le (Nat.zero_le _)
    omega

/-- An integer between two doubles, a foreign character and a symbol. -/
theorem calls_partition_text_pieces :
    ∃ pieces : List (Piece "9007199254740993é+ "),
      pieces.map Piece.delivered =
        [.ok ⟨.integer (Number.nearest 9007199254740992), 0⟩, .error (.invalidCharacter 'é' 16),
          .ok ⟨.plus, 18⟩] ∧
      ∀ piece ∈ pieces, Denotes piece.before piece.characters piece.after piece.delivered := by
  obtain ⟨pieces, calls, each, _⟩ := calls_partition_text "9007199254740993é+ "
  refine ⟨pieces, ?_, fun piece member => (each piece member).2.2.2⟩
  have known : (List.range 4).map (Scanner.ofText "9007199254740993é+ ").delivery =
      [.ok ⟨.integer (Number.nearest 9007199254740992), 0⟩, .error (.invalidCharacter 'é' 16),
        .ok ⟨.plus, 18⟩, .ok ⟨.endOfInput, 20⟩] := by decide +kernel
  simp only [List.range, List.range.loop, List.map_cons, List.map_nil, calls] at known
  rcases pieces with _ | ⟨first, _ | ⟨second, _ | ⟨third, _ | ⟨fourth, others⟩⟩⟩⟩
  case cons.cons.cons.nil => simpa using congrArg (List.take 3) known
  case cons.cons.cons.cons =>
    -- A fourth piece would be the end, and no piece is.
    have more := (each fourth (by simp)).1
    have ended : fourth.delivered = .ok ⟨.endOfInput, 20⟩ := by
      simp only [List.getElem?_cons_succ, List.getElem?_cons_zero, Option.getD_some, List.map_cons,
        List.cons.injEq] at known
      exact known.2.2.2.1
    rw [ended] at more
    exact absurd more (by decide)
  all_goals simp at known

end Reckon
