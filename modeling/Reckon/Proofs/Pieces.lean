import Reckon.Proofs.Bytes
import Reckon.Proofs.Deliveries

namespace Reckon

/-! The pieces that a scanner cuts a text into.

Every delivery in front of the end of a text is about a piece of it.  Pieces
follow one another without touching a byte twice, and only spaces lie between
them.
-/

/-- `Stands before piece after delivered`: in the text made of these three parts,
the delivery is about the one in the middle.  An integer takes a run of digits
that goes on in neither of the others, anything else a single character. -/
inductive Stands : List Char → List Char → List Char → Except Fault Lexeme → Prop where
  | integer {before digits after : List Char} (nonempty : digits ≠ [])
      (all : ∀ character ∈ digits, character.isDigit = true)
      (first : endsDigit before = false) (last : startsDigit after = false) :
      Stands before digits after (.ok ⟨.integer (Number.ofDigits digits), byteLength before⟩)
  | symbol {before after : List Char} {character : Char} {token : Token}
      (spelled : Token.ofSymbol? character = some token) :
      Stands before [character] after (.ok ⟨token, byteLength before⟩)
  | invalid {before after : List Char} {character : Char} (invalid : Invalid character) :
      Stands before [character] after (.error (.invalidCharacter character (byteLength before)))

/-- A part of a text and the delivery that is about it. -/
structure Piece (text : String) where
  before : List Char
  characters : List Char
  after : List Char
  delivered : Except Fault Lexeme
  split : text.toList = before ++ (characters ++ after)
  stands : Stands before characters after delivered

theorem startsDigit_append {digits : List Char} (nonempty : digits ≠ [])
    (all : ∀ character ∈ digits, character.isDigit = true) (after : List Char) :
    startsDigit (digits ++ after) = true := by
  obtain ⟨first, others, rfl⟩ := List.exists_cons_of_ne_nil nonempty
  exact all first List.mem_cons_self

theorem endsDigit_of_all {digits : List Char} (nonempty : digits ≠ [])
    (all : ∀ character ∈ digits, character.isDigit = true) : endsDigit digits = true := by
  simp [endsDigit, List.getLast?_eq_some_getLast nonempty, all _ (List.getLast_mem nonempty)]

theorem endsDigit_spaces (count : Nat) : endsDigit (List.replicate count ' ') = false := by
  cases count with
  | zero => rfl
  | succ count => simp [endsDigit, List.getLast?_replicate]

/-- No text but the empty one has no bytes, so that a position fixes a prefix. -/
theorem eq_append_of_byteLength_le {before after consumed rest : List Char}
    (equal : before ++ after = consumed ++ rest) (le : byteLength consumed ≤ byteLength before) :
    ∃ between, before = consumed ++ between ∧ rest = between ++ after := by
  rcases List.append_eq_append_iff.mp equal with ⟨between, rfl, rfl⟩ | ⟨between, rfl, rfl⟩
  · have empty : between = [] := by
      apply Classical.byContradiction
      intro nonempty
      have size := byteLength_pos nonempty
      rw [byteLength_append] at le
      omega
    exact ⟨[], by simp [empty], by simp [empty]⟩
  · exact ⟨between, rfl, rfl⟩

/-- A character that starts within a prefix lies within it. -/
theorem exists_append_of_byteLength_lt {before head after tail : List Char} {character : Char}
    (equal : head ++ tail = before ++ character :: after)
    (lt : byteLength before < byteLength head) : ∃ more, head = before ++ character :: more := by
  rcases List.append_eq_append_iff.mp equal with ⟨between, rfl, _⟩ | ⟨between, rfl, split⟩
  · rw [byteLength_append] at lt
    omega
  · cases between with
    | nil => simp at lt
    | cons first others => exact ⟨others, by rw [(List.cons.inj split).1]⟩

namespace Piece

variable {text : String}

def first (piece : Piece text) : Nat := byteLength piece.before

/-- The position behind the last byte. -/
def last (piece : Piece text) : Nat := piece.first + byteLength piece.characters

theorem place_delivered (piece : Piece text) : Scanner.place piece.delivered = piece.first := by
  obtain ⟨before, characters, after, delivered, split, stands⟩ := piece
  cases stands <;> rfl

theorem isLast_delivered (piece : Piece text) : Scanner.isLast piece.delivered = false := by
  obtain ⟨before, characters, after, delivered, split, stands⟩ := piece
  cases stands with
  | integer => rfl
  | symbol spelled => simpa [Scanner.isLast] using (Spells.symbol spelled).ne_endOfInput
  | invalid => rfl

theorem characters_ne_nil (piece : Piece text) : piece.characters ≠ [] := by
  obtain ⟨before, characters, after, delivered, split, stands⟩ := piece
  cases stands with
  | integer nonempty => exact nonempty
  | symbol | invalid => exact List.cons_ne_nil _ _

theorem first_lt_last (piece : Piece text) : piece.first < piece.last :=
  Nat.lt_add_of_pos_right (byteLength_pos piece.characters_ne_nil)

theorem last_eq (piece : Piece text) :
    piece.last = byteLength (piece.before ++ piece.characters) :=
  byteLength_append _ _ |>.symm

theorem split_last (piece : Piece text) :
    text.toList = (piece.before ++ piece.characters) ++ piece.after := by
  rw [piece.split, List.append_assoc]

theorem last_le (piece : Piece text) : piece.last ≤ text.utf8ByteSize := by
  rw [← byteLength_toList, piece.split_last, byteLength_append, ← piece.last_eq]
  exact Nat.le_add_right _ _

/-- Of all pieces only integers end in a digit. -/
theorem endsDigit_of_other {piece : Piece text}
    (other : ∀ value, piece.delivered ≠ .ok ⟨.integer value, piece.first⟩) :
    endsDigit (piece.before ++ piece.characters) = false := by
  obtain ⟨before, characters, after, delivered, split, stands⟩ := piece
  cases stands with
  | integer => exact absurd rfl (other _)
  | symbol spelled =>
      rw [endsDigit_append (List.cons_ne_nil _ _)]
      simpa [endsDigit] using (plain_of_ofSymbol? spelled).2.1
  | invalid invalid =>
      rw [endsDigit_append (List.cons_ne_nil _ _)]
      simpa [endsDigit] using invalid.not_digit

/-- An integer is a run of digits that ends at both of its ends. -/
theorem spells_of_integer {piece : Piece text} {value : Float}
    (integer : piece.delivered = .ok ⟨.integer value, piece.first⟩) :
    Spells (.integer value) piece.characters ∧ endsDigit piece.before = false ∧
      startsDigit piece.after = false := by
  obtain ⟨before, characters, after, delivered, split, stands⟩ := piece
  cases stands with
  | integer nonempty all first last =>
      cases integer
      exact ⟨.integer nonempty all, first, last⟩
  | symbol spelled =>
      cases integer
      exact absurd rfl (Token.kind_of_ofSymbol? spelled).1
  | invalid => cases integer

theorem apart (piece : Piece text) : Apart (piece.before ++ piece.characters) piece.after := by
  by_cases integer : ∃ value, piece.delivered = .ok ⟨.integer value, piece.first⟩
  · obtain ⟨value, integer⟩ := integer
    exact .of_startsDigit (spells_of_integer integer).2.2
  · exact .of_endsDigit (endsDigit_of_other fun value same => integer ⟨value, same⟩)

end Piece

namespace Scanner

variable {text : String} {consumed rest : List Char} {delivered : Except Fault Lexeme}
  {behind : Scanner}

/-- A delivery in front of the end is about a piece behind some spaces. -/
theorem Step.exists_piece (split : text.toList = consumed ++ rest) (apart : Apart consumed rest)
    (step : Step ⟨rest, byteLength consumed⟩ delivered behind) (more : isLast delivered = false) :
    ∃ (piece : Piece text) (count : Nat), piece.delivered = delivered ∧
      piece.before = consumed ++ List.replicate count ' ' ∧
      behind = ⟨piece.after, piece.last⟩ := by
  cases step with
  | ended => simp [isLast] at more
  | @token count token characters after splitRest spelled seam =>
      dsimp only at splitRest
      have parts :
          text.toList = (consumed ++ List.replicate count ' ') ++ (characters ++ after) := by
        rw [split, splitRest, List.append_assoc]
      have place : byteLength consumed + count =
          byteLength (consumed ++ List.replicate count ' ') := by
        rw [byteLength_append, byteLength_replicate_space]
      have stands : Stands (consumed ++ List.replicate count ' ') characters after
          (.ok ⟨token, byteLength (consumed ++ List.replicate count ' ')⟩) := by
        cases spelled with
        | integer nonempty all =>
            refine .integer nonempty all ?_ ?_
            · cases count with
              | zero =>
                  rw [splitRest] at apart
                  simpa [Apart, startsDigit_append nonempty all] using apart
              | succ count =>
                  rw [endsDigit_append (by simp)]
                  exact endsDigit_spaces (count + 1)
            · simpa [Apart, endsDigit_of_all nonempty all] using seam
        | symbol spelled => exact .symbol spelled
      exact ⟨⟨_, _, _, _, parts, stands⟩, count, by rw [place], rfl, by rw [place]; rfl⟩
  | @invalid count character after splitRest invalid =>
      dsimp only at splitRest
      have parts :
          text.toList = (consumed ++ List.replicate count ' ') ++ ([character] ++ after) := by
        rw [split, splitRest, List.append_assoc, List.singleton_append]
      have place : byteLength consumed + count =
          byteLength (consumed ++ List.replicate count ' ') := by
        rw [byteLength_append, byteLength_replicate_space]
      exact ⟨⟨_, _, _, _, parts, .invalid invalid⟩, count, by rw [place], rfl, by
        rw [place]; simp [Piece.last, Piece.first, byteLength]⟩

/-- Pieces from a position on, in order and apart, with nothing but spaces between them. -/
structure Covers {text : String} (start : Nat) (pieces : List (Piece text)) : Prop where
  ordered : pieces.Pairwise (fun piece later => piece.last ≤ later.first)
  behind : ∀ piece ∈ pieces, start ≤ piece.first
  space : ∀ before character after, text.toList = before ++ character :: after →
    start ≤ byteLength before →
    (∀ piece ∈ pieces, ¬ (piece.first ≤ byteLength before ∧ byteLength before < piece.last)) →
    character = ' '

theorem Covers.length_le {start : Nat} {pieces : List (Piece text)} (covers : Covers start pieces)
    (inside : start ≤ text.utf8ByteSize) : start + pieces.length ≤ text.utf8ByteSize := by
  have ordered := covers.ordered
  have behind := covers.behind
  clear covers
  induction pieces generalizing start with
  | nil => exact inside
  | cons piece pieces ih =>
      obtain ⟨later, ordered⟩ := List.pairwise_cons.mp ordered
      have rest := ih piece.last_le ordered later
      have first := behind piece List.mem_cons_self
      have size := piece.first_lt_last
      rw [List.length_cons]
      omega

/-- Pieces and characters overlap only as a whole, so that what is said of the
first byte of a character holds of each of its bytes. -/
theorem Covers.byte {pieces : List (Piece text)} (covers : Covers 0 pieces) {index : Nat}
    (inside : index < text.utf8ByteSize)
    (outside : ∀ piece ∈ pieces, ¬ (piece.first ≤ index ∧ index < piece.last)) :
    text.toByteArray[index]? = some ' '.val.toUInt8 := by
  rw [← byteLength_toList] at inside
  obtain ⟨before, character, after, split, lower, upper⟩ := exists_character inside
  have blank : character = ' ' := by
    refine covers.space before character after split (Nat.zero_le _) fun piece member within => ?_
    have whole := piece.split_last.symm.trans split
    obtain ⟨more, characters⟩ :=
      exists_append_of_byteLength_lt whole (by rw [← piece.last_eq]; exact within.2)
    have size := congrArg byteLength characters
    rw [← piece.last_eq, byteLength_append, byteLength] at size
    exact outside piece member ⟨Nat.le_trans within.1 lower, by omega⟩
  subst blank
  have single : ' '.utf8Size = 1 := rfl
  obtain rfl : index = byteLength before := by omega
  exact byte_of_split split single

theorem covers_nil {count : Nat} (split : text.toList = consumed ++ List.replicate count ' ') :
    Covers (byteLength consumed) ([] : List (Piece text)) where
  ordered := .nil
  behind := by simp
  space := by
    intro before character after splitAt start _
    obtain ⟨between, _, spaces⟩ := eq_append_of_byteLength_le (splitAt.symm.trans split) start
    exact List.eq_of_mem_replicate (spaces ▸ List.mem_append_right between List.mem_cons_self)

theorem covers_cons {piece : Piece text} {count : Nat} {pieces : List (Piece text)}
    (spaced : piece.before = consumed ++ List.replicate count ' ')
    (covers : Covers piece.last pieces) : Covers (byteLength consumed) (piece :: pieces) where
  ordered := List.pairwise_cons.mpr ⟨covers.behind, covers.ordered⟩
  behind := by
    have start : byteLength consumed ≤ piece.first := by
      rw [Piece.first, spaced, byteLength_append]
      exact Nat.le_add_right _ _
    intro other member
    rcases List.mem_cons.mp member with rfl | member
    · exact start
    · exact Nat.le_trans start
        (Nat.le_trans (Nat.le_of_lt piece.first_lt_last) (covers.behind other member))
  space := by
    intro before character after splitAt start outside
    by_cases later : piece.last ≤ byteLength before
    · exact covers.space before character after splitAt later fun other member =>
        outside other (List.mem_cons_of_mem piece member)
    · have here := outside piece List.mem_cons_self
      have early : byteLength before < byteLength piece.before := by
        rw [← Piece.first]
        omega
      have whole := piece.split.symm.trans splitAt
      rw [spaced, List.append_assoc] at whole
      obtain ⟨between, rfl, spaces⟩ := eq_append_of_byteLength_le whole.symm start
      rw [spaced, byteLength_append, byteLength_append] at early
      obtain ⟨more, blank⟩ := exists_append_of_byteLength_lt spaces (by omega)
      exact List.eq_of_mem_replicate (blank ▸ List.mem_append_right between List.mem_cons_self)

theorem exists_pieces {consumed rest : List Char} (split : text.toList = consumed ++ rest)
    (apart : Apart consumed rest) :
    ∃ pieces : List (Piece text), Covers (byteLength consumed) pieces ∧
      (⟨rest, byteLength consumed⟩ : Scanner).deliveries =
        pieces.map Piece.delivered ++ [.ok ⟨.endOfInput, text.utf8ByteSize⟩] := by
  obtain ⟨delivered, behind, step⟩ := exists_step ⟨rest, byteLength consumed⟩
  have stepped := next_of_step step
  rw [deliveries_of_next stepped]
  by_cases more : isLast delivered = false
  · have shorter := next_rest_length_lt_of_isLast stepped more
    obtain ⟨piece, count, rfl, spaced, rfl⟩ := step.exists_piece split apart more
    obtain ⟨pieces, covers, delivered⟩ := exists_pieces piece.split_last piece.apart
    rw [← piece.last_eq] at covers delivered
    rw [if_pos more, delivered]
    exact ⟨piece :: pieces, covers_cons spaced covers, rfl⟩
  · rw [if_neg more]
    cases step with
    | @ended count splitRest =>
        dsimp only at splitRest
        subst splitRest
        refine ⟨[], covers_nil split, ?_⟩
        rw [← byteLength_toList, split, byteLength_append, byteLength_replicate_space]
        rfl
    | token _ spelled _ => simp [isLast, spelled.ne_endOfInput] at more
    | invalid => simp [isLast] at more
termination_by rest.length

/-- The scanner behind a number of calls. -/
def behindCalls (scanner : Scanner) : Nat → Scanner
  | 0 => scanner
  | calls + 1 => scanner.next.2.behindCalls calls

/-- What the next call delivers behind a number of calls. -/
def delivery (scanner : Scanner) (calls : Nat) : Except Fault Lexeme :=
  (scanner.behindCalls calls).next.1

theorem deliveries_nil (position : Nat) :
    (⟨[], position⟩ : Scanner).deliveries = [.ok ⟨.endOfInput, position⟩] :=
  deliveries_of_next (next_of_step (@Step.ended ⟨[], position⟩ 0 rfl))

/-- The calls deliver everything up to the end of the text, and then the end again
and again. -/
theorem delivery_eq (scanner : Scanner) (calls : Nat) :
    scanner.delivery calls = scanner.deliveries[calls]?.getD
      (.ok ⟨.endOfInput, scanner.position + byteLength scanner.rest⟩) := by
  induction calls generalizing scanner with
  | zero =>
      obtain ⟨delivered, behind, step⟩ := scanner.exists_step
      have stepped := next_of_step step
      rw [deliveries_of_next stepped, delivery, behindCalls, stepped]
      split <;> rfl
  | succ calls ih =>
      obtain ⟨delivered, behind, step⟩ := scanner.exists_step
      have stepped := next_of_step step
      have later : scanner.delivery (calls + 1) = behind.delivery calls := by
        rw [delivery, behindCalls, stepped]
        rfl
      have sameEnd := step.position_add_byteLength
      rw [later, ih behind, deliveries_of_next stepped, sameEnd]
      by_cases more : isLast delivered = false
      · rw [if_pos more, List.getElem?_cons_succ]
      · rw [if_neg more, List.getElem?_cons_succ, List.getElem?_nil, ← sameEnd]
        cases step with
        | ended => cases calls <;> simp [deliveries_nil, byteLength]
        | token _ spelled _ => simp [isLast, spelled.ne_endOfInput] at more
        | invalid => simp [isLast] at more

end Scanner

end Reckon
