import Reckon.Scanner

namespace Reckon

/-! The characters behind a delivery of the scanner.

`Scanner.Step` splits the text in front of a scanner into spaces, the piece that
one delivery is about and the rest.  Pieces are put together and taken apart by
`Apart`, which keeps runs of digits from growing where two texts meet.
-/

def byteLength : List Char → Nat
  | [] => 0
  | character :: rest => character.utf8Size + byteLength rest

theorem byteLength_append (before after : List Char) :
    byteLength (before ++ after) = byteLength before + byteLength after := by
  induction before with
  | nil => simp [byteLength]
  | cons character rest ih => simp only [List.cons_append, byteLength, ih, Nat.add_assoc]

theorem byteLength_pos {text : List Char} (nonempty : text ≠ []) : 0 < byteLength text := by
  obtain ⟨character, others, rfl⟩ := List.exists_cons_of_ne_nil nonempty
  have size := character.utf8Size_pos
  rw [byteLength]
  omega

theorem byteLength_of_ascii {text : List Char}
    (ascii : ∀ character ∈ text, character.utf8Size = 1) :
    byteLength text = text.length := by
  induction text with
  | nil => rfl
  | cons character others ih =>
      have rest := ih fun other member => ascii other (List.mem_cons_of_mem character member)
      have first := ascii character List.mem_cons_self
      rw [byteLength, first, rest, List.length_cons, Nat.add_comm]

theorem byteLength_replicate_space (count : Nat) :
    byteLength (List.replicate count ' ') = count := by
  rw [byteLength_of_ascii, List.length_replicate]
  intro character member
  rw [List.eq_of_mem_replicate member]
  rfl

theorem byteLength_toList (text : String) : byteLength text.toList = text.utf8ByteSize := by
  suffices sizes : ∀ characters, byteLength characters = (String.ofList characters).utf8ByteSize by
    rw [sizes, String.ofList_toList]
  intro characters
  induction characters with
  | nil => rfl
  | cons character others ih =>
      rw [← List.singleton_append, String.ofList_append, String.utf8ByteSize_append, ← ih,
        byteLength_append]
      simp [byteLength]

theorem utf8Size_of_isDigit {character : Char} (digit : character.isDigit = true) :
    character.utf8Size = 1 := by
  simp only [Char.isDigit, Bool.and_eq_true, decide_eq_true_eq, ge_iff_le,
    UInt32.le_iff_toNat_le] at digit
  simp only [Char.utf8Size, UInt32.le_iff_toNat_le]
  rw [if_pos]
  have upper := digit.2
  simp at upper ⊢
  omega

def startsDigit (text : List Char) : Bool := text.head?.any Char.isDigit

def endsDigit (text : List Char) : Bool := text.getLast?.any Char.isDigit

/-- No run of digits goes on from one text into the other. -/
def Apart (before after : List Char) : Prop :=
  ¬ (endsDigit before = true ∧ startsDigit after = true)

theorem Apart.nil (before : List Char) : Apart before [] := by
  simp [Apart, startsDigit]

theorem Apart.of_startsDigit {before after : List Char} (other : startsDigit after = false) :
    Apart before after := by
  simp [Apart, other]

theorem Apart.of_endsDigit {before after : List Char} (other : endsDigit before = false) :
    Apart before after := by
  simp [Apart, other]

theorem endsDigit_append {before after : List Char} (nonempty : after ≠ []) :
    endsDigit (before ++ after) = endsDigit after := by
  simp [endsDigit, List.getLast?_append, List.getLast?_eq_some_getLast nonempty]

theorem takeWhile_isDigit_eq_nil {text : List Char} (other : startsDigit text = false) :
    text.takeWhile Char.isDigit = [] ∧ text.dropWhile Char.isDigit = text := by
  cases text with
  | nil => exact ⟨rfl, rfl⟩
  | cons first others =>
      have plain : first.isDigit = false := by simpa [startsDigit] using other
      simp [plain]

theorem startsDigit_dropWhile (text : List Char) :
    startsDigit (text.dropWhile Char.isDigit) = false := by
  have plain := List.head?_dropWhile_not Char.isDigit text
  unfold startsDigit
  cases ahead : (text.dropWhile Char.isDigit).head? with
  | none => rfl
  | some first => simpa [ahead] using plain

inductive Spells : Token → List Char → Prop where
  | integer {digits : List Char} (nonempty : digits ≠ [])
      (all : ∀ character ∈ digits, character.isDigit = true) :
      Spells (.integer (Number.ofDigits digits)) digits
  | symbol {character : Char} {token : Token} (spelled : Token.ofSymbol? character = some token) :
      Spells token [character]

/-- A character that belongs to no token and is not passed over. -/
structure Invalid (character : Char) : Prop where
  not_space : character ≠ ' '
  not_digit : character.isDigit = false
  not_symbol : Token.ofSymbol? character = none

theorem plain_of_ofSymbol? {character : Char} {token : Token}
    (spelled : Token.ofSymbol? character = some token) :
    character ≠ ' ' ∧ character.isDigit = false ∧ character.utf8Size = 1 := by
  unfold Token.ofSymbol? at spelled
  split at spelled <;> first | (cases spelled; done) | decide

namespace Spells

variable {token : Token} {piece : List Char}

theorem ne_endOfInput (spelled : Spells token piece) : token ≠ .endOfInput := by
  cases spelled with
  | integer nonempty all => exact Token.noConfusion
  | symbol spelled => exact fun same => (Token.kind_of_ofSymbol? spelled).2 (by rw [same]; rfl)

theorem characters (spelled : Spells token piece) :
    piece ≠ [] ∧ ∀ character ∈ piece, character ≠ ' ' ∧ character.utf8Size = 1 := by
  cases spelled with
  | integer nonempty all =>
      refine ⟨nonempty, fun character member => ⟨?_, utf8Size_of_isDigit (all character member)⟩⟩
      intro space
      exact absurd (all character member) (by rw [space]; decide)
  | symbol spelled =>
      have plain := plain_of_ofSymbol? spelled
      simp [plain]

end Spells

namespace Scanner

/-- `Step scanner delivered behind`: what is delivered next, and the scanner behind it. -/
inductive Step (scanner : Scanner) : Except Fault Lexeme → Scanner → Prop where
  | ended {count : Nat} (split : scanner.rest = List.replicate count ' ') :
      Step scanner (.ok ⟨.endOfInput, scanner.position + count⟩) ⟨[], scanner.position + count⟩
  | token {count : Nat} {token : Token} {piece rest : List Char}
      (split : scanner.rest = List.replicate count ' ' ++ (piece ++ rest))
      (spelled : Spells token piece) (apart : Apart piece rest) :
      Step scanner (.ok ⟨token, scanner.position + count⟩)
        ⟨rest, scanner.position + count + byteLength piece⟩
  | invalid {count : Nat} {character : Char} {rest : List Char}
      (split : scanner.rest = List.replicate count ' ' ++ character :: rest)
      (invalid : Invalid character) :
      Step scanner (.error (.invalidCharacter character (scanner.position + count)))
        ⟨rest, scanner.position + count + character.utf8Size⟩

theorem exists_spaces (scanner : Scanner) :
    ∃ count, scanner.rest = List.replicate count ' ' ++ scanner.skipSpaces.rest ∧
      scanner.skipSpaces.position = scanner.position + count := by
  have blank : scanner.rest.takeWhile isSpace =
      List.replicate (scanner.rest.takeWhile isSpace).length ' ' := by
    refine List.eq_replicate_iff.mpr ⟨rfl, fun character member => ?_⟩
    simpa [isSpace] using List.all_eq_true.mp List.all_takeWhile character member
  refine ⟨_, ?_, rfl⟩
  rw [← blank]
  exact List.takeWhile_append_dropWhile.symm

theorem skipSpaces_of_split {scanner : Scanner} {count : Nat} {text : List Char}
    (split : scanner.rest = List.replicate count ' ' ++ text) (plain : text.head? ≠ some ' ') :
    scanner.skipSpaces = ⟨text, scanner.position + count⟩ := by
  have spaces : ∀ character ∈ List.replicate count ' ', isSpace character = true := by
    intro character member
    rw [(List.mem_replicate.mp member).2]
    rfl
  have stop : text.takeWhile isSpace = [] ∧ text.dropWhile isSpace = text := by
    cases text with
    | nil => exact ⟨rfl, rfl⟩
    | cons first others =>
        have other : isSpace first = false := by simpa [isSpace] using plain
        simp [other]
  unfold skipSpaces
  rw [split, List.takeWhile_append_of_pos spaces, List.dropWhile_append_of_pos spaces,
    stop.1, stop.2]
  simp

theorem next_of_step {scanner behind : Scanner} {delivered : Except Fault Lexeme}
    (step : Step scanner delivered behind) : scanner.next = (delivered, behind) := by
  cases step with
  | ended split =>
      rw [← List.append_nil (List.replicate _ _)] at split
      have skipped := skipSpaces_of_split split (by simp)
      unfold next
      simp only [skipped]
  | @token count token piece rest split spelled apart =>
      obtain ⟨first, others, rfl⟩ := List.exists_cons_of_ne_nil spelled.characters.1
      have other : first ≠ ' ' := (spelled.characters.2 first (by simp)).1
      have skipped := skipSpaces_of_split split (by simpa using other)
      unfold next
      simp only [skipped, List.cons_append]
      cases spelled with
      | integer nonempty all =>
          have digit := all first (by simp)
          have more : ∀ character ∈ others, character.isDigit = true :=
            fun character member => all character (by simp [member])
          have stops : startsDigit rest = false := by
            have ends : endsDigit (first :: others) = true := by
              simp [endsDigit, List.getLast?_eq_some_getLast nonempty,
                all _ (List.getLast_mem nonempty)]
            simpa [Apart, ends] using apart
          obtain ⟨none, all'⟩ := takeWhile_isDigit_eq_nil stops
          have size : byteLength (first :: others) = (first :: others).length :=
            byteLength_of_ascii fun character member => utf8Size_of_isDigit (all character member)
          rw [if_pos digit, List.takeWhile_append_of_pos more, List.dropWhile_append_of_pos more,
            none, all', List.append_nil, size]
      | symbol symbol =>
          have plain := plain_of_ofSymbol? symbol
          simp only [plain.2.1, Bool.false_eq_true, if_false, symbol]
          simp [byteLength]
  | @invalid count character rest split invalid =>
      have skipped := skipSpaces_of_split split (by simpa using invalid.not_space)
      unfold next
      simp only [skipped, invalid.not_digit, Bool.false_eq_true, if_false, invalid.not_symbol]

theorem exists_step (scanner : Scanner) :
    ∃ delivered behind, Step scanner delivered behind := by
  obtain ⟨count, split, position⟩ := scanner.exists_spaces
  cases ahead : scanner.skipSpaces.rest with
  | nil =>
      rw [ahead, List.append_nil] at split
      exact ⟨_, _, .ended split⟩
  | cons character rest =>
      rw [ahead] at split
      by_cases digit : character.isDigit = true
      · rw [← List.takeWhile_append_dropWhile (p := Char.isDigit) (l := rest),
          ← List.cons_append] at split
        refine ⟨_, _, .token split (.integer (by simp) ?_)
          (.of_startsDigit (startsDigit_dropWhile rest))⟩
        intro other member
        rcases List.mem_cons.mp member with same | member
        · rw [same]
          exact digit
        · exact List.all_eq_true.mp List.all_takeWhile other member
      · cases symbol : Token.ofSymbol? character with
        | some token =>
            have other : endsDigit [character] = false := by simpa [endsDigit] using digit
            exact ⟨_, _, .token split (.symbol symbol) (.of_endsDigit other)⟩
        | none =>
            refine ⟨_, _, .invalid split ⟨?_, by simpa using digit, symbol⟩⟩
            rintro rfl
            have other := List.head?_dropWhile_not isSpace scanner.rest
            rw [show scanner.rest.dropWhile isSpace = scanner.skipSpaces.rest from rfl,
              ahead] at other
            simp [isSpace] at other

theorem next_eq_iff {scanner behind : Scanner} {delivered : Except Fault Lexeme} :
    scanner.next = (delivered, behind) ↔ Step scanner delivered behind := by
  refine ⟨fun stepped => ?_, next_of_step⟩
  obtain ⟨delivered', behind', step⟩ := scanner.exists_step
  cases (next_of_step step).symm.trans stepped
  exact step

end Scanner

end Reckon
