import Reckon.Proofs.Determinacy
import Reckon.Proofs.OnDemand
import Reckon.Proofs.Pieces

namespace Reckon

/-! How far into a text its outcome is decided.

The last that is looked at of a text is a character of no token, or the token in
view when its reading ends.  Texts that agree up to the end of that piece come to
the same, whatever follows in either of them.
-/

/-- The characters that a delivery takes from the front of what is left of a text. -/
def extent (delivered : Except Fault Lexeme) (text : List Char) : List Char :=
  match delivered with
  | .ok ⟨.integer _, _⟩ => text.takeWhile Char.isDigit
  | _ => text.take 1

theorem Stands.extent_eq {before characters after : List Char} {delivered : Except Fault Lexeme}
    (stands : Stands before characters after delivered) :
    extent delivered (characters ++ after) = characters := by
  cases stands with
  | integer nonempty all first last =>
      rw [extent, List.takeWhile_append_of_pos all, (takeWhile_isDigit_eq_nil last).1,
        List.append_nil]
  | @symbol _ character token spelled =>
      have other := (Token.kind_of_ofSymbol? spelled).1
      cases token <;> first | rfl | exact absurd rfl other
  | invalid => rfl

namespace Piece

variable {text : String}

/-- A delivery is about one piece only. -/
theorem last_eq_of_delivered {piece other : Piece text} (same : piece.delivered = other.delivered) :
    piece.last = other.last := by
  have first : piece.first = other.first := by
    rw [← piece.place_delivered, same, other.place_delivered]
  obtain ⟨between, longer, behind⟩ := eq_append_of_byteLength_le
    (piece.split.symm.trans other.split) (Nat.le_of_eq first.symm)
  have none : between = [] := by
    apply Classical.byContradiction
    intro nonempty
    have size := byteLength_pos nonempty
    have longerSize := congrArg byteLength longer
    rw [byteLength_append] at longerSize
    rw [Piece.first, Piece.first] at first
    omega
  subst none
  rw [List.nil_append] at behind
  have characters : piece.characters = other.characters := by
    rw [← piece.stands.extent_eq, ← other.stands.extent_eq, behind, same]
  rw [last, last, first, characters]

end Piece

namespace Scanner

theorem Step.position_le {scanner behind : Scanner} {delivered : Except Fault Lexeme}
    (step : Step scanner delivered behind) : scanner.position ≤ behind.position := by
  cases step <;> dsimp only <;> omega

/-- What is delivered in front of a seam does not depend on what is behind it. -/
theorem Step.replace_tail {head tail other rest : List Char} {position behind : Nat}
    {delivered : Except Fault Lexeme}
    (step : Step ⟨head ++ tail, position⟩ delivered ⟨rest, behind⟩)
    (more : isLast delivered = false)
    (inside : behind ≤ position + byteLength head) (seam : Apart head other) :
    ∃ middle, rest = middle ++ tail ∧ behind + byteLength middle = position + byteLength head ∧
      Apart middle other ∧ Step ⟨head ++ other, position⟩ delivered ⟨middle ++ other, behind⟩ := by
  cases step with
  | ended => simp [isLast] at more
  | @token count token piece rest split spelled apart =>
      dsimp only at split inside
      rw [← List.append_assoc] at split
      have size : byteLength (List.replicate count ' ' ++ piece) = count + byteLength piece := by
        rw [byteLength_append, byteLength_replicate_space]
      obtain ⟨middle, rfl, rfl⟩ := eq_append_of_byteLength_le split (by omega)
      rw [List.append_assoc] at seam
      have whole := byteLength_append (List.replicate count ' ' ++ piece) middle
      exact ⟨middle, rfl, by dsimp only; omega, seam.of_append_left.of_append_left,
        .token (by simp) spelled (apart.of_append.append seam.of_append_left)⟩
  | @invalid count character rest split invalid =>
      dsimp only at split inside
      rw [← List.singleton_append, ← List.append_assoc] at split
      have size : byteLength (List.replicate count ' ' ++ [character]) =
          count + character.utf8Size := by
        rw [byteLength_append, byteLength_replicate_space]
        rfl
      obtain ⟨middle, rfl, rfl⟩ := eq_append_of_byteLength_le split (by omega)
      have whole := byteLength_append (List.replicate count ' ' ++ [character]) middle
      exact ⟨middle, rfl, by dsimp only; omega, seam.of_append_left, .invalid (by simp) invalid⟩

end Scanner

namespace Cursor

variable {text : String} {cursor stop : Cursor} {taken : List Lexeme} {fault : Fault}

theorem Reads.position_le {scanner : Scanner} (started : ofScanner scanner = .ok cursor)
    (read : cursor.Reads taken stop) : cursor.scanner.position ≤ stop.scanner.position := by
  induction read generalizing scanner with
  | nil => exact Nat.le_refl _
  | cons more pulled rest ih =>
      exact Nat.le_trans (step_of_ofScanner pulled).position_le (ih pulled)

/-- The lexeme in view is about a piece of the text, and the scanner stands behind it. -/
theorem Reads.exists_piece {consumed rest : List Char} (split : text.toList = consumed ++ rest)
    (apart : Apart consumed rest) (started : ofScanner ⟨rest, byteLength consumed⟩ = .ok cursor)
    (read : cursor.Reads taken stop) (more : stop.lookahead.token ≠ .endOfInput) :
    ∃ piece : Piece text, piece.delivered = .ok stop.lookahead ∧
      stop.scanner = ⟨piece.after, piece.last⟩ := by
  induction read generalizing consumed rest with
  | nil cursor =>
      obtain ⟨piece, count, delivered, _, behind⟩ :=
        (step_of_ofScanner started).exists_piece split apart (by simp [Scanner.isLast, more])
      exact ⟨piece, delivered, behind⟩
  | cons ahead pulled readRest ih =>
      obtain ⟨piece, count, _, _, behind⟩ :=
        (step_of_ofScanner started).exists_piece split apart (by simp [Scanner.isLast, ahead])
      rw [behind, piece.last_eq] at pulled
      exact ih piece.split_last piece.apart pulled more

/-- What a text that is read up to some lexeme has in common with the texts that
begin alike: the same is read in them, and what is left starts alike too. -/
theorem Reads.replace_tail {head tail other : List Char} {position : Nat}
    (started : ofScanner ⟨head ++ tail, position⟩ = .ok cursor) (read : cursor.Reads taken stop)
    (more : stop.lookahead.token ≠ .endOfInput)
    (inside : stop.scanner.position ≤ position + byteLength head) (seam : Apart head other) :
    ∃ start last middle, ofScanner ⟨head ++ other, position⟩ = .ok start ∧
      start.Reads taken last ∧ last.lookahead = stop.lookahead ∧
      stop.scanner.rest = middle ++ tail ∧
      last.scanner = ⟨middle ++ other, stop.scanner.position⟩ ∧
      stop.scanner.position + byteLength middle = position + byteLength head ∧
      Apart middle other := by
  induction read generalizing head position with
  | nil cursor =>
      obtain ⟨lexeme, ⟨rest, behind⟩⟩ := cursor
      obtain ⟨middle, rfl, size, apart, step⟩ :=
        (step_of_ofScanner started).replace_tail (by simpa [Scanner.isLast] using more) inside seam
      exact ⟨_, _, middle, ofScanner_of_step step, .nil _, rfl, rfl, rfl, size, apart⟩
  | @cons cursor following stop taken ahead pulled readRest ih =>
      have early : cursor.scanner.position ≤ stop.scanner.position :=
        Nat.le_trans (step_of_ofScanner pulled).position_le (readRest.position_le pulled)
      obtain ⟨lexeme, ⟨rest, behind⟩⟩ := cursor
      obtain ⟨middle, rfl, size, apart, step⟩ :=
        (step_of_ofScanner started).replace_tail (by simpa [Scanner.isLast] using ahead)
          (Nat.le_trans early inside) seam
      obtain ⟨start, last, left, started', read', view, rest, scanner, sizeLeft, apartLeft⟩ :=
        ih pulled more (by omega) apart
      exact ⟨_, last, left, ofScanner_of_step step, .cons ahead started' read', view, rest, scanner,
        by omega, apartLeft⟩

end Cursor

namespace Piece

variable {text other : String} {piece : Piece text}

theorem ne_endOfInput {lexeme : Lexeme} (delivered : piece.delivered = .ok lexeme) :
    lexeme.token ≠ .endOfInput := by
  have more := piece.isLast_delivered
  simpa [delivered, Scanner.isLast] using more

/-- The other text has the bytes up to the end of the piece as well, and where the
piece is an integer it does not go on with a digit there. -/
structure IsIn (piece : Piece text) (other : String) : Prop where
  same : other.toByteArray.extract 0 piece.last = text.toByteArray.extract 0 piece.last
  seam : ∀ value, piece.delivered = .ok ⟨.integer value, piece.first⟩ →
    ∀ byte, other.toByteArray[piece.last]? = some byte →
      ¬ ('0'.val.toUInt8 ≤ byte ∧ byte ≤ '9'.val.toUInt8)

theorem IsIn.exists_split (inside : piece.IsIn other) :
    ∃ rest, other.toList = (piece.before ++ piece.characters) ++ rest ∧
      Apart (piece.before ++ piece.characters) rest := by
  have same := inside.same
  rw [piece.last_eq] at same
  obtain ⟨rest, splitOther⟩ := exists_append_of_bytes piece.split_last same
  refine ⟨rest, splitOther, ?_⟩
  by_cases integer : ∃ value, piece.delivered = .ok ⟨.integer value, piece.first⟩
  · obtain ⟨value, integer⟩ := integer
    refine .of_startsDigit ?_
    cases rest with
    | nil => rfl
    | cons character others =>
        apply Bool.eq_false_iff.mpr
        intro digit
        have byte := byte_of_split splitOther (utf8Size_of_isDigit digit)
        rw [← piece.last_eq] at byte
        exact inside.seam value integer _ byte (byte_of_isDigit digit)
  · exact .of_endsDigit (endsDigit_of_other fun value same => integer ⟨value, same⟩)

end Piece

/-- The delivery that a fault is about. -/
def Fault.delivered : Fault → Except Fault Lexeme
  | .invalidCharacter character position => .error (.invalidCharacter character position)
  | .unexpectedToken _ found position => .ok ⟨found, position⟩

/-- The delivery behind which nothing of a text is looked at. -/
def decisive : Except Fault (Expr × Lexeme) → Except Fault Lexeme
  | .error fault => fault.delivered
  | .ok (_, lexeme) => .ok lexeme

section

variable {text other : String} {piece : Piece text} {start stop : Cursor} {taken : List Lexeme}
  {fault : Fault}

theorem ofText_eq (text : String) : Scanner.ofText text = ⟨text.toList, byteLength []⟩ := rfl

theorem Piece.last_of_lookahead (started : Cursor.ofScanner (.ofText text) = .ok start)
    (read : start.Reads taken stop) (delivered : piece.delivered = .ok stop.lookahead) :
    stop.scanner.position = piece.last := by
  have whole : text.toList = [] ++ text.toList := rfl
  obtain ⟨reached, same, behind⟩ :=
    read.exists_piece whole (.of_endsDigit rfl) started (piece.ne_endOfInput delivered)
  rw [behind, piece.last_eq_of_delivered (delivered.trans same.symm)]

/-- What cannot be scanned is about a piece of the text, and the scanner has then passed it. -/
theorem exists_piece_of_ofScanner_error {consumed rest : List Char}
    (split : text.toList = consumed ++ rest) (apart : Apart consumed rest)
    (failed : Cursor.ofScanner ⟨rest, byteLength consumed⟩ = .error fault) :
    ∃ reached : Piece text, reached.delivered = .error fault ∧
      Scanner.Step ⟨rest, byteLength consumed⟩ (.error fault) ⟨reached.after, reached.last⟩ := by
  obtain ⟨behind, stepped⟩ := Cursor.ofScanner_eq_error_iff.mp failed
  have step := Scanner.next_eq_iff.mp stepped
  obtain ⟨reached, _, delivered, _, rfl⟩ := step.exists_piece split apart rfl
  exact ⟨reached, delivered, step⟩

theorem Cursor.Reads.exists_piece_of_broken (read : start.Reads taken stop)
    (started : Cursor.ofScanner (.ofText text) = .ok start)
    (more : stop.lookahead.token ≠ .endOfInput)
    (broken : Cursor.ofScanner stop.scanner = .error fault) :
    ∃ reached : Piece text, reached.delivered = .error fault ∧
      Scanner.Step stop.scanner (.error fault) ⟨reached.after, reached.last⟩ := by
  have whole : text.toList = [] ++ text.toList := rfl
  obtain ⟨front, _, behind⟩ := read.exists_piece whole (.of_endsDigit rfl) started more
  rw [behind, front.last_eq] at broken ⊢
  exact exists_piece_of_ofScanner_error front.split_last front.apart broken

/-- Up to the end of a piece that is also in another text, the same is read there. -/
theorem Piece.IsIn.exists_reads (inside : piece.IsIn other)
    (started : Cursor.ofScanner (.ofText text) = .ok start) (read : start.Reads taken stop)
    (more : stop.lookahead.token ≠ .endOfInput) (early : stop.scanner.position ≤ piece.last) :
    ∃ start' last middle rest, Cursor.ofScanner (.ofText other) = .ok start' ∧
      start'.Reads taken last ∧ last.lookahead = stop.lookahead ∧
      stop.scanner = ⟨middle ++ piece.after, stop.scanner.position⟩ ∧
      last.scanner = ⟨middle ++ rest, stop.scanner.position⟩ ∧
      stop.scanner.position + byteLength middle = piece.last ∧ Apart middle rest := by
  obtain ⟨rest, splitOther, seam⟩ := inside.exists_split
  rw [ofText_eq, piece.split_last] at started
  have size : byteLength [] + byteLength (piece.before ++ piece.characters) = piece.last := by
    rw [piece.last_eq, byteLength, Nat.zero_add]
  rw [← size] at early ⊢
  obtain ⟨start', last, middle, started', read', view, left, scanner, bytes, apart⟩ :=
    Cursor.Reads.replace_tail started read more early seam
  rw [← splitOther] at started'
  exact ⟨start', last, middle, rest, started', read', view, by rw [← left], scanner, bytes, apart⟩

/-- What cannot be scanned as its last piece cannot be scanned in the other text either. -/
theorem Piece.IsIn.ofScanner_error (inside : piece.IsIn other)
    (failed : Cursor.ofScanner (.ofText text) = .error fault)
    (delivered : piece.delivered = .error fault) :
    Cursor.ofScanner (.ofText other) = .error fault := by
  have whole : text.toList = [] ++ text.toList := rfl
  obtain ⟨reached, same, step⟩ := exists_piece_of_ofScanner_error whole (.of_endsDigit rfl) failed
  obtain ⟨rest, splitOther, seam⟩ := inside.exists_split
  rw [← Piece.last_eq_of_delivered (delivered.trans same.symm), piece.split_last] at step
  have size : piece.last = byteLength [] + byteLength (piece.before ++ piece.characters) := by
    rw [piece.last_eq, byteLength, Nat.zero_add]
  obtain ⟨middle, _, _, _, step'⟩ := step.replace_tail rfl (Nat.le_of_eq size) seam
  rw [← splitOther] at step'
  exact Cursor.ofScanner_eq_error_iff.mpr ⟨_, Scanner.next_of_step step'⟩

/-- Where the text cannot be scanned behind what was read, neither can the other one. -/
theorem Piece.IsIn.exists_reads_broken (inside : piece.IsIn other)
    (started : Cursor.ofScanner (.ofText text) = .ok start) (read : start.Reads taken stop)
    (more : stop.lookahead.token ≠ .endOfInput)
    (broken : Cursor.ofScanner stop.scanner = .error fault)
    (delivered : piece.delivered = .error fault) :
    ∃ start' last, Cursor.ofScanner (.ofText other) = .ok start' ∧ start'.Reads taken last ∧
      last.lookahead = stop.lookahead ∧ Cursor.ofScanner last.scanner = .error fault := by
  obtain ⟨reached, same, step⟩ := read.exists_piece_of_broken started more broken
  rw [← Piece.last_eq_of_delivered (delivered.trans same.symm)] at step
  obtain ⟨start', last, middle, rest, started', read', view, left, scanner, bytes, seam⟩ :=
    inside.exists_reads started read more step.position_le
  rw [left] at step
  obtain ⟨_, _, _, _, step'⟩ := step.replace_tail rfl (Nat.le_of_eq bytes.symm) seam
  rw [← scanner] at step'
  exact ⟨start', last, started', read', view,
    Cursor.ofScanner_eq_error_iff.mpr ⟨_, Scanner.next_of_step step'⟩⟩

end

theorem expression_of_parseFirst_error {text : String} {start : Cursor} {fault : Fault}
    (started : Cursor.ofScanner (.ofText text) = .ok start)
    (failed : parseFirst text = .error fault) :
    Rule.expression maxNesting start = .error fault := by
  rw [parseFirst_of_ofScanner started] at failed
  cases ran : Rule.expression maxNesting start with
  | ok parsed => rw [ran] at failed; cases failed
  | error fault' => rw [ran] at failed; cases failed; rfl

/-- A first expression looks at nothing behind the piece that decides it. -/
theorem parseFirst_of_isIn {text other : String} {piece : Piece text} (inside : piece.IsIn other)
    (same : piece.delivered = decisive (parseFirst text)) : parseFirst other = parseFirst text := by
  have reading := parseFirst_reading text
  generalize decided : parseFirst text = result at same reading ⊢
  cases reading with
  | unstarted failed =>
      obtain ⟨character, place, rfl⟩ := Scanner.invalid_of_ofScanner_error failed
      exact parseFirst_of_ofScanner_error (inside.ofScanner_error failed same)
  | parsed started read derived within stops =>
      have more := Piece.ne_endOfInput same
      have early := Nat.le_of_eq (Piece.last_of_lookahead started read same)
      obtain ⟨start', last, _, _, started', read', view, _⟩ :=
        inside.exists_reads started read more early
      obtain ⟨parsed, ran, rfl, _, rfl⟩ := derived.exists_parsed within read' (view ▸ stops)
      have built : Rule.expression maxNesting start' = .ok parsed := ran
      rw [parseFirst_of_ofScanner started', built, ← view]
      rfl
  | refused started read refuses =>
      have more := Piece.ne_endOfInput same
      have early := Nat.le_of_eq (Piece.last_of_lookahead started read same)
      obtain ⟨start', last, _, _, started', read', view, _⟩ :=
        inside.exists_reads started read more early
      have failed : Rule.expression maxNesting start' = _ :=
        refuses.rule_eq read' rfl (by rw [view])
      rw [parseFirst_of_ofScanner started', failed, Cursor.unexpected, view]
      rfl
  | unread started read more broken =>
      obtain ⟨character, place, rfl⟩ := Scanner.invalid_of_ofScanner_error broken
      have failed : Phrase.expression.rule maxNesting _ = _ :=
        expression_of_parseFirst_error started decided
      obtain ⟨start', last, started', read', view, broken'⟩ :=
        inside.exists_reads_broken started read more broken same
      have ran : Rule.expression maxNesting start' = _ :=
        Phrase.rule_unread failed read broken read' rfl (by rw [view]) broken'
      rw [parseFirst_of_ofScanner started', ran]
      rfl

/-- Unless it is the end of the text, what decides a first expression is a piece of the text. -/
theorem Reading.exists_piece {text : String} {result : Except Fault (Expr × Lexeme)}
    (reading : Reading text result) (more : Scanner.isLast (decisive result) = false) :
    ∃ piece : Piece text, piece.delivered = decisive result := by
  have whole : text.toList = [] ++ text.toList := rfl
  have apart : Apart [] text.toList := .of_endsDigit rfl
  cases reading with
  | unstarted failed =>
      obtain ⟨character, place, rfl⟩ := Scanner.invalid_of_ofScanner_error failed
      obtain ⟨piece, delivered, _⟩ := exists_piece_of_ofScanner_error whole apart failed
      exact ⟨piece, delivered⟩
  | parsed started read | refused started read =>
      obtain ⟨piece, delivered, _⟩ :=
        read.exists_piece whole apart started (of_decide_eq_false more)
      exact ⟨piece, delivered⟩
  | unread started read ahead broken =>
      obtain ⟨character, place, rfl⟩ := Scanner.invalid_of_ofScanner_error broken
      obtain ⟨piece, delivered, _⟩ := read.exists_piece_of_broken started ahead broken
      exact ⟨piece, delivered⟩

/-- A fault of either mode is about what decides the first expression. -/
theorem decisive_of_parse_error {mode : Mode} {text : String} {fault : Fault}
    (failed : parse mode text = .error fault) : decisive (parseFirst text) = fault.delivered := by
  rcases parseFirst_of_parse_error failed with first | ⟨_, tree, lexeme, first, rfl⟩ <;> rw [first]
  · rfl
  · rfl

theorem parse_eq_of_parseFirst_eq {text other : String} (same : parseFirst other = parseFirst text)
    (mode : Mode) : parse mode other = parse mode text := by
  rw [parse_eq_finish, parse_eq_finish, same]

/-- Where a text fails in front of its end, the character or the token that the
fault is about is a piece of it, and every text that has this piece at the same
place, behind the same bytes, fails alike.  The same goes for the tree of a
lenient reading and the token in view behind it. -/
theorem outcome_decided_by_piece (text : String) :
    (∀ mode fault, parse mode text = .error fault → Scanner.isLast fault.delivered = false →
      (∃ piece : Piece text, piece.delivered = fault.delivered) ∧
      ∀ piece : Piece text, piece.delivered = fault.delivered →
        ∀ other, piece.IsIn other → parse mode other = .error fault) ∧
    (∀ tree, parse .lenient text = .ok tree →
      ∃ lexeme, parseFirst text = .ok (tree, lexeme) ∧ (lexeme.token ≠ .endOfInput →
        (∃ piece : Piece text, piece.delivered = .ok lexeme) ∧
        ∀ piece : Piece text, piece.delivered = .ok lexeme →
          ∀ other, piece.IsIn other → parse .lenient other = .ok tree)) := by
  refine ⟨fun mode fault failed more => ?_, fun tree accepted => ?_⟩
  · have decided := decisive_of_parse_error failed
    refine ⟨?_, fun piece delivered other inside => ?_⟩
    · rw [← decided] at more ⊢
      exact (parseFirst_reading text).exists_piece more
    · have same := parseFirst_of_isIn inside (delivered.trans decided.symm)
      rw [parse_eq_of_parseFirst_eq same, failed]
  · cases first : parseFirst text with
    | error fault => cases (parse_of_parseFirst_error first).symm.trans accepted
    | ok both =>
        obtain ⟨tree', lexeme⟩ := both
        cases (parse_of_parseFirst first).symm.trans accepted
        refine ⟨lexeme, rfl, fun more => ⟨?_, fun piece delivered other inside => ?_⟩⟩
        · have reading := parseFirst_reading text
          rw [first] at reading
          exact reading.exists_piece (decide_eq_false more)
        · have same := parseFirst_of_isIn inside (by rw [first]; exact delivered)
          rw [parse_eq_of_parseFirst_eq same, accepted]

/-- The parenthesis that stands for an operand. -/
def closingTooSoon : Piece "(1+)*2é" where
  before := ['(', '1', '+']
  characters := [')']
  after := ['*', '2', 'é']
  delivered := .ok ⟨.rightParen, 3⟩
  split := rfl
  stands := .symbol rfl

/-- The integer that a lenient reading leaves. -/
def leftInteger : Piece "1 23é" where
  before := ['1', ' ']
  characters := ['2', '3']
  after := ['é']
  delivered := .ok ⟨.integer (Number.ofDigits ['2', '3']), 2⟩
  split := rfl
  stands := .integer (List.cons_ne_nil _ _) (List.all_eq_true.mp rfl) rfl rfl

theorem closingTooSoon_isIn : closingTooSoon.IsIn "(1+)~" where
  same := by decide +kernel
  seam := by
    intro value integer
    cases integer

theorem leftInteger_isIn : leftInteger.IsIn "1 23)7" where
  same := by decide +kernel
  seam := by
    have byte : "1 23)7".toByteArray[leftInteger.last]? = some ')'.val.toUInt8 := by decide +kernel
    intro _ _ other found
    cases byte.symm.trans found
    decide

/-- Neither outcome depends on what follows the piece. -/
theorem closingTooSoon_and_leftInteger_decide :
    parse .strict "(1+)~" = .error (.unexpectedToken .operand .rightParen 3) ∧
    parse .lenient "1 23)7" = .ok (.literal (Number.ofDigits ['1'])) := by
  have refused : parse .strict "(1+)*2é" = .error (.unexpectedToken .operand .rightParen 3) := by
    decide +kernel
  have accepted : parse .lenient "1 23é" = .ok (.literal (Number.ofDigits ['1'])) := by
    decide +kernel
  refine ⟨?_, ?_⟩
  · exact ((outcome_decided_by_piece _).1 .strict _ refused rfl).2 closingTooSoon rfl _
      closingTooSoon_isIn
  · obtain ⟨lexeme, first, decided⟩ := (outcome_decided_by_piece _).2 _ accepted
    have view : parseFirst "1 23é" =
        .ok (.literal (Number.ofDigits ['1']), ⟨.integer (Number.ofDigits ['2', '3']), 2⟩) := by
      decide +kernel
    cases first.symm.trans view
    exact (decided (by decide)).2 leftInteger rfl _ leftInteger_isIn

end Reckon
