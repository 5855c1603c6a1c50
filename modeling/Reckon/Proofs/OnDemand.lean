import Reckon.Proofs.Modes
import Reckon.Proofs.Rendering

namespace Reckon

/-! Scanning on demand and scanning everything first.

A text that has a character of no token fails to scan at the first of them.  The
parser meets the same fault there, unless it comes to an end in front of it.
-/

/-- The characters that a text of the language is made of. -/
def alphabet : List Char :=
  [' ', '0', '1', '2', '3', '4', '5', '6', '7', '8', '9', '(', ')', '+', '-', '*', '/']

theorem mem_alphabet_of_isDigit {character : Char} (digit : character.isDigit = true) :
    character ∈ alphabet := by
  simp only [Char.isDigit, Bool.and_eq_true, decide_eq_true_eq, ge_iff_le,
    UInt32.le_iff_toNat_le] at digit
  have bounds : 48 ≤ character.toNat ∧ character.toNat ≤ 57 := digit
  have table : ∀ number ∈ List.range' 48 10, Char.ofNat number ∈ alphabet := by decide
  rw [← Char.ofNat_toNat character]
  exact table _ (List.mem_range'_1.mpr ⟨bounds.1, by omega⟩)

theorem invalid_iff_not_mem_alphabet {character : Char} :
    Invalid character ↔ character ∉ alphabet := by
  have known : alphabet.all (fun other =>
      other == ' ' || other.isDigit || (Token.ofSymbol? other).isSome) = true := by decide
  constructor
  · intro invalid member
    have covered := List.all_eq_true.mp known character member
    simp [invalid.not_space, invalid.not_digit, invalid.not_symbol] at covered
  · intro foreign
    refine ⟨?_, Bool.eq_false_iff.mpr fun digit => ?_, ?_⟩
    · rintro rfl
      exact foreign (by decide)
    · exact foreign (mem_alphabet_of_isDigit digit)
    · unfold Token.ofSymbol?
      split <;> first | rfl | exact absurd (by decide) foreign

namespace Scanner

/-- A text that fails to scan does so at its first invalid character. -/
theorem exists_invalid_of_tokens_error {scanner : Scanner} {fault : Fault}
    (failed : scanner.tokens = .error fault) :
    ∃ before character after, scanner.rest = before ++ character :: after ∧
      (∀ other ∈ before, ¬ Invalid other) ∧ Invalid character ∧
      fault = .invalidCharacter character (scanner.position + byteLength before) := by
  obtain ⟨delivered, behind, step⟩ := scanner.exists_step
  have stepped := next_of_step step
  cases step with
  | ended split =>
      have started := Cursor.ofScanner_of_step (.ended split)
      rw [tokens_of_ofScanner started, if_pos rfl] at failed
      cases failed
  | @token count token piece rest split spelled apart =>
      have shorter : rest.length < scanner.rest.length :=
        next_rest_length_lt_of_isLast stepped (by simp [isLast, spelled.ne_endOfInput])
      have started := Cursor.ofScanner_of_step (.token split spelled apart)
      rw [tokens_of_ofScanner started, if_neg spelled.ne_endOfInput] at failed
      dsimp only at failed
      generalize later : tokens _ = result at failed
      cases result with
      | ok others => cases failed
      | error fault' =>
          cases failed
          obtain ⟨before, character, after, splitRest, valid, invalid, rfl⟩ :=
            exists_invalid_of_tokens_error later
          refine ⟨List.replicate count ' ' ++ (piece ++ before), character, after,
            ?_, ?_, invalid, ?_⟩
          · dsimp only at splitRest
            rw [split, splitRest]
            simp
          · intro other member
            rcases List.mem_append.mp member with space | member
            · exact not_invalid_of_mem_spaces other space
            rcases List.mem_append.mp member with inside | behind
            · exact spelled.not_invalid other inside
            · exact valid other behind
          · rw [byteLength_append, byteLength_append, byteLength_replicate_space]
            dsimp only
            rw [Nat.add_assoc, Nat.add_assoc]
  | @invalid count character rest split invalid =>
      have broken := Cursor.ofScanner_eq_error_iff.mpr ⟨_, stepped⟩
      rw [tokens_of_ofScanner_error broken] at failed
      cases failed
      exact ⟨_, _, _, split, not_invalid_of_mem_spaces, invalid, by rw [byteLength_replicate_space]⟩
termination_by scanner.rest.length

theorem not_invalid_of_tokens {text : List Char} {position : Nat} {lexemes : List Lexeme}
    (delivered : (⟨text, position⟩ : Scanner).tokens = .ok lexemes) :
    ∀ character ∈ text, ¬ Invalid character := by
  obtain ⟨cursor, taken, stop, started, read, ended, rfl⟩ := exists_reads_of_tokens delivered
  exact Cursor.Reads.not_invalid started read ended

variable {scanner : Scanner} {cursor stop : Cursor} {taken : List Lexeme} {fault : Fault}

theorem tokens_of_reads_error (started : Cursor.ofScanner scanner = .ok cursor)
    (read : cursor.Reads taken stop) (more : stop.lookahead.token ≠ .endOfInput)
    (failed : stop.scanner.tokens = .error fault) : scanner.tokens = .error fault := by
  rw [tokens_of_reads_more started read more, failed]
  rfl

theorem tokens_error_of_reads (started : Cursor.ofScanner scanner = .ok cursor)
    (read : cursor.Reads taken stop) (failed : scanner.tokens = .error fault) :
    stop.lookahead.token ≠ .endOfInput ∧ stop.scanner.tokens = .error fault := by
  by_cases ended : stop.lookahead.token = .endOfInput
  · cases (tokens_of_reads started read ended).symm.trans failed
  · refine ⟨ended, ?_⟩
    rw [tokens_of_reads_more started read ended] at failed
    cases behind : stop.scanner.tokens with
    | ok others =>
        rw [behind] at failed
        cases failed
    | error fault' =>
        rw [behind] at failed
        exact failed

/-- Whatever is in view was delivered in front of the first invalid character. -/
theorem position_lt_of_tokens_error (started : Cursor.ofScanner scanner = .ok cursor)
    (read : cursor.Reads taken stop) (failed : scanner.tokens = .error fault) :
    stop.lookahead.position < fault.position := by
  obtain ⟨more, behind⟩ := tokens_error_of_reads started read failed
  obtain ⟨last, pulled⟩ := read.exists_ofScanner started
  have before := (Cursor.step_of_ofScanner pulled).place_lt_position (by simp [isLast, more])
  obtain ⟨skipped, character, after, _, _, _, rfl⟩ := exists_invalid_of_tokens_error behind
  exact Nat.lt_of_lt_of_le before (Nat.le_add_right _ _)

end Scanner

/-- The tree of the first complete expression of a text, and the lexeme in view
behind it. -/
def parseFirst (text : String) : Except Fault (Expr × Lexeme) := do
  let cursor ← Cursor.ofScanner (.ofText text)
  let parsed ← Rule.expression maxNesting cursor
  return (parsed.tree, parsed.rest.lookahead)

/-- What the first expression of a text comes to, and what was read for it. -/
inductive Reading (text : String) : Except Fault (Expr × Lexeme) → Prop where
  | unstarted {fault : Fault} (failed : Cursor.ofScanner (.ofText text) = .error fault) :
      Reading text (.error fault)
  | parsed {start stop : Cursor} {taken : List Lexeme} {tree : Expr} {depths : List Nat}
      (started : Cursor.ofScanner (.ofText text) = .ok start) (read : start.Reads taken stop)
      (derived : Derives .expression (words taken) tree depths)
      (within : Within maxNesting tree depths)
      (stops : Phrase.expression.Stops stop.lookahead.token) :
      Reading text (.ok (tree, stop.lookahead))
  | refused {start stop : Cursor} {taken : List Lexeme} {expected : Expectation}
      (started : Cursor.ofScanner (.ofText text) = .ok start) (read : start.Reads taken stop)
      (refuses : Refuses .expression maxNesting (words taken) stop.lookahead.token expected) :
      Reading text (.error (stop.unexpected expected))
  | unread {start stop : Cursor} {taken : List Lexeme} {fault : Fault}
      (started : Cursor.ofScanner (.ofText text) = .ok start) (read : start.Reads taken stop)
      (more : stop.lookahead.token ≠ .endOfInput)
      (failed : Cursor.ofScanner stop.scanner = .error fault) : Reading text (.error fault)

variable {text : String} {mode : Mode} {fault : Fault} {tree : Expr} {lexeme : Lexeme}

theorem parseFirst_of_ofScanner_error (failed : Cursor.ofScanner (.ofText text) = .error fault) :
    parseFirst text = .error fault := by
  simp only [parseFirst, failed, bind, Except.bind]

theorem parseFirst_of_ofScanner {start : Cursor}
    (started : Cursor.ofScanner (.ofText text) = .ok start) :
    parseFirst text =
      (fun parsed => (parsed.tree, parsed.rest.lookahead)) <$>
        Rule.expression maxNesting start := by
  simp only [parseFirst, started, bind, Except.bind]
  cases Rule.expression maxNesting start <;> rfl

theorem parseFirst_reading (text : String) : Reading text (parseFirst text) := by
  cases started : Cursor.ofScanner (.ofText text) with
  | error fault =>
      rw [parseFirst_of_ofScanner_error started]
      exact .unstarted started
  | ok start =>
      have outcome := Rule.expression_outcome maxNesting start
      rw [parseFirst_of_ofScanner started]
      cases ran : Rule.expression maxNesting start with
      | error fault =>
          rw [ran] at outcome
          cases outcome with
          | refused read refuses => exact .refused started read refuses
          | unread read more failed begun => exact .unread started read more failed
      | ok parsed =>
          rw [ran] at outcome
          cases outcome with
          | parsed read derived within height stops =>
              exact .parsed started read derived within stops

/-- What a reading makes of the first expression: the strict one asks for the end
of the text behind it. -/
def Mode.finish (mode : Mode) (tree : Expr) (lexeme : Lexeme) : Except Fault Expr :=
  match mode with
  | .lenient => .ok tree
  | .strict =>
      if lexeme.token = .endOfInput then .ok tree
      else .error (.unexpectedToken .endOfInput lexeme.token lexeme.position)

/-- All that a reading has of a text is its first expression. -/
theorem parse_eq_finish (mode : Mode) (text : String) :
    parse mode text = parseFirst text >>= fun (tree, lexeme) => mode.finish tree lexeme := by
  cases started : Cursor.ofScanner (.ofText text) with
  | error fault =>
      rw [parse_of_ofScanner_error started, parseFirst_of_ofScanner_error started]
      rfl
  | ok start =>
      rw [parseFirst_of_ofScanner started]
      cases ran : Rule.expression maxNesting start with
      | error fault => exact parse_of_expression_error started ran
      | ok parsed =>
          cases mode with
          | lenient => exact parse_lenient_of_expression started ran
          | strict => exact parse_strict_of_expression started ran

theorem parse_of_parseFirst (first : parseFirst text = .ok (tree, lexeme)) :
    parse mode text = mode.finish tree lexeme := by
  rw [parse_eq_finish, first]
  rfl

theorem parse_of_parseFirst_error (failed : parseFirst text = .error fault) :
    parse mode text = .error fault := by
  rw [parse_eq_finish, failed]
  rfl

/-- Behind a first expression only the strict reading fails, for want of the end. -/
theorem parseFirst_of_parse_error (failed : parse mode text = .error fault) :
    parseFirst text = .error fault ∨
    (mode = .strict ∧ ∃ tree lexeme, parseFirst text = .ok (tree, lexeme) ∧
      fault = .unexpectedToken .endOfInput lexeme.token lexeme.position) := by
  cases first : parseFirst text with
  | error fault' =>
      cases (parse_of_parseFirst_error first).symm.trans failed
      exact .inl rfl
  | ok both =>
      obtain ⟨tree, lexeme⟩ := both
      rw [parse_of_parseFirst first] at failed
      unfold Mode.finish at failed
      split at failed
      · cases failed
      · split at failed
        · cases failed
        · cases failed
          exact .inr ⟨rfl, tree, lexeme, rfl, rfl⟩

namespace Reading

/-- A first expression fails to scan only where the whole text does. -/
theorem tokenize_of_invalid {character : Char} {position : Nat}
    (reading : Reading text (.error (.invalidCharacter character position))) :
    tokenize text = .error (.invalidCharacter character position) := by
  generalize same : Except.error (Fault.invalidCharacter character position) = result at reading
  cases reading with
  | unstarted failed =>
      cases same
      exact Scanner.tokens_of_ofScanner_error failed
  | parsed => cases same
  | refused => cases same
  | unread started read more failed =>
      cases same
      exact Scanner.tokens_of_reads_error started read more
        (Scanner.tokens_of_ofScanner_error failed)

theorem of_tokenize_error {result : Except Fault (Expr × Lexeme)} (reading : Reading text result)
    (failed : tokenize text = .error fault) :
    result = .error fault ∨
    (∃ expected found position, result = .error (.unexpectedToken expected found position) ∧
      position < fault.position) ∨
    (∃ tree lexeme, result = .ok (tree, lexeme) ∧ lexeme.token ≠ .endOfInput ∧
      lexeme.position < fault.position) := by
  cases reading with
  | unstarted broken =>
      cases (Scanner.tokens_of_ofScanner_error broken).symm.trans failed
      exact .inl rfl
  | parsed started read derived within stops =>
      exact .inr (.inr ⟨_, _, rfl, (Scanner.tokens_error_of_reads started read failed).1,
        Scanner.position_lt_of_tokens_error started read failed⟩)
  | refused started read refuses =>
      exact .inr (.inl ⟨_, _, _, rfl, Scanner.position_lt_of_tokens_error started read failed⟩)
  | unread started read more broken =>
      have whole := Scanner.tokens_of_reads_error started read more
        (Scanner.tokens_of_ofScanner_error broken)
      cases whole.symm.trans failed
      exact .inl rfl

end Reading

theorem tokenize_error_iff (text : String) :
    (∃ fault, tokenize text = .error fault) ↔ ∃ character ∈ text.toList, character ∉ alphabet := by
  constructor
  · intro failed
    obtain ⟨fault, failed⟩ := failed
    obtain ⟨before, character, after, split, _, invalid, _⟩ :=
      Scanner.exists_invalid_of_tokens_error failed
    have whole : text.toList = before ++ character :: after := split
    exact ⟨character, by simp [whole], invalid_iff_not_mem_alphabet.mp invalid⟩
  · intro foreign
    obtain ⟨character, member, foreign⟩ := foreign
    cases delivered : tokenize text with
    | error fault => exact ⟨fault, rfl⟩
    | ok lexemes =>
        exact absurd (invalid_iff_not_mem_alphabet.mpr foreign)
          (Scanner.not_invalid_of_tokens delivered character member)

theorem parse_strict_of_tokenize_error (failed : tokenize text = .error fault) :
    ∃ failure, parse .strict text = .error failure ∧
      (failure = fault ∨ ∃ expected found position,
        failure = .unexpectedToken expected found position ∧ position < fault.position) := by
  rcases (parseFirst_reading text).of_tokenize_error failed with
    same | ⟨expected, found, position, first, before⟩ | ⟨tree, lexeme, first, more, before⟩
  · exact ⟨fault, parse_of_parseFirst_error same, .inl rfl⟩
  · exact ⟨_, parse_of_parseFirst_error first, .inr ⟨_, _, _, rfl, before⟩⟩
  · have rejected : parse .strict text = _ := parse_of_parseFirst first
    rw [Mode.finish, if_neg more] at rejected
    exact ⟨_, rejected, .inr ⟨_, _, _, rfl, before⟩⟩

theorem position_lt_of_parse_lenient (failed : tokenize text = .error fault)
    (accepted : parse .lenient text = .ok tree) :
    ∃ lexeme, parseFirst text = .ok (tree, lexeme) ∧ lexeme.position < fault.position := by
  rcases (parseFirst_reading text).of_tokenize_error failed with
    same | ⟨expected, found, position, first, _⟩ | ⟨tree', lexeme, first, more, before⟩
  · cases (parse_of_parseFirst_error same).symm.trans accepted
  · cases (parse_of_parseFirst_error first).symm.trans accepted
  · cases (parse_of_parseFirst first).symm.trans accepted
    exact ⟨lexeme, first, before⟩

/-- A text fails to scan exactly if it has a character outside the alphabet, and
then at the first of them; any other text ends in the only end that is delivered.
An invalid character is the same fault for the parser.  Where a text fails to
scan, the strict parser fails there or at a token in front of it, and the lenient
one has a tree only with such a token in view. -/
theorem tokenize_agrees_with_parse (text : String) :
    ((∃ fault, tokenize text = .error fault) ↔ ∃ character ∈ text.toList, character ∉ alphabet) ∧
    (∀ fault, tokenize text = .error fault →
      ∃ before character after, text.toList = before ++ character :: after ∧
        (∀ other ∈ before, other ∈ alphabet) ∧ character ∉ alphabet ∧
        fault = .invalidCharacter character (byteLength before)) ∧
    (∀ lexemes, tokenize text = .ok lexemes →
      ∃ others position, lexemes = others ++ [⟨.endOfInput, position⟩] ∧
        ∀ lexeme ∈ others, lexeme.token ≠ .endOfInput) ∧
    (∀ mode character position,
      parse mode text = .error (.invalidCharacter character position) →
      tokenize text = .error (.invalidCharacter character position)) ∧
    (∀ fault, tokenize text = .error fault →
      (∃ failure, parse .strict text = .error failure ∧ evaluate .strict text = .error failure ∧
        (failure = fault ∨ ∃ expected found position,
          failure = .unexpectedToken expected found position ∧ position < fault.position)) ∧
      ∀ tree, parse .lenient text = .ok tree →
        ∃ lexeme, parseFirst text = .ok (tree, lexeme) ∧ lexeme.position < fault.position) := by
  refine ⟨tokenize_error_iff text, fun fault failed => ?_, fun lexemes delivered => ?_,
    fun mode character position failed => ?_, fun fault failed => ⟨?_, fun tree accepted => ?_⟩⟩
  · obtain ⟨before, character, after, split, valid, invalid, rfl⟩ :=
      Scanner.exists_invalid_of_tokens_error failed
    refine ⟨before, character, after, split, fun other member => ?_,
      invalid_iff_not_mem_alphabet.mp invalid, by rw [Scanner.ofText, Nat.zero_add]⟩
    exact Classical.not_not.mp (mt invalid_iff_not_mem_alphabet.mpr (valid other member))
  · obtain ⟨cursor, taken, stop, started, read, ended, rfl⟩ :=
      Scanner.exists_reads_of_tokens delivered
    refine ⟨taken, stop.lookahead.position, ?_, read.ne_endOfInput⟩
    rw [← ended]
  · rcases parseFirst_of_parse_error failed with first | ⟨_, _, _, _, equal⟩
    · exact (first ▸ parseFirst_reading text).tokenize_of_invalid
    · cases equal
  · obtain ⟨failure, rejected, place⟩ := parse_strict_of_tokenize_error failed
    refine ⟨failure, rejected, ?_, place⟩
    rw [evaluate_eq_map_parse, rejected]
    rfl
  · exact position_lt_of_parse_lenient failed accepted

/-- The token in front of the foreign character is at fault, or else the character. -/
theorem tokenize_agrees_with_parse_foreign :
    tokenize ")é" = .error (.invalidCharacter 'é' 1) ∧
    ∃ failure, parse .strict ")é" = .error failure ∧ evaluate .strict ")é" = .error failure ∧
      (failure = .invalidCharacter 'é' 1 ∨ ∃ expected found position,
        failure = .unexpectedToken expected found position ∧ position < 1) := by
  have failed : tokenize ")é" = .error (.invalidCharacter 'é' 1) := by decide +kernel
  obtain ⟨_, _, _, _, agrees⟩ := tokenize_agrees_with_parse ")é"
  exact ⟨failed, (agrees _ failed).1⟩

example : tokenize "2*é" = .error (.invalidCharacter 'é' 2) ∧
    parse .strict ")é" = .error (.unexpectedToken .operand .rightParen 0) := by
  decide +kernel

end Reckon
