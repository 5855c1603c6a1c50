import Reckon.Proofs.Operands
import Reckon.Proofs.Relocation

namespace Reckon

/-! Reading the text of a tree that was read.

It fails where a number was past the largest double, which is written with letters, and
where the parentheses of the text nest too deep, whichever comes first.  Otherwise it
gives the tree again.
-/

namespace Cursor.Reads

variable {cursor start stop : Cursor} {taken : List Lexeme} {fault : Fault}

/-- Where a text goes on with what cannot be scanned, all of it is read but its last
lexeme, which is then in view. -/
theorem glue_broken {text more : List Char} {position : Nat}
    (started : ofScanner ⟨text, position⟩ = .ok cursor) (read : cursor.Reads taken stop)
    (ended : stop.lookahead.token = .endOfInput) (apart : Apart text more)
    (broken : ofScanner ⟨more, stop.lookahead.position⟩ = .error fault) :
    (taken = [] ∧ ofScanner ⟨text ++ more, position⟩ = .error fault) ∨
    ∃ start front last, ofScanner ⟨text ++ more, position⟩ = .ok start ∧ start.Reads front last ∧
      front ++ [last.lookahead] = taken ∧ ofScanner last.scanner = .error fault := by
  induction read generalizing text position with
  | nil cursor =>
      refine .inl ⟨rfl, ?_⟩
      obtain ⟨⟨token, place⟩, scanner⟩ := cursor
      cases ended
      cases step_of_ofScanner started with
      | @ended count split =>
          dsimp only at split broken
          obtain ⟨behind, stepped⟩ := ofScanner_eq_error_iff.mp broken
          have further := (Scanner.next_eq_iff.mp stepped).of_spaces
          rw [split]
          exact ofScanner_eq_error_iff.mpr ⟨behind, Scanner.next_of_step further⟩
      | token split spelled _ => exact absurd rfl spelled.ne_endOfInput
  | @cons cursor following stop taken ahead pulled rest ih =>
      obtain ⟨lexeme, ⟨others, behind⟩⟩ := cursor
      obtain ⟨step, apartRest⟩ := (step_of_ofScanner started).append ahead apart
      have startedBoth := ofScanner_of_step step
      refine .inr ?_
      rcases ih pulled ended apartRest broken with
        ⟨rfl, brokenRest⟩ | ⟨start, front, last, startedRest, readRest, whole, brokenRest⟩
      · exact ⟨_, [], _, startedBoth, .nil _, rfl, brokenRest⟩
      · exact ⟨_, lexeme :: front, last, startedBoth, .cons ahead startedRest readRest,
          congrArg (lexeme :: ·) whole, brokenRest⟩

/-- What was taken stands in front of what is in view. -/
theorem position_lt {scanner : Scanner} (started : ofScanner scanner = .ok start)
    (read : start.Reads taken stop) {lexeme : Lexeme} (member : lexeme ∈ taken) :
    lexeme.position < stop.lookahead.position := by
  have ordered := scanner.pairwise_deliveries
  rw [Scanner.deliveries_of_reads started read, List.pairwise_append] at ordered
  exact ordered.2.2 _ (List.mem_map_of_mem member) _ List.mem_cons_self

/-- What is read of a broken text is read of any other with the same tokens, in front of
the one that follows there. -/
theorem exists_earlier {scanner : Scanner} {other last middle : Cursor} {others part : List Lexeme}
    (started : ofScanner scanner = .ok other) (readOther : other.Reads others last)
    (read : start.Reads taken stop) (broken : ofScanner stop.scanner = .error fault)
    (same : words others = words (taken ++ [stop.lookahead])) (front : start.Reads part middle) :
    ∃ part' middle', other.Reads part' middle' ∧ words part' = words part ∧
      middle'.lookahead.token = middle.lookahead.token ∧
      middle'.lookahead.position < last.lookahead.position := by
  obtain ⟨rest, rfl, behind⟩ := read.exists_rest_of_broken broken front
  rw [List.append_assoc, words, words, List.map_append] at same
  obtain ⟨part', tail, rfl, samePart, sameTail⟩ := List.map_eq_append_iff.mp same
  rw [List.map_append] at sameTail
  obtain ⟨rest', link, rfl, sameRest, sameLink⟩ := List.map_eq_append_iff.mp sameTail
  obtain ⟨link, _, rfl, sameToken, none⟩ := List.map_eq_cons_iff.mp sameLink
  obtain rfl := List.map_eq_nil_iff.mp none
  obtain ⟨middle', readPart, readTail⟩ := readOther.exists_middle
  obtain ⟨final, readRest, readLink⟩ := readTail.exists_middle
  have view : final.lookahead.token = stop.lookahead.token := by
    rw [readLink.lookahead_eq, sameToken]
  refine ⟨part', middle', readPart, samePart, behind.token_eq readRest sameRest view, ?_⟩
  apply readOther.position_lt started
  apply List.mem_append_right
  cases rest' with
  | nil => exact readTail.lookahead_eq ▸ List.mem_cons_self
  | cons first more => exact readTail.lookahead_eq ▸ List.mem_cons_self

end Cursor.Reads

/-- A rule that would be refused behind some tokens asks for what follows them, and fails
with whatever cannot be scanned there. -/
theorem Refuses.rule_unread {phrase : Phrase} {room : Nat} {token : Token} {expected : Expectation}
    {scanner : Scanner} {start stop other last : Cursor} {taken others : List Lexeme}
    {fault : Fault}
    (refused : Refuses phrase room (words others) token expected)
    (started : Cursor.ofScanner scanner = .ok other) (readOther : other.Reads others last)
    (seen : last.lookahead.token = token) (read : start.Reads taken stop)
    (same : words others = words (taken ++ [stop.lookahead]))
    (broken : Cursor.ofScanner stop.scanner = .error fault) :
    phrase.rule room start = .error fault := by
  -- Had the rule ended sooner here, it would have done so where it is refused.
  have failed := refused.rule_eq readOther rfl seen
  have outcome := phrase.rule_outcome room start
  cases ran : phrase.rule room start with
  | ok parsed =>
      rw [ran] at outcome
      cases outcome with
      | parsed front derived within _ stops =>
          obtain ⟨part, middle, readPart, samePart, sameToken, _⟩ :=
            Cursor.Reads.exists_earlier started readOther read broken same front
          obtain ⟨_, ok, _⟩ :=
            (samePart.symm ▸ derived).exists_parsed within readPart (sameToken ▸ stops)
          cases ok.symm.trans failed
  | error result =>
      rw [ran] at outcome
      cases outcome with
      | refused front refuses =>
          obtain ⟨part, middle, readPart, samePart, sameToken, early⟩ :=
            Cursor.Reads.exists_earlier started readOther read broken same front
          have faults := Except.error.inj
            ((refuses.rule_eq readPart samePart sameToken).symm.trans failed)
          have places := congrArg Fault.position faults
          exact absurd places (Nat.ne_of_lt early)
      | unread front _ brokenFront _ =>
          obtain ⟨rest, rfl, behind⟩ := read.exists_rest_of_broken broken front
          cases behind with
          | nil => exact congrArg Except.error (Except.error.inj (brokenFront.symm.trans broken))
          | cons _ pulled => cases brokenFront.symm.trans pulled

section

variable {mode : Mode} {text : String} {before more : List Char} {tokens : List Token}
  {token : Token} {expected : Expectation} {fault : Fault}

/-- A text whose front is refused with the token behind it is refused there. -/
theorem parse_of_refuses {next : Cursor} (split : text.toList = before ++ more)
    (spelled : Spelled before tokens) (apart : Apart before more)
    (pulled : Cursor.ofScanner ⟨more, byteLength before⟩ = .ok next)
    (refused : Refuses .expression maxNesting tokens next.lookahead.token expected) :
    parse mode text = .error (next.unexpected expected) := by
  obtain ⟨cursor, taken, stop, startedBefore, readBefore, ended, rfl⟩ := spelled 0
  have place := Scanner.position_of_reads_ended startedBefore readBefore ended
  rw [Nat.zero_add] at place
  rw [← place] at pulled
  obtain ⟨start, started, read⟩ := readBefore.glue startedBefore ended apart pulled
  rw [← split] at started
  exact parse_of_expression_error started (refused.rule_eq read rfl rfl)

/-- A text whose front is refused with one token behind it, but goes on with a character of
no token, fails with that. -/
theorem parse_of_refuses_invalid {character : Char}
    (split : text.toList = before ++ character :: more) (spelled : Spelled before tokens)
    (invalid : Invalid character)
    (refused : Refuses .expression maxNesting tokens .rightParen expected) :
    parse mode text = .error (.invalidCharacter character (byteLength before)) := by
  obtain ⟨cursor, taken, stop, startedBefore, readBefore, ended, rfl⟩ := spelled 0
  have place := Scanner.position_of_reads_ended startedBefore readBefore ended
  rw [Nat.zero_add] at place
  have broken : Cursor.ofScanner ⟨character :: more, stop.lookahead.position⟩ =
      .error (.invalidCharacter character (byteLength before)) := by
    rw [place]
    exact Cursor.ofScanner_eq_error_iff.mpr
      ⟨_, Scanner.next_of_step (@Scanner.Step.invalid _ 0 character more rfl invalid)⟩
  have apart : Apart before (character :: more) := .of_startsDigit invalid.not_digit
  rcases readBefore.glue_broken startedBefore ended apart broken with
    ⟨_, failed⟩ | ⟨start, front, last, started, read, whole, brokenLast⟩
  · rw [← split] at failed
    exact parse_of_ofScanner_error failed
  · have closing : Spelled [')'] [.rightParen] := .of_spells (.symbol rfl)
    have closed : Spelled (before ++ [')']) (words taken ++ [.rightParen]) :=
      spelled.append closing (.of_startsDigit rfl)
    obtain ⟨other, both, _, startedOther, readBoth, _, spelledBoth⟩ := closed 0
    obtain ⟨others, paren, rfl, spelledOthers, spelledParen⟩ :=
      List.map_eq_append_iff.mp spelledBoth
    obtain ⟨link, _, rfl, seen, _⟩ := List.map_eq_cons_iff.mp spelledParen
    obtain ⟨middle, readOthers, readParen⟩ := readBoth.exists_middle
    rw [← readParen.lookahead_eq] at seen
    rw [← split] at started
    have sameTokens : words others = words taken := spelledOthers
    refine parse_of_expression_error started ?_
    exact (sameTokens.symm ▸ refused).rule_unread startedOther readOthers seen read
      (by rw [whole, sameTokens]) brokenLast

end

/-- Whatever an operand starts with is in view there, unless it is a number past the
largest double. -/
theorem Expr.Fronts.exists_ofScanner {text : List Char} (fronts : Expr.Fronts text)
    (other : ∀ others, text ≠ 'i' :: 'n' :: 'f' :: others) (position : Nat) :
    ∃ next, Cursor.ofScanner ⟨text, position⟩ = .ok next ∧ next.lookahead.position = position ∧
      next.lookahead.token.startsOperand = true := by
  cases fronts with
  | @symbol character others token spelled starts =>
      have plain : Apart [character] others :=
        .of_endsDigit (by simp [endsDigit, (plain_of_ofSymbol? spelled).2.1])
      have step :=
        @Scanner.Step.token ⟨character :: others, position⟩ 0 token [character] others rfl
        (.symbol spelled) plain
      exact ⟨_, Cursor.ofScanner_of_step step, rfl, starts⟩
  | @digit character others digit =>
      obtain ⟨digits, rest, split, nonempty, all, plain⟩ :=
        Scanner.exists_digits (show startsDigit (character :: others) = true from digit)
      have step := @Scanner.Step.token ⟨character :: others, position⟩ 0 _ digits rest split
        (.integer nonempty all) (.of_startsDigit plain)
      exact ⟨_, Cursor.ofScanner_of_step step, rfl, rfl⟩
  | infinity others => exact absurd rfl (other others)

/-- The first position of some. -/
def First (places : Nat → Prop) (position : Nat) : Prop :=
  places position ∧ ∀ other, places other → position ≤ other

theorem exists_first {places : Nat → Prop} {position : Nat} (holds : places position) :
    ∃ first, First places first := by
  induction position using Nat.strongRecOn with
  | ind position ih =>
      by_cases earlier : ∃ other, other < position ∧ places other
      · obtain ⟨other, less, holdsOther⟩ := earlier
        exact ih other less holdsOther
      · refine ⟨position, holds, fun other holdsOther => Nat.le_of_not_lt fun less => ?_⟩
        exact earlier ⟨other, less, holdsOther⟩

namespace Expr

variable {tree : Expr} {mode : Mode} {text : String} {position : Nat}

/-- A number past the largest double stands there in the text of the tree. -/
def InfinityAt (tree : Expr) (position : Nat) : Prop :=
  ∃ before, tree.InfinityBehind before ∧ before.utf8ByteSize = position

/-- An operand of the text has as many signs and parentheses around it as may be open. -/
def TooDeepAt (tree : Expr) (position : Nat) : Prop :=
  ∃ before, tree.OperandAt maxNesting before ∧ before.utf8ByteSize = position

theorem denoted_of_parse (accepted : parse mode text = .ok tree) : tree.Denoted := by
  intro value leaf
  obtain ⟨number, rfl⟩ := exists_nearest_of_parse accepted leaf
  exact ⟨(Number.plain_nearest number).1, Number.whole_or_infinite_nearest number⟩

theorem whole_of_not_infinityAt (denoted : tree.Denoted)
    (none : ∀ position, ¬ tree.InfinityAt position) :
    ∀ value ∈ tree.literals, Number.Whole value := by
  apply Classical.byContradiction
  intro broken
  obtain ⟨_, before, _, found, _⟩ := exists_infinite_operand denoted broken
  exact none _ ⟨before, found, rfl⟩

theorem levels_of_not_tooDeepAt (denoted : tree.Denoted)
    (none : ∀ position, ¬ tree.TooDeepAt position) :
    tree.levels ≤ maxNesting := by
  apply Nat.le_of_not_lt
  intro many
  obtain ⟨before, stands⟩ := exists_operandAt denoted many
  exact none _ ⟨before, stands, rfl⟩

theorem invalid_i : Invalid 'i' := ⟨by decide, by decide, rfl⟩

/-- The first of the texts of infinity is that of an operand. -/
theorem exists_operandAt_of_infinityAt (denoted : tree.Denoted)
    (first : First tree.InfinityAt position) :
    ∃ depth before, tree.OperandAt depth before ∧ tree.InfinityBehind before ∧
      before.utf8ByteSize = position := by
  obtain ⟨⟨front, ⟨behind, split⟩, rfl⟩, least⟩ := first
  have letters : tree.render.toList = front.toList ++ 'i' :: 'n' :: 'f' :: behind.toList := by
    simp [split]
  have broken : ¬ ∀ value ∈ tree.literals, Number.Whole value := fun whole =>
    not_invalid_of_whole whole 'i' (by simp [letters]) invalid_i
  obtain ⟨depth, before, stands, found, valid⟩ := exists_infinite_operand denoted broken
  refine ⟨depth, before, stands, found, ?_⟩
  apply Nat.le_antisymm _ (least _ ⟨before, found, rfl⟩)
  apply Nat.le_of_not_lt
  intro early
  obtain ⟨after, splitBefore⟩ := found
  rw [splitBefore, String.toList_append] at letters
  rw [← byteLength_toList, ← byteLength_toList] at early
  obtain ⟨more, inside⟩ := exists_append_of_byteLength_lt letters early
  exact valid 'i' (by simp [inside]) invalid_i

theorem parse_render_of_infinityAt (denoted : tree.Denoted) (first : First tree.InfinityAt position)
    (shallow : ∀ other, tree.TooDeepAt other → position ≤ other) :
    parse mode tree.render = .error (.invalidCharacter 'i' position) := by
  obtain ⟨depth, before, stands, ⟨after, split⟩, rfl⟩ :=
    exists_operandAt_of_infinityAt denoted first
  have deep : depth ≤ maxNesting := by
    apply Nat.le_of_not_lt
    intro beyond
    obtain ⟨around, outer, early⟩ := stands.exists_around beyond
    exact absurd early (Nat.not_lt_of_le (shallow _ ⟨around, outer, rfl⟩))
  have reachable : tree.Reachable maxNesting before :=
    ⟨fun other found => first.2 _ ⟨other, found, rfl⟩,
      fun other outer => shallow _ ⟨other, outer, rfl⟩⟩
  obtain ⟨tokens, spelled, refuses⟩ := stands.refuses denoted deep (by decide) reachable
  -- With no room left it is the nesting that is refused, and else the lack of an operand.
  have refused : ∃ expected, Refuses .factor (maxNesting - depth) [] .rightParen expected := by
    cases maxNesting - depth with
    | zero => exact ⟨_, .nesting _⟩
    | succ room => exact ⟨_, .operand rfl⟩
  obtain ⟨expected, refused⟩ := refused
  rw [← byteLength_toList]
  exact parse_of_refuses_invalid (by simp [split]; rfl) spelled invalid_i
    (.first (.first (refuses _ _ refused)))

theorem parse_render_of_tooDeepAt (denoted : tree.Denoted) (first : First tree.TooDeepAt position)
    (integers : ∀ other, tree.InfinityAt other → position < other) :
    ∃ found, found.startsOperand = true ∧
      parse mode tree.render = .error (.unexpectedToken .shallowerNesting found position) := by
  obtain ⟨⟨before, stands, rfl⟩, least⟩ := first
  have reachable : tree.Reachable maxNesting before :=
    ⟨fun other found => Nat.le_of_lt (integers _ ⟨other, found, rfl⟩),
      fun other outer => least _ ⟨other, outer, rfl⟩⟩
  obtain ⟨tokens, spelled, refuses⟩ := stands.refuses denoted (Nat.le_refl _) (by decide) reachable
  obtain ⟨behind, split, fronts⟩ := stands.exists_fronts denoted
  have other : ∀ others, behind ≠ 'i' :: 'n' :: 'f' :: others := by
    rintro others rfl
    have found : tree.render = before ++ ("inf" ++ String.ofList others) := by
      apply String.toList_inj.mp
      simpa using split
    exact Nat.lt_irrefl _ (integers _ ⟨before, ⟨_, found⟩, rfl⟩)
  obtain ⟨next, pulled, place, starts⟩ := fronts.exists_ofScanner other (byteLength before.toList)
  rw [Nat.sub_self] at refuses
  refine ⟨_, starts, ?_⟩
  have refused := refuses next.lookahead.token _ (.nesting _)
  rw [parse_of_refuses split spelled (.of_endsDigit stands.endsDigit_eq) pulled
    (.first (.first refused)), Cursor.unexpected, place, byteLength_toList]

theorem parse_render_of_neither (denoted : tree.Denoted)
    (integers : ∀ position, ¬ tree.InfinityAt position)
    (shallow : ∀ position, ¬ tree.TooDeepAt position) : parse .strict tree.render = .ok tree := by
  have few := levels_of_not_tooDeepAt denoted shallow
  rcases parse_render_of_whole (whole_of_not_infinityAt denoted integers) with
    ⟨_, accepted⟩ | ⟨many, _⟩
  · rwa [unsigned_eq_self fun value leaf => (denoted value leaf).1] at accepted
  · exact absurd few (Nat.not_le_of_lt many)

end Expr

/-- What was read is read again from its text, unless a number of the text is past the
largest double or an operand nests too deep.  The first of these places is then that of
the fault, and a number that is at both of them fails as a number.  Heights are never at
fault: they are checked behind an operand, and where one nests too deep it begins. -/
theorem parse_render_of_parse (mode : Mode) (text : String) (tree : Expr)
    (accepted : parse mode text = .ok tree) :
    (∀ value ∈ tree.literals, Number.isNegative value = false ∧
      (Number.Whole value ∨ Number.view value = .infinite false)) ∧
    ((∀ position, ¬ tree.InfinityAt position) → (∀ position, ¬ tree.TooDeepAt position) →
      parse .strict tree.render = .ok tree ∧ tree.equal tree = true ∧
        evaluate .strict tree.render = evaluate mode text) ∧
    (∀ position, First tree.InfinityAt position →
      (∀ other, tree.TooDeepAt other → position ≤ other) →
      parse .strict tree.render = .error (.invalidCharacter 'i' position)) ∧
    (∀ position, First tree.TooDeepAt position →
      (∀ other, tree.InfinityAt other → position < other) →
      ∃ found, found.startsOperand = true ∧
        parse .strict tree.render = .error (.unexpectedToken .shallowerNesting found position)) ∧
    (parse .strict tree.render = .ok tree ∨
      (∃ position, First tree.InfinityAt position ∧
        parse .strict tree.render = .error (.invalidCharacter 'i' position)) ∨
      ∃ position found, First tree.TooDeepAt position ∧ found.startsOperand = true ∧
        parse .strict tree.render =
          .error (.unexpectedToken .shallowerNesting found position)) := by
  have denoted := Expr.denoted_of_parse accepted
  have plain := Expr.plain_of_parse accepted
  refine ⟨denoted, fun integers shallow => ?_, fun position first shallow => ?_,
    fun position first integers => ?_, ?_⟩
  · have again := Expr.parse_render_of_neither denoted integers shallow
    exact ⟨again, (Expr.equal_iff_eq plain plain).mpr rfl,
      (evaluate_of_parse again).trans (evaluate_of_parse accepted).symm⟩
  · exact Expr.parse_render_of_infinityAt denoted first shallow
  · exact Expr.parse_render_of_tooDeepAt denoted first integers
  · by_cases deep : ∃ position, tree.TooDeepAt position
    · obtain ⟨_, holds⟩ := deep
      obtain ⟨place, firstDeep⟩ := exists_first holds
      by_cases early : ∃ position, tree.InfinityAt position ∧ position ≤ place
      · obtain ⟨_, found, le⟩ := early
        obtain ⟨position, first⟩ := exists_first found
        have le := Nat.le_trans (first.2 _ found) le
        exact .inr (.inl ⟨position, first, Expr.parse_render_of_infinityAt denoted first
          fun other outer => Nat.le_trans le (firstDeep.2 _ outer)⟩)
      · obtain ⟨found, starts, failed⟩ := Expr.parse_render_of_tooDeepAt denoted firstDeep
          fun other infinity => Nat.lt_of_not_le fun le => early ⟨other, infinity, le⟩
        exact .inr (.inr ⟨place, found, firstDeep, starts, failed⟩)
    · have shallow : ∀ position, ¬ tree.TooDeepAt position :=
        fun position holds => deep ⟨position, holds⟩
      by_cases infinite : ∃ position, tree.InfinityAt position
      · obtain ⟨_, holds⟩ := infinite
        obtain ⟨position, first⟩ := exists_first holds
        exact .inr (.inl ⟨position, first, Expr.parse_render_of_infinityAt denoted first
          fun other outer => absurd outer (shallow other)⟩)
      · exact .inl (Expr.parse_render_of_neither denoted
          (fun position holds => infinite ⟨position, holds⟩) shallow)

/-- A text of digits is read as the number that they denote. -/
theorem parse_digits {digits : List Char} (nonempty : digits ≠ [])
    (all : ∀ character ∈ digits, character.isDigit = true) :
    parse .strict (String.ofList digits) = .ok (.literal (Number.ofDigits digits)) := by
  have spelled : Spelled digits [.integer (Number.ofDigits digits)] :=
    .of_spells (.integer nonempty all)
  obtain ⟨start, taken, stop, started, read, ended, tokens⟩ := spelled 0
  rw [← ofText_ofList] at started
  have derived : Derives .expression (words taken) (.literal (Number.ofDigits digits)) [0] :=
    tokens ▸ (Derives.integer _).of_factor
  rcases parse_strict_of_reads started read ended derived with ⟨_, accepted⟩ | ⟨beyond, _⟩
  · exact accepted
  · exact absurd (within_maxNesting_iff.mpr ⟨by simp, by simp [Expr.height]⟩) beyond

/-- The least power of ten that is past the largest double. -/
def oversized : List Char := '1' :: List.replicate 309 '0'

theorem isDigit_of_mem_oversized : ∀ character ∈ oversized, character.isDigit = true := by
  intro character member
  rcases List.mem_cons.mp member with rfl | zero
  · rfl
  · rw [List.eq_of_mem_replicate zero]
    rfl

theorem parse_render_of_parse_oversized :
    parse .strict (String.ofList oversized) = .ok (.literal (Number.ofDigits oversized)) ∧
    (Expr.literal (Number.ofDigits oversized)).render = "inf" ∧
    parse .strict "inf" = .error (.invalidCharacter 'i' 0) := by
  have accepted :
      parse .strict (String.ofList oversized) = .ok (.literal (Number.ofDigits oversized)) :=
    parse_digits (List.cons_ne_nil _ _) isDigit_of_mem_oversized
  have passed : Number.view (Number.ofDigits oversized) = .infinite false :=
    Number.view_nearest_of_infinityBits (by decide +kernel)
  have clear : Number.isNegative (Number.ofDigits oversized) = false := (Number.plain_nearest _).1
  have written : (Expr.literal (Number.ofDigits oversized)).render = "inf" := by
    rw [Expr.render_literal, Expr.renderLiteral, clear, if_neg Bool.false_ne_true, Number.text,
      passed]
    rfl
  have first : First (Expr.literal (Number.ofDigits oversized)).InfinityAt 0 :=
    ⟨⟨"", ⟨"", written⟩, rfl⟩, fun other _ => Nat.zero_le other⟩
  have outcome := parse_render_of_parse .strict _ _ accepted
  refine ⟨accepted, written, ?_⟩
  rw [← written]
  exact outcome.2.2.1 0 first fun other _ => Nat.zero_le other

end Reckon
