import Reckon.Proofs.Acceptance
import Reckon.Proofs.ReadBack
import Reckon.Proofs.Splicing

namespace Reckon

/-! Reading the text of a tree.

The written form of a tree is a single factor: every operation stands in its own
parentheses.  Its nesting is that of the tree, counted with two levels for a sign
and its parentheses, and it has no literals but the whole ones without a sign.
-/

namespace Expr

def literals : Expr → List Float
  | .literal value => [value]
  | .unary _ operand => operand.literals
  | .binary _ left right => left.literals ++ right.literals

/-- The tree with a negation in the place of every sign of a literal. -/
def unsigned : Expr → Expr
  | .literal value =>
      if Number.isNegative value then .unary .negate (.literal (-value)) else .literal value
  | .unary op operand => .unary op operand.unsigned
  | .binary op left right => .binary op left.unsigned right.unsigned

/-- The levels of nesting that the written form takes, of which an integer is one. -/
def levels : Expr → Nat
  | .literal value => if Number.isNegative value then 3 else 1
  | .unary _ operand => 2 + operand.levels
  | .binary _ left right => 1 + max left.levels right.levels

theorem value_unsigned (tree : Expr) : tree.unsigned.value = tree.value := by
  induction tree with
  | literal value =>
      rw [unsigned]
      split
      · exact Number.neg_neg value
      · rfl
  | unary op operand ih => simp only [unsigned, value, ih]
  | binary op left right leftIH rightIH => simp only [unsigned, value, leftIH, rightIH]

theorem unsigned_eq_self {tree : Expr}
    (clear : ∀ value ∈ tree.literals, Number.isNegative value = false) : tree.unsigned = tree := by
  induction tree with
  | literal value =>
      rw [unsigned, clear value (List.mem_singleton_self value)]
      rfl
  | unary op operand ih => rw [unsigned, ih clear]
  | binary op left right leftIH rightIH =>
      rw [unsigned, leftIH fun value member => clear value (List.mem_append_left _ member),
        rightIH fun value member => clear value (List.mem_append_right _ member)]

theorem height_unsigned_le (tree : Expr) : tree.unsigned.height ≤ tree.levels := by
  induction tree with
  | literal value =>
      rw [unsigned, levels]
      split
      · exact Nat.le_succ 2
      · exact Nat.le_refl 1
  | unary op operand ih =>
      simp only [unsigned, levels, height]
      omega
  | binary op left right leftIH rightIH =>
      simp only [unsigned, levels, height]
      omega

end Expr

/-- Wherever it stands, the text is read to its end with these tokens. -/
def Spelled (text : List Char) (tokens : List Token) : Prop :=
  ∀ position, ∃ start taken stop, Cursor.ofScanner ⟨text, position⟩ = .ok start ∧
    start.Reads taken stop ∧ stop.lookahead.token = .endOfInput ∧ words taken = tokens

namespace Spelled

variable {text more : List Char} {tokens others : List Token}

theorem append (first : Spelled text tokens) (second : Spelled more others)
    (apart : Apart text more) : Spelled (text ++ more) (tokens ++ others) := by
  intro position
  obtain ⟨cursor, taken, stop, started, read, ended, rfl⟩ := first position
  obtain ⟨next, further, last, pulled, readMore, endedMore, rfl⟩ := second stop.lookahead.position
  obtain ⟨start, startedBoth, readText⟩ := Cursor.Reads.glue started read ended apart pulled
  exact ⟨start, taken ++ further, last, startedBoth, readText.append readMore, endedMore,
    List.map_append⟩

theorem spaces (count : Nat) : Spelled (List.replicate count ' ') [] := by
  intro position
  have step : Scanner.Step ⟨List.replicate count ' ', position⟩
      (.ok ⟨.endOfInput, position + count⟩) ⟨[], position + count⟩ := .ended rfl
  exact ⟨_, [], _, Cursor.ofScanner_of_step step, .nil _, rfl, rfl⟩

theorem space : Spelled [' '] [] := spaces 1

theorem of_spells {token : Token} (spelled : Spells token text) : Spelled text [token] := by
  intro position
  have step := @Scanner.Step.token ⟨text, position⟩ 0 token text [] (by simp) spelled (.nil _)
  have finish := fun scanner => @Scanner.Step.ended ⟨[], scanner⟩ 0 rfl
  exact ⟨_, _, _, Cursor.ofScanner_of_step step,
    .single spelled.ne_endOfInput (Cursor.ofScanner_of_step (finish _)), rfl, rfl⟩

theorem parenthesized (inner : Spelled text tokens) :
    Spelled ('(' :: (text ++ [')'])) (.leftParen :: (tokens ++ [.rightParen])) := by
  have opening : Spelled ['('] [.leftParen] := of_spells (.symbol rfl)
  have closing : Spelled [')'] [.rightParen] := of_spells (.symbol rfl)
  exact opening.append (inner.append closing (.of_startsDigit rfl)) (.of_endsDigit rfl)

end Spelled

theorem UnaryOp.spelled (op : UnaryOp) :
    Spelled op.symbol.toList [op.token] ∧ endsDigit op.symbol.toList = false := by
  cases op <;> exact ⟨.of_spells (.symbol rfl), rfl⟩

theorem BinaryOp.spelled (op : BinaryOp) :
    Spelled (' ' :: (op.symbol.toList ++ [' '])) [op.token] := by
  have symbol : Spelled op.symbol.toList [op.token] := by
    cases op <;> exact .of_spells (.symbol rfl)
  exact Spelled.space.append (symbol.append .space (.of_startsDigit rfl)) (.of_endsDigit rfl)

/-- A whole double without a sign is written as the digits of an integer that is read as
the same double. -/
theorem Number.spells_text {value : Float} (positive : Number.isNegative value = false)
    (whole : Number.Whole value) : Spells (.integer value) (Number.text value).toList := by
  obtain ⟨number, written, same⟩ := Number.text_of_whole positive whole
  have digits :
      Spells (.integer (Number.ofDigits (Nat.toDigits 10 number))) (Nat.toDigits 10 number) :=
    .integer Nat.toDigits_ne_nil fun character member =>
      Nat.isDigit_of_mem_toDigits (by decide) (by decide) member
  rw [Number.ofDigits, Nat.ofDigitChars_ten_toDigits, same] at digits
  rw [written, Nat.toList_repr]
  exact digits

/-- A text that spells one token is scanned as that token and the end behind it. -/
theorem Spells.tokenize_eq {token : Token} {text : String} (spelled : Spells token text.toList) :
    tokenize text = .ok [⟨token, 0⟩, ⟨.endOfInput, text.utf8ByteSize⟩] := by
  have first := @Scanner.Step.token (.ofText text) 0 token text.toList []
    (by simp [Scanner.ofText]) spelled (.nil _)
  have last := fun position => @Scanner.Step.ended ⟨[], position⟩ 0 rfl
  have tokens := Scanner.tokens_of_reads (Cursor.ofScanner_of_step first)
    (.single spelled.ne_endOfInput (Cursor.ofScanner_of_step (last _))) rfl
  simpa [tokenize, Scanner.ofText, byteLength_toList] using tokens

/-- The deepest of some integers has so many levels, itself included. -/
structure Deepest (levels : Nat) (depths : List Nat) : Prop where
  bound : ∀ depth ∈ depths, depth < levels
  reached : ∃ depth ∈ depths, depth + 1 = levels

namespace Deepest

variable {levels other : Nat} {depths others : List Nat}

theorem single : Deepest 1 [0] := ⟨by simp, by simp⟩

theorem deeper (deepest : Deepest levels depths) : Deepest (1 + levels) (depths.map (· + 1)) := by
  obtain ⟨bound, last, member, reached⟩ := deepest
  constructor
  · intro depth mapped
    obtain ⟨inner, innerMember, rfl⟩ := List.mem_map.mp mapped
    have := bound inner innerMember
    omega
  · exact ⟨last + 1, List.mem_map.mpr ⟨last, member, rfl⟩, by omega⟩

theorem append (first : Deepest levels depths) (second : Deepest other others) :
    Deepest (max levels other) (depths ++ others) := by
  constructor
  · intro depth member
    rcases List.mem_append.mp member with left | right
    · exact Nat.lt_of_lt_of_le (first.bound depth left) (Nat.le_max_left _ _)
    · exact Nat.lt_of_lt_of_le (second.bound depth right) (Nat.le_max_right _ _)
  · obtain ⟨left, leftMember, leftReached⟩ := first.reached
    obtain ⟨right, rightMember, rightReached⟩ := second.reached
    rcases Nat.le_total levels other with le | le
    · exact ⟨right, List.mem_append_right _ rightMember, by omega⟩
    · exact ⟨left, List.mem_append_left _ leftMember, by omega⟩

theorem le_iff (deepest : Deepest levels depths) (limit : Nat) :
    (∀ depth ∈ depths, depth ≤ limit) ↔ levels ≤ limit + 1 := by
  constructor
  · intro within
    obtain ⟨last, member, reached⟩ := deepest.reached
    have := within last member
    omega
  · intro within depth member
    have := deepest.bound depth member
    omega

end Deepest

/-- A text that is read as one factor, with its nesting. -/
def ReadsAs (text : List Char) (tree : Expr) (levels : Nat) : Prop :=
  ∃ tokens depths, Spelled text tokens ∧ Derives .factor tokens tree depths ∧ Deepest levels depths

namespace ReadsAs

variable {text more : List Char} {tree left right : Expr} {levels leftLevels rightLevels : Nat}

theorem integer {value : Float} (positive : Number.isNegative value = false)
    (whole : Number.Whole value) : ReadsAs (Number.text value).toList (.literal value) 1 :=
  ⟨_, _, .of_spells (Number.spells_text positive whole), .integer value, .single⟩

theorem signed (op : UnaryOp) (operand : ReadsAs text tree levels) :
    ReadsAs ('(' :: (op.symbol.toList ++ text ++ [')'])) (.unary op tree) (2 + levels) := by
  obtain ⟨tokens, depths, spelled, derived, deepest⟩ := operand
  obtain ⟨symbol, plain⟩ := op.spelled
  refine ⟨_, _, (symbol.append spelled (.of_endsDigit plain)).parenthesized,
    .grouped (.of_factor (.signed op derived)), ?_⟩
  rw [show 2 + levels = 1 + (1 + levels) by omega]
  exact deepest.deeper.deeper

theorem joined (op : BinaryOp) (leftOperand : ReadsAs text left leftLevels)
    (rightOperand : ReadsAs more right rightLevels) :
    ReadsAs ('(' :: (text ++ ' ' :: (op.symbol.toList ++ [' ']) ++ more ++ [')']))
      (.binary op left right) (1 + max leftLevels rightLevels) := by
  obtain ⟨tokens, depths, spelled, derived, deepest⟩ := leftOperand
  obtain ⟨moreTokens, moreDepths, moreSpelled, moreDerived, moreDeepest⟩ := rightOperand
  have leftSpelled := spelled.append op.spelled (.of_startsDigit rfl)
  have spaced : endsDigit (text ++ ' ' :: (op.symbol.toList ++ [' '])) = false := by
    cases op <;> simp [endsDigit, BinaryOp.symbol]
  have bothSpelled := leftSpelled.append moreSpelled (.of_endsDigit spaced)
  rw [List.append_assoc tokens] at bothSpelled
  have chain : Derives (.chain op.precedence) (tokens ++ op.token :: moreTokens)
      (.binary op left right) (depths ++ moreDepths) :=
    .joined rfl derived.of_factor moreDerived.of_factor
  exact ⟨_, _, bothSpelled.parenthesized, .grouped chain.of_chain,
    (deepest.append moreDeepest).deeper⟩

end ReadsAs

theorem Expr.render_readsAs {tree : Expr} (whole : ∀ value ∈ tree.literals, Number.Whole value) :
    ReadsAs tree.render.toList tree.unsigned tree.levels := by
  induction tree with
  | literal value =>
      have wholeValue := whole value (List.mem_singleton_self value)
      rw [render_literal, renderLiteral, unsigned, levels]
      split
      · rename_i negative
        have clear := (Number.fields_neg negative).1
        have read :=
          (ReadsAs.integer clear ((Number.whole_neg negative).mpr wholeValue)).signed .negate
        simpa [UnaryOp.symbol] using read
      · rename_i clear
        exact .integer (Bool.eq_false_iff.mpr clear) wholeValue
  | unary op operand ih =>
      rw [render_unary, unsigned, levels]
      have read := (ih whole).signed op
      simpa using read
  | binary op left right leftIH rightIH =>
      rw [render_binary, unsigned, levels]
      have leftRead := leftIH fun value member => whole value (List.mem_append_left _ member)
      have rightRead := rightIH fun value member => whole value (List.mem_append_right _ member)
      simpa using leftRead.joined op rightRead

theorem Spells.not_invalid {token : Token} {piece : List Char} (spelled : Spells token piece) :
    ∀ character ∈ piece, ¬ Invalid character := by
  intro character member invalid
  cases spelled with
  | integer nonempty all =>
      cases invalid.not_digit.symm.trans (all character member)
  | symbol spelled =>
      cases List.mem_singleton.mp member
      cases invalid.not_symbol.symm.trans spelled

theorem not_invalid_of_mem_spaces {count : Nat} :
    ∀ character ∈ List.replicate count ' ', ¬ Invalid character := by
  intro character member invalid
  exact invalid.not_space (List.eq_of_mem_replicate member)

theorem Cursor.Reads.not_invalid {text : List Char} {position : Nat} {cursor stop : Cursor}
    {taken : List Lexeme} (started : ofScanner ⟨text, position⟩ = .ok cursor)
    (read : cursor.Reads taken stop) (ended : stop.lookahead.token = .endOfInput) :
    ∀ character ∈ text, ¬ Invalid character := by
  induction read generalizing text position with
  | nil cursor =>
      obtain ⟨lexeme, scanner⟩ := cursor
      cases step_of_ofScanner started with
      | ended split =>
          dsimp only at split
          exact split ▸ not_invalid_of_mem_spaces
      | token split spelled _ => exact absurd ended spelled.ne_endOfInput
  | @cons cursor following stop taken ahead pulled rest ih =>
      obtain ⟨lexeme, ⟨others, behind⟩⟩ := cursor
      cases step_of_ofScanner started with
      | ended _ => exact absurd rfl ahead
      | token split spelled _ =>
          dsimp only at split
          subst split
          intro character member
          rcases List.mem_append.mp member with before | member
          · exact not_invalid_of_mem_spaces character before
          rcases List.mem_append.mp member with inside | behind
          · exact spelled.not_invalid character inside
          · exact ih pulled ended character behind

namespace Expr

variable {tree : Expr}

theorem exists_invalid_of_literal {value : Float} (broken : ¬ Number.Whole value) :
    ∃ character ∈ (renderLiteral value).toList, Invalid character := by
  have letter {other : Float} (broken : ¬ Number.Whole other) :
      ∃ character ∈ (Number.text other).toList, Invalid character := by
    obtain ⟨character, member, cases⟩ := Number.text_of_not_whole broken
    refine ⟨character, member, ?_⟩
    rcases cases with rfl | rfl | rfl <;> exact ⟨by decide, by decide, rfl⟩
  rw [renderLiteral]
  split
  · rename_i negative
    obtain ⟨character, member, invalid⟩ := letter (mt (Number.whole_neg negative).mp broken)
    exact ⟨character, by simp [member], invalid⟩
  · exact letter broken

theorem exists_invalid {value : Float} (leaf : value ∈ tree.literals)
    (broken : ¬ Number.Whole value) :
    ∃ character ∈ tree.render.toList, Invalid character := by
  induction tree with
  | literal other =>
      cases List.mem_singleton.mp leaf
      rw [render_literal]
      exact exists_invalid_of_literal broken
  | unary op operand ih =>
      obtain ⟨character, member, invalid⟩ := ih leaf
      exact ⟨character, by simp [member], invalid⟩
  | binary op left right leftIH rightIH =>
      rcases List.mem_append.mp leaf with inside | inside
      · obtain ⟨character, member, invalid⟩ := leftIH inside
        exact ⟨character, by simp [member], invalid⟩
      · obtain ⟨character, member, invalid⟩ := rightIH inside
        exact ⟨character, by simp [member], invalid⟩

theorem whole_of_parse {parsed : Expr} (accepted : parse .strict tree.render = .ok parsed) :
    ∀ value ∈ tree.literals, Number.Whole value := by
  obtain ⟨cursor, taken, stop, _, started, read, ended, _⟩ := reads_of_parse_strict accepted
  intro value leaf
  apply Classical.byContradiction
  intro broken
  obtain ⟨character, member, invalid⟩ := exists_invalid leaf broken
  exact Cursor.Reads.not_invalid started read ended character member invalid

theorem parse_render_of_whole (whole : ∀ value ∈ tree.literals, Number.Whole value) :
    (tree.levels ≤ 256 ∧ parse .strict tree.render = .ok tree.unsigned) ∨
    (256 < tree.levels ∧ ∃ cursor : Cursor,
      parse .strict tree.render = .error (cursor.unexpected .shallowerNesting)) := by
  obtain ⟨tokens, depths, spelled, derived, deepest⟩ := render_readsAs whole
  obtain ⟨start, taken, stop, started, read, ended, rfl⟩ := spelled 0
  have nesting := deepest.le_iff 255
  have height := tree.height_unsigned_le
  rcases parse_strict_of_reads started read ended derived.of_factor with
    ⟨within, accepted⟩ | ⟨beyond, failed⟩
  · exact .inl ⟨nesting.mp (within_maxNesting_iff.mp within).1, accepted⟩
  · refine .inr ⟨Nat.lt_of_not_le fun few => beyond ?_, failed⟩
    exact within_maxNesting_iff.mpr ⟨nesting.mpr few, by omega⟩

end Expr

theorem evaluate_of_parse {mode : Mode} {text : String} {tree : Expr}
    (accepted : parse mode text = .ok tree) : evaluate mode text = .ok tree.value := by
  rw [evaluate_eq_map_parse, accepted]
  rfl

/-- A tree is read back from its text exactly if its literals are finite whole
numbers and its nesting keeps within the limit, which is otherwise the fault that
is reported.  What is read is the tree with its signed literals taken apart, and
of the same value. -/
theorem parse_render (tree : Expr) :
    ((∃ parsed, parse .strict tree.render = .ok parsed) ↔
      (∀ value ∈ tree.literals, Number.Whole value) ∧ tree.levels ≤ 256) ∧
    (∀ parsed, parse .strict tree.render = .ok parsed →
      parsed = tree.unsigned ∧ evaluate .strict tree.render = .ok tree.value) ∧
    ((∀ value ∈ tree.literals, Number.isNegative value = false) → tree.unsigned = tree) ∧
    ((∀ value ∈ tree.literals, Number.Whole value) → 256 < tree.levels →
      ∃ found position, parse .strict tree.render =
        .error (.unexpectedToken .shallowerNesting found position)) := by
  refine ⟨⟨?_, ?_⟩, ?_, Expr.unsigned_eq_self, ?_⟩
  · intro read
    obtain ⟨parsed, accepted⟩ := read
    have whole := Expr.whole_of_parse accepted
    rcases Expr.parse_render_of_whole whole with ⟨few, _⟩ | ⟨_, place, failed⟩
    · exact ⟨whole, few⟩
    · cases accepted.symm.trans failed
  · intro limits
    obtain ⟨whole, few⟩ := limits
    rcases Expr.parse_render_of_whole whole with ⟨_, accepted⟩ | ⟨many, _⟩
    · exact ⟨_, accepted⟩
    · omega
  · intro parsed accepted
    rcases Expr.parse_render_of_whole (Expr.whole_of_parse accepted) with
      ⟨_, read⟩ | ⟨_, place, failed⟩
    · cases read.symm.trans accepted
      refine ⟨rfl, ?_⟩
      rw [evaluate_of_parse read, tree.value_unsigned]
    · cases accepted.symm.trans failed
  · intro whole many
    rcases Expr.parse_render_of_whole whole with ⟨few, _⟩ | ⟨_, place, failed⟩
    · omega
    · exact ⟨_, _, failed⟩

/-- However many of its digits are left out and written as zeros, a whole double without a
sign is scanned as one integer, and that integer is the same double. -/
theorem tokenize_render_literal {value : Float} (unsigned : Number.isNegative value = false)
    (whole : Number.Whole value) :
    tokenize (Expr.literal value).render =
      .ok [⟨.integer value, 0⟩, ⟨.endOfInput, (Expr.literal value).render.utf8ByteSize⟩] := by
  have written : (Expr.literal value).render = Number.text value := by
    rw [Expr.render_literal, Expr.renderLiteral, unsigned]
    rfl
  rw [written]
  exact (Number.spells_text unsigned whole).tokenize_eq

/-- The largest double is written with seventeen digits and 292 zeros. -/
theorem tokenize_render_literal_largest :
    (Expr.literal (Float.ofBits 0x7FEFFFFFFFFFFFFF)).render =
      "17976931348623157" ++ String.ofList (List.replicate 292 '0') ∧
    tokenize (Expr.literal (Float.ofBits 0x7FEFFFFFFFFFFFFF)).render =
      .ok [⟨.integer (Float.ofBits 0x7FEFFFFFFFFFFFFF), 0⟩, ⟨.endOfInput, 309⟩] := by
  have whole : Number.Whole (Float.ofBits 0x7FEFFFFFFFFFFFFF) :=
    Number.whole_iff.mpr ⟨by decide +kernel, Number.Magnitude.whole_of_nonneg (by decide +kernel)⟩
  have written : (Expr.literal (Float.ofBits 0x7FEFFFFFFFFFFFFF)).render =
      "17976931348623157" ++ String.ofList (List.replicate 292 '0') := by decide +kernel
  have size : (Expr.literal (Float.ofBits 0x7FEFFFFFFFFFFFFF)).render.utf8ByteSize = 309 := by
    rw [written]
    decide +kernel
  refine ⟨written, ?_⟩
  rw [← size]
  exact tokenize_render_literal (by decide +kernel) whole

end Reckon
