import Reckon.Proofs.Literals
import Reckon.Proofs.NumberTexts

namespace Reckon

/-! Telling trees apart by their text.

The text of a tree ends where it must, whatever stands behind it: a number goes on as
far as its characters do, and an operation to its own closing parenthesis.  So no more
than one tree begins a text, however tall, and its literals need not be integers.
-/

theorem UnaryOp.symbol_append_injective {rest otherRest : List Char} (op : UnaryOp)
    {other : UnaryOp}
    (same : op.symbol.toList ++ rest = other.symbol.toList ++ otherRest) :
    op = other ∧ rest = otherRest := by
  cases op <;> cases other <;> simp_all [symbol]

theorem BinaryOp.symbol_append_injective {rest otherRest : List Char} (op : BinaryOp)
    {other : BinaryOp}
    (same : op.symbol.toList ++ rest = other.symbol.toList ++ otherRest) :
    op = other ∧ rest = otherRest := by
  cases op <;> cases other <;> simp_all [symbol]

namespace Expr

/-- Trees are equal as their numbers are, which are the same where they are plain. -/
theorem equal_iff_eq {tree other : Expr} (plain : tree.Plain) (otherPlain : other.Plain) :
    tree.equal other = true ↔ tree = other := by
  induction tree generalizing other with
  | literal value =>
      cases other with
      | literal number =>
          simpa [equal] using (every_literal.mp plain).beq_iff_eq (every_literal.mp otherPlain)
      | unary => simp [equal]
      | binary => simp [equal]
  | unary op operand ih =>
      cases other with
      | literal => simp [equal]
      | unary otherOp otherOperand =>
          simp [equal, ih (every_unary.mp plain) (every_unary.mp otherPlain)]
      | binary => simp [equal]
  | binary op left right leftIH rightIH =>
      obtain ⟨leftPlain, rightPlain⟩ := every_binary.mp plain
      cases other with
      | literal => simp [equal]
      | unary => simp [equal]
      | binary otherOp otherLeft otherRight =>
          obtain ⟨otherLeftPlain, otherRightPlain⟩ := every_binary.mp otherPlain
          simp [equal, leftIH leftPlain otherLeftPlain, rightIH rightPlain otherRightPlain,
            and_assoc]

variable {tree other operand : Expr} {value number : Float} {rest otherRest : List Char}

theorem toList_render_literal (plain : Number.Plain value) :
    (literal value).render.toList = (Number.text value).toList := by
  rw [render_literal, renderLiteral, plain.1, if_neg Bool.false_ne_true]

def startsNumeral (text : List Char) : Bool := text.head?.any Number.isNumeral

theorem takeWhile_isNumeral (plain : Number.Plain value) (apart : startsNumeral rest = false) :
    ((Number.text value).toList ++ rest).takeWhile Number.isNumeral =
      (Number.text value).toList := by
  rw [List.takeWhile_append_of_pos plain.shown.numerals.2]
  cases rest with
  | nil => simp
  | cons first others =>
      have ended : Number.isNumeral first = false := by simpa [startsNumeral] using apart
      simp [ended]

theorem text_append_injective (plain : Number.Plain value) (otherPlain : Number.Plain number)
    (apart : startsNumeral rest = false) (otherApart : startsNumeral otherRest = false)
    (same : (Number.text value).toList ++ rest = (Number.text number).toList ++ otherRest) :
    value = number ∧ rest = otherRest := by
  have front := congrArg (List.takeWhile Number.isNumeral) same
  rw [takeWhile_isNumeral plain apart, takeWhile_isNumeral otherPlain otherApart] at front
  rw [front] at same
  exact ⟨plain.text_injective otherPlain (String.toList_inj.mp front), List.append_cancel_left same⟩

theorem startsNumeral_text_append (plain : Number.Plain value) (rest : List Char) :
    startsNumeral ((Number.text value).toList ++ rest) = true := by
  obtain ⟨nonempty, all⟩ := plain.shown.numerals
  obtain ⟨first, others, split⟩ := List.exists_cons_of_ne_nil nonempty
  rw [split] at all ⊢
  exact all first List.mem_cons_self

theorem text_append_ne_paren (plain : Number.Plain value) :
    (Number.text value).toList ++ rest ≠ '(' :: otherRest := by
  intro same
  have numeral := startsNumeral_text_append plain rest
  rw [same] at numeral
  exact absurd numeral (by simp [startsNumeral, Number.isNumeral])

theorem toList_render_unary (op : UnaryOp) (operand : Expr) (rest : List Char) :
    (unary op operand).render.toList ++ rest =
      '(' :: (op.symbol.toList ++ (operand.render.toList ++ ')' :: rest)) := by
  simp

theorem toList_render_binary (op : BinaryOp) (left right : Expr) (rest : List Char) :
    (binary op left right).render.toList ++ rest =
      '(' :: (left.render.toList ++
        ' ' :: (op.symbol.toList ++ ' ' :: (right.render.toList ++ ')' :: rest))) := by
  simp

/-- A sign behind a parenthesis is not the front of a left operand. -/
theorem symbol_append_ne_render (plain : tree.Plain) (op : UnaryOp) :
    op.symbol.toList ++ otherRest ≠ tree.render.toList ++ rest := by
  intro same
  cases tree with
  | literal value =>
      have plainValue := every_literal.mp plain
      have numeral := startsNumeral_text_append plainValue rest
      rw [← toList_render_literal plainValue, ← same] at numeral
      revert numeral
      cases op <;> simp [UnaryOp.symbol, startsNumeral, Number.isNumeral]
  | unary otherOp operand =>
      rw [toList_render_unary] at same
      cases op <;> simp [UnaryOp.symbol] at same
  | binary joint left right =>
      rw [toList_render_binary] at same
      cases op <;> simp [UnaryOp.symbol] at same

/-- A tree can be told from the front of a text that goes on otherwise than a number. -/
theorem render_append_injective (plain : tree.Plain) (otherPlain : other.Plain)
    (apart : startsNumeral rest = false) (otherApart : startsNumeral otherRest = false)
    (same : tree.render.toList ++ rest = other.render.toList ++ otherRest) :
    tree = other ∧ rest = otherRest := by
  induction tree generalizing other rest otherRest with
  | literal value =>
      have plainValue := every_literal.mp plain
      rw [toList_render_literal plainValue] at same
      cases other with
      | literal number =>
          have plainNumber := every_literal.mp otherPlain
          rw [toList_render_literal plainNumber] at same
          obtain ⟨rfl, behind⟩ := text_append_injective plainValue plainNumber apart otherApart same
          exact ⟨rfl, behind⟩
      | unary otherOp otherOperand =>
          rw [toList_render_unary] at same
          exact absurd same (text_append_ne_paren plainValue)
      | binary otherOp otherLeft otherRight =>
          rw [toList_render_binary] at same
          exact absurd same (text_append_ne_paren plainValue)
  | unary op operand ih =>
      rw [toList_render_unary] at same
      cases other with
      | literal number =>
          have plainNumber := every_literal.mp otherPlain
          rw [toList_render_literal plainNumber] at same
          exact absurd same.symm (text_append_ne_paren plainNumber)
      | unary otherOp otherOperand =>
          rw [toList_render_unary] at same
          obtain ⟨rfl, inner⟩ := op.symbol_append_injective (List.cons.inj same).2
          obtain ⟨rfl, closed⟩ := ih plain (every_unary.mp otherPlain) rfl rfl inner
          exact ⟨rfl, (List.cons.inj closed).2⟩
      | binary otherOp otherLeft otherRight =>
          rw [toList_render_binary] at same
          have otherLeftPlain := (every_binary.mp otherPlain).1
          exact absurd (List.cons.inj same).2 (symbol_append_ne_render otherLeftPlain op)
  | binary op left right leftIH rightIH =>
      rw [toList_render_binary] at same
      obtain ⟨leftPlain, rightPlain⟩ := every_binary.mp plain
      cases other with
      | literal number =>
          have plainNumber := every_literal.mp otherPlain
          rw [toList_render_literal plainNumber] at same
          exact absurd same.symm (text_append_ne_paren plainNumber)
      | unary otherOp otherOperand =>
          rw [toList_render_unary] at same
          exact absurd (List.cons.inj same).2.symm (symbol_append_ne_render leftPlain otherOp)
      | binary otherOp otherLeft otherRight =>
          obtain ⟨otherLeftPlain, otherRightPlain⟩ := every_binary.mp otherPlain
          rw [toList_render_binary] at same
          obtain ⟨rfl, behindLeft⟩ := leftIH leftPlain otherLeftPlain rfl rfl (List.cons.inj same).2
          obtain ⟨rfl, spaced⟩ := op.symbol_append_injective (List.cons.inj behindLeft).2
          obtain ⟨rfl, closed⟩ :=
            rightIH rightPlain otherRightPlain rfl rfl (List.cons.inj spaced).2
          exact ⟨rfl, (List.cons.inj closed).2⟩

theorem render_injective (plain : tree.Plain) (otherPlain : other.Plain)
    (same : tree.render = other.render) : tree = other := by
  have texts := congrArg (fun text => text.toList ++ []) same
  exact (render_append_injective plain otherPlain rfl rfl texts).1

end Expr

/-- Trees whose literals are numbers without a sign bit, as are those of every tree that
was read, have the same text exactly if they are equal, and then the same value. -/
theorem render_eq_iff_equal :
    (∀ mode text tree, parse mode text = .ok tree → tree.Plain) ∧
    ∀ tree other : Expr, tree.Plain → other.Plain →
      (tree.render = other.render ↔ tree.equal other = true) ∧
      (tree.equal other = true → tree.value = other.value) := by
  refine ⟨fun mode text tree accepted => Expr.plain_of_parse accepted, ?_⟩
  intro tree other plain otherPlain
  have equal := Expr.equal_iff_eq plain otherPlain
  refine ⟨⟨fun same => equal.mpr (Expr.render_injective plain otherPlain same), fun alike => ?_⟩,
    fun alike => congrArg Expr.value (equal.mp alike)⟩
  rw [equal.mp alike]

def difference : Expr :=
  .binary .subtract (.literal (Number.nearest 1)) (.literal (Number.nearest 2))

def sumWithNegation : Expr :=
  .binary .add (.literal (Number.nearest 1)) (.unary .negate (.literal (Number.nearest 2)))

theorem render_eq_iff_equal_difference :
    difference.Plain ∧ sumWithNegation.Plain ∧ difference.value = sumWithNegation.value ∧
      difference.render ≠ sumWithNegation.render := by
  have plain : difference.Plain := by simp [difference, Number.plain_nearest]
  have otherPlain : sumWithNegation.Plain := by simp [sumWithNegation, Number.plain_nearest]
  refine ⟨plain, otherPlain, by decide +kernel, fun same => ?_⟩
  exact Bool.false_ne_true ((render_eq_iff_equal.2 _ _ plain otherPlain).1.mp same)

end Reckon
