import Reckon.Proofs.Exactness
import Reckon.Proofs.Literals

namespace Reckon

/-! Integers are computed exactly.

A run of digits denotes a natural number, so that a tree without division has a value
over the integers.  The double that it is evaluated to is that value, as long as no part
of the tree is worth more than `2 ^ 53`, up to which all integers are doubles.
-/

/-- The numbers that the runs of digits of a text denote. -/
def numbers (text : List Char) : List Nat :=
  ((text.splitOnP (!·.isDigit)).filter (· ≠ [])).map (Nat.ofDigitChars 10 · 0)

section Numbers

variable {character : Char} {digits rest : List Char}

@[simp] theorem numbers_nil : numbers [] = [] := rfl

theorem numbers_cons (other : character.isDigit = false) :
    numbers (character :: rest) = numbers rest := by
  have empty : ∀ digit ∈ ([] : List Char), (!digit.isDigit) = false := nofun
  have split := List.splitOnP_append_cons_of_forall_mem empty character (by simp [other]) rest
  rw [List.nil_append] at split
  rw [numbers, split]
  rfl

theorem numbers_spaces (count : Nat) :
    numbers (List.replicate count ' ' ++ rest) = numbers rest := by
  induction count with
  | zero => rfl
  | succ count ih => exact (numbers_cons rfl).trans ih

theorem numbers_blank (count : Nat) : numbers (List.replicate count ' ') = [] := by
  rw [← List.append_nil (List.replicate count ' '), numbers_spaces, numbers_nil]

theorem numbers_digits (nonempty : digits ≠ [])
    (all : ∀ character ∈ digits, character.isDigit = true) (plain : startsDigit rest = false) :
    numbers (digits ++ rest) = Nat.ofDigitChars 10 digits 0 :: numbers rest := by
  have inside : ∀ character ∈ digits, (!character.isDigit) = false := by simpa using all
  cases rest with
  | nil =>
      rw [numbers, List.append_nil, List.splitOnP_eq_singleton inside]
      simp [nonempty]
  | cons character others =>
      have other : character.isDigit = false := by simpa [startsDigit] using plain
      rw [numbers_cons other, numbers, List.splitOnP_append_cons_of_forall_mem inside character
        (by simp [other])]
      simp [nonempty, numbers]

end Numbers

theorem Scanner.Step.map_nearest_numbers {scanner behind : Scanner} {lexeme : Lexeme}
    (step : Step scanner (.ok lexeme) behind) :
    (numbers scanner.rest).map Number.nearest =
      integers [lexeme.token] ++ (numbers behind.rest).map Number.nearest := by
  cases step with
  | ended split =>
      rw [split, numbers_blank]
      rfl
  | @token count token piece rest split spelled apart =>
      rw [split, numbers_spaces]
      cases spelled with
      | integer nonempty all =>
          have plain : startsDigit rest = false := by
            simpa [Apart, endsDigit_of_all nonempty all] using apart
          rw [numbers_digits nonempty all plain]
          rfl
      | @symbol character _ spelled =>
          have other : token.number? = none := by
            cases token with
            | integer value => exact absurd rfl (Token.kind_of_ofSymbol? spelled).1
            | _ => rfl
          rw [List.singleton_append, numbers_cons (plain_of_ofSymbol? spelled).2.1, integers,
            List.filterMap_cons_none other]
          rfl

/-- The integers that are read are the numbers of the text, rounded. -/
theorem Cursor.Reads.integers_eq {scanner : Scanner} {cursor stop : Cursor} {taken : List Lexeme}
    (started : Cursor.ofScanner scanner = .ok cursor) (read : cursor.Reads taken stop)
    (ended : stop.lookahead.token = .endOfInput) :
    integers (words taken) = (numbers scanner.rest).map Number.nearest := by
  induction read generalizing scanner with
  | nil cursor =>
      have step := Cursor.step_of_ofScanner started
      obtain ⟨⟨token, place⟩, behind⟩ := cursor
      cases ended
      cases step with
      | ended split =>
          rw [split, numbers_blank]
          rfl
      | token split spelled _ => exact absurd rfl spelled.ne_endOfInput
  | @cons cursor following stop taken more pulled rest ih =>
      rw [(Cursor.step_of_ofScanner started).map_nearest_numbers, ← ih pulled ended]
      exact @integers_append [cursor.lookahead.token] (words taken)

theorem map_nearest_numbers_of_parse {text : String} {tree : Expr}
    (accepted : parse .strict text = .ok tree) :
    tree.literals = (numbers text.toList).map Number.nearest := by
  obtain ⟨cursor, taken, stop, depths, started, read, ended, derived, _⟩ :=
    reads_of_parse_strict accepted
  rw [derived.literals_eq, read.integers_eq started ended]
  rfl

/-- What an operator does to integers. -/
def UnaryOp.exact : UnaryOp → Int → Int
  | .plus, operand => operand
  | .negate, operand => -operand

/-- What an operator does to integers.  A quotient need not be one, and is left out. -/
def BinaryOp.exact : BinaryOp → Int → Int → Int
  | .add, left, right => left + right
  | .subtract, left, right => left - right
  | .multiply, left, right => left * right
  | .divide, _, _ => 0

namespace Expr

/-- The value of a tree over the integers, where its literals are the given numbers. -/
def exact : Expr → List Nat → Int
  | .literal _, numbers => numbers.headD 0
  | .unary op operand, numbers => op.exact (operand.exact numbers)
  | .binary op left right, numbers =>
      op.exact (left.exact (numbers.take left.literals.length))
        (right.exact (numbers.drop left.literals.length))

/-- Whether nothing is divided in a tree. -/
def undivided : Expr → Bool
  | .literal _ => true
  | .unary _ operand => operand.undivided
  | .binary op left right => op != .divide && left.undivided && right.undivided

/-- The parts of a tree, the tree itself being one, with the numbers that belong to each. -/
def parts (tree : Expr) (numbers : List Nat) : List (Expr × List Nat) :=
  (tree, numbers) ::
    match tree with
    | .literal _ => []
    | .unary _ operand => operand.parts numbers
    | .binary _ left right =>
        left.parts (numbers.take left.literals.length) ++
          right.parts (numbers.drop left.literals.length)

theorem mem_parts (tree : Expr) (numbers : List Nat) : (tree, numbers) ∈ tree.parts numbers := by
  cases tree <;> exact List.mem_cons_self

end Expr

section Operators

variable {value other : Float} {number another : Int}

theorem UnaryOp.toRat?_apply (op : UnaryOp) (known : Number.toRat? value = some (number : Rat)) :
    Number.toRat? (op.apply value) = some (op.exact number : Rat) := by
  cases op with
  | plus => exact known
  | negate => exact Number.toRat?_neg known

theorem BinaryOp.toRat?_apply {op : BinaryOp} (undivided : op ≠ .divide)
    (first : Number.toRat? value = some (number : Rat))
    (second : Number.toRat? other = some (another : Rat))
    (small : (op.exact number another).natAbs ≤ 2 ^ 53) :
    Number.toRat? (op.apply value other) = some (op.exact number another : Rat) := by
  cases op with
  | add => exact Number.toRat?_add first second small
  | subtract => exact Number.toRat?_sub first second small
  | multiply => exact Number.toRat?_mul first second small
  | divide => exact absurd rfl undivided

end Operators

/-- The doubles follow the integers, from the literals up. -/
theorem Expr.toRat?_value {tree : Expr} {numbers : List Nat}
    (denoted : tree.literals = numbers.map Number.nearest) (undivided : tree.undivided = true)
    (small : ∀ part ∈ tree.parts numbers, (part.1.exact part.2).natAbs ≤ 2 ^ 53) :
    Number.toRat? tree.value = some (tree.exact numbers : Rat) := by
  induction tree generalizing numbers with
  | literal value =>
      obtain ⟨number, others, rfl, rfl, nothing⟩ := List.map_eq_cons_iff.mp denoted.symm
      exact (Number.roundsTo_nearest number).exact (small _ (mem_parts _ _))
  | unary op operand ih =>
      have inner := fun part member => small part (List.mem_cons_of_mem _ member)
      exact op.toRat?_apply (ih denoted undivided inner)
  | binary op left right leftIH rightIH =>
      obtain ⟨⟨divides, leftUndivided⟩, rightUndivided⟩ :
          (op ≠ .divide ∧ left.undivided = true) ∧ right.undivided = true := by
        simpa [Expr.undivided] using undivided
      have leftDenoted : left.literals =
          (numbers.take left.literals.length).map Number.nearest := by
        rw [List.map_take, ← denoted, literals, List.take_left]
      have rightDenoted : right.literals =
          (numbers.drop left.literals.length).map Number.nearest := by
        rw [List.map_drop, ← denoted, literals, List.drop_left]
      have inner := fun part member => small part (List.mem_cons_of_mem _ member)
      have leftSmall := fun part member => inner part (List.mem_append_left _ member)
      have rightSmall := fun part member => inner part (List.mem_append_right _ member)
      exact BinaryOp.toRat?_apply divides
        (leftIH leftDenoted leftUndivided leftSmall)
        (rightIH rightDenoted rightUndivided rightSmall) (small _ (mem_parts _ _))

/-- What is evaluated of integers, without division, is their exact value, where no part of
the tree is worth more than `2 ^ 53`, be it a literal, the whole tree or between them. -/
theorem integers_computed_exactly {text : String} {tree : Expr}
    (accepted : parse .strict text = .ok tree) (undivided : tree.undivided = true)
    (small : ∀ part ∈ tree.parts (numbers text.toList), (part.1.exact part.2).natAbs ≤ 2 ^ 53) :
    ∃ value, evaluate .strict text = .ok value ∧
      Number.toRat? value = some (tree.exact (numbers text.toList) : Rat) :=
  ⟨tree.value, evaluate_of_parse accepted,
    Expr.toRat?_value (map_nearest_numbers_of_parse accepted) undivided small⟩

/-- With a negative zero on the way. -/
theorem integers_computed_exactly_zero :
    ∃ value, evaluate .strict "-(3-3)*9007199254740992+-07" = .ok value ∧
      Number.toRat? value = some (-7) := by
  have accepted : parse .strict "-(3-3)*9007199254740992+-07" =
      .ok (.binary .add
        (.binary .multiply
          (.unary .negate
            (.binary .subtract (.literal (Number.nearest 3)) (.literal (Number.nearest 3))))
          (.literal (Number.nearest 9007199254740992)))
        (.unary .negate (.literal (Number.nearest 7)))) := by
    decide +kernel
  exact integers_computed_exactly accepted rfl (by decide +kernel)

end Reckon
