import Reckon.Proofs.PlainNumbers

namespace Reckon.Number

/-! Different doubles have different texts.

The text of a double that is not whole is a decimal that reads back as it.  None reads
back as two doubles: their intervals share no more than an end, which belongs to the
one of them that has the even significand.
-/

theorem isDigit_of_mem_toDigits {number : Nat} :
    ∀ character ∈ Nat.toDigits 10 number, character.isDigit = true :=
  fun _ member => Nat.isDigit_of_mem_toDigits (by decide) (by decide) member

namespace Decimal

/-- The digits in front of the point and those behind it. -/
theorem toList_text {digits behind : Nat} :
    (Decimal.text ⟨digits, .negSucc behind⟩).toList =
      Nat.toDigits 10 (digits / 10 ^ (behind + 1)) ++
        '.' :: (Nat.toDigits 10 (digits % 10 ^ (behind + 1))).leftpad (behind + 1) '0' := by
  simp [text, Nat.toList_repr]

theorem length_places (digits behind : Nat) :
    ((Nat.toDigits 10 (digits % 10 ^ (behind + 1))).leftpad (behind + 1) '0').length =
      behind + 1 := by
  have bound : digits % 10 ^ (behind + 1) < 10 ^ (behind + 1) :=
    Nat.mod_lt _ (Nat.pow_pos (by decide))
  rw [List.length_leftpad]
  exact Nat.max_eq_left ((Nat.length_toDigits_le_iff (by decide) (Nat.succ_pos behind)).mpr bound)

theorem ofDigitChars_leftpad (count number : Nat) :
    Nat.ofDigitChars 10 ((Nat.toDigits 10 number).leftpad count '0') 0 = number := by
  simp [List.leftpad, Nat.ofDigitChars_append]

theorem takeWhile_toDigits_append (number : Nat) (others : List Char) :
    (Nat.toDigits 10 number ++ '.' :: others).takeWhile Char.isDigit = Nat.toDigits 10 number := by
  rw [List.takeWhile_append_of_pos isDigit_of_mem_toDigits]
  simp [List.takeWhile_cons_of_neg]

theorem text_injective_of_neg {decimal other : Decimal} (fine : decimal.exponent < 0)
    (otherFine : other.exponent < 0) (same : decimal.text = other.text) : decimal = other := by
  obtain ⟨digits, exponent⟩ := decimal
  obtain ⟨otherDigits, otherExponent⟩ := other
  cases exponent with
  | ofNat zeros => exact absurd fine (Int.not_lt.mpr (Int.natCast_nonneg zeros))
  | negSucc behind =>
    cases otherExponent with
    | ofNat zeros => exact absurd otherFine (Int.not_lt.mpr (Int.natCast_nonneg zeros))
    | negSucc otherBehind =>
        have written := congrArg String.toList same
        rw [toList_text, toList_text] at written
        have front := congrArg (List.takeWhile Char.isDigit) written
        rw [takeWhile_toDigits_append, takeWhile_toDigits_append] at front
        rw [front] at written
        have places := (List.cons.inj (List.append_cancel_left written)).2
        have count := congrArg List.length places
        rw [length_places, length_places] at count
        obtain rfl := Nat.succ.inj count
        have whole := congrArg (Nat.ofDigitChars 10 · 0) front
        have rest := congrArg (Nat.ofDigitChars 10 · 0) places
        simp only [Nat.ofDigitChars_ten_toDigits, ofDigitChars_leftpad] at whole rest
        rw [← Nat.div_add_mod digits (10 ^ (behind + 1)), whole, rest, Nat.div_add_mod]

end Decimal

namespace Magnitude

variable {value small large : Magnitude} {decimal : Decimal} {digits : Nat} {grid : Int}

theorem isReadFrom_atOrBelow (positive : 0 < value.significand)
    (onGrid : value.stepSize grid ∣ value.quarters * value.quarterSize grid) :
    value.isReadFrom (value.atOrBelow grid) = true := by
  have quarterPositive := value.quarterSize_pos grid
  have point : (value.atOrBelow grid).digits * value.stepSize grid =
      value.quarters * value.quarterSize grid := Nat.div_mul_cancel onGrid
  have lower : value.lowerQuarters * value.quarterSize grid <
      value.quarters * value.quarterSize grid :=
    Nat.mul_lt_mul_of_pos_right (lowerQuarters_lt positive) quarterPositive
  have upper : value.quarters * value.quarterSize grid <
      value.upperQuarters * value.quarterSize grid :=
    Nat.mul_lt_mul_of_pos_right (Nat.lt_add_of_pos_right (by decide)) quarterPositive
  rw [← point] at lower upper
  exact isReadFrom_iff.mpr ⟨Nat.le_of_lt lower, Nat.le_of_lt upper, fun _ => ⟨lower, upper⟩⟩

/-- Every power of two below one is a whole multiple of the same power of ten. -/
theorem stepSize_dvd (fine : value.exponent ≤ 0) :
    value.stepSize value.exponent ∣ value.quarters * value.quarterSize value.exponent := by
  have tens : 10 ^ (-value.exponent).toNat =
      2 ^ (-value.exponent).toNat * 5 ^ (-value.exponent).toNat := by rw [← Nat.mul_pow]
  have places : (2 - value.exponent).toNat = 2 + (-value.exponent).toNat := by omega
  refine ⟨value.significand * 5 ^ (-value.exponent).toNat, ?_⟩
  rw [stepSize, quarterSize, quarters, tens, places, Int.toNat_of_nonpos fine,
    Int.toNat_of_nonpos (by omega : value.exponent - 2 ≤ 0), Nat.pow_add]
  grind

/-- The search ends on a decimal that reads back, for it would end at last on the grid
that the value lies on. -/
theorem isReadFrom_shortest (positive : 0 < value.significand) (fine : value.exponent ≤ 0) :
    value.isReadFrom value.shortest = true := by
  have exact : value.exactGrid = value.exponent := Int.min_eq_left fine
  have coarser : value.exactGrid ≤ value.coarsestGrid := by
    rw [exact, coarsestGrid]
    split <;> omega
  obtain ⟨steps, _, _, _, result⟩ :=
    value.firstOnGrids_spec (value.coarsestGrid - value.exactGrid).toNat value.coarsestGrid
  rw [shortest, if_neg (Nat.ne_of_gt positive)]
  refine result.resolve_right fun reached => ?_
  obtain ⟨last, missing⟩ := reached
  have lastGrid : value.coarsestGrid - steps = value.exponent := by omega
  rw [lastGrid] at missing
  exact onGrid?_ne_none (isReadFrom_atOrBelow positive (stepSize_dvd fine)) missing

/-- A significand has its leading bit, unless the last place is the least there is. -/
structure Canonical (value : Magnitude) : Prop where
  short : value.significand < 2 ^ (fractionBits + 1)
  least : leastExponent ≤ value.exponent
  normal : leastExponent < value.exponent → 2 ^ fractionBits ≤ value.significand

/-- The last place, measured in the least there is. -/
def lastPlace (value : Magnitude) : Nat := 2 ^ (value.exponent - leastExponent).toNat

theorem quarterSize_mul (value : Magnitude) (quarters : Nat) (grid : Int) :
    quarters * value.lastPlace * 10 ^ (-grid).toNat * 2 ^ (value.exponent - 2).toNat =
      quarters * value.quarterSize grid * value.lastPlace := by
  rw [quarterSize]
  grind

theorem stepSize_mul (least : leastExponent ≤ value.exponent) (digits : Nat) (grid : Int) :
    digits * 10 ^ grid.toNat * 2 ^ (2 - leastExponent).toNat * 2 ^ (value.exponent - 2).toNat =
      digits * value.stepSize grid * value.lastPlace := by
  have powers : 2 ^ (2 - leastExponent).toNat * 2 ^ (value.exponent - 2).toNat =
      2 ^ (2 - value.exponent).toNat * value.lastPlace := by
    rw [lastPlace, ← Nat.pow_add, ← Nat.pow_add]
    congr 1
    rw [leastExponent] at least ⊢
    omega
  rw [Nat.mul_assoc, powers, stepSize]
  grind

/-- Where a decimal lies, measured in a quarter of the least last place. -/
structure Between (value : Magnitude) (point scale : Nat) : Prop where
  lower : value.lowerQuarters * value.lastPlace * scale ≤ point
  upper : point ≤ value.upperQuarters * value.lastPlace * scale
  odd : value.significand % 2 = 1 →
    value.lowerQuarters * value.lastPlace * scale < point ∧
      point < value.upperQuarters * value.lastPlace * scale

theorem between_of_isReadFrom (least : leastExponent ≤ value.exponent)
    (read : value.isReadFrom ⟨digits, grid⟩ = true) :
    value.Between (digits * 10 ^ grid.toNat * 2 ^ (2 - leastExponent).toNat)
      (10 ^ (-grid).toNat) := by
  have positive : 0 < 2 ^ (value.exponent - 2).toNat := Nat.two_pow_pos _
  have placePositive : 0 < value.lastPlace := Nat.two_pow_pos _
  have point := stepSize_mul least digits grid
  have scaled (quarters : Nat) := value.quarterSize_mul quarters grid
  obtain ⟨lower, upper, odd⟩ := isReadFrom_iff.mp read
  exact ⟨le_of_scaled_le positive (scaled _) point lower,
    le_of_scaled_le positive point (scaled _) upper, fun isOdd =>
      ⟨lt_of_scaled_lt placePositive (scaled _) point (odd isOdd).1,
        lt_of_scaled_lt placePositive point (scaled _) (odd isOdd).2⟩⟩

def Precedes (small large : Magnitude) : Prop :=
  small.exponent < large.exponent ∨
    small.exponent = large.exponent ∧ small.significand < large.significand

theorem precedes_or_eq (value other : Magnitude) :
    value.Precedes other ∨ value = other ∨ other.Precedes value := by
  obtain ⟨significand, exponent⟩ := value
  obtain ⟨otherSignificand, otherExponent⟩ := other
  simp only [Precedes, mk.injEq]
  omega

/-- The interval of a smaller magnitude ends where that of a larger one begins, or before
it.  Two that meet do not both have an even significand. -/
theorem Precedes.upper_le_lower (precedes : small.Precedes large) (canonical : small.Canonical)
    (canonicalLarge : large.Canonical) :
    small.upperQuarters * small.lastPlace ≤ large.lowerQuarters * large.lastPlace ∧
    (small.significand % 2 = 0 → large.significand % 2 = 0 →
      small.upperQuarters * small.lastPlace < large.lowerQuarters * large.lastPlace) := by
  have placePositive : 0 < small.lastPlace := Nat.two_pow_pos _
  have short := canonical.short
  have least := canonical.least
  rcases precedes with finer | ⟨same, less⟩
  -- Across a power of two the larger last place is at least twice the smaller one.
  · have above : leastExponent < large.exponent := Int.lt_of_le_of_lt least finer
    have normal := canonicalLarge.normal above
    have coarser : 2 * small.lastPlace ≤ large.lastPlace := by
      rw [lastPlace, lastPlace, Nat.mul_comm, ← Nat.pow_succ]
      exact Nat.pow_le_pow_right (by decide) (by omega)
    have ends : small.upperQuarters ≤ 2 * large.lowerQuarters ∧
        (small.significand % 2 = 0 → small.upperQuarters < 2 * large.lowerQuarters) := by
      rw [upperQuarters, quarters, lowerQuarters, quarters, isNarrowBelow, decide_eq_true above,
        Bool.and_true]
      simp only [fractionBits, beq_iff_eq] at short normal ⊢
      split <;> omega
    have passed :
        2 * large.lowerQuarters * small.lastPlace ≤ large.lowerQuarters * large.lastPlace := by
      rw [Nat.mul_comm 2, Nat.mul_assoc]
      exact Nat.mul_le_mul_left _ coarser
    exact ⟨Nat.le_trans (Nat.mul_le_mul_right _ ends.1) passed, fun isEven _ =>
      Nat.lt_of_lt_of_le (Nat.mul_lt_mul_of_pos_right (ends.2 isEven) placePositive) passed⟩
  · have ends : small.upperQuarters ≤ large.lowerQuarters ∧
        (small.significand % 2 = 0 → large.significand % 2 = 0 →
          small.upperQuarters < large.lowerQuarters) := by
      rw [upperQuarters, quarters, lowerQuarters, quarters]
      split <;> omega
    rw [show large.lastPlace = small.lastPlace by rw [lastPlace, lastPlace, same]]
    exact ⟨Nat.mul_le_mul_right _ ends.1, fun isEven isEvenLarge =>
      Nat.mul_lt_mul_of_pos_right (ends.2 isEven isEvenLarge) placePositive⟩

theorem Precedes.not_between {point scale : Nat} (precedes : small.Precedes large)
    (canonical : small.Canonical) (canonicalLarge : large.Canonical) (positive : 0 < scale)
    (between : small.Between point scale) : ¬ large.Between point scale := by
  intro betweenLarge
  obtain ⟨meets, apart⟩ := precedes.upper_le_lower canonical canonicalLarge
  have scaled := Nat.mul_le_mul_right scale meets
  have upper := between.upper
  have lower := betweenLarge.lower
  rcases Nat.mod_two_eq_zero_or_one small.significand with isEven | isOdd
  · rcases Nat.mod_two_eq_zero_or_one large.significand with isEvenLarge | isOddLarge
    · have strict := Nat.mul_lt_mul_of_pos_right (apart isEven isEvenLarge) positive
      omega
    · have strict := (betweenLarge.odd isOddLarge).1
      omega
  · have strict := (between.odd isOdd).2
    omega

/-- No decimal reads back as two doubles. -/
theorem eq_of_isReadFrom {other : Magnitude} (canonical : value.Canonical)
    (canonicalOther : other.Canonical) (read : value.isReadFrom decimal = true)
    (readOther : other.isReadFrom decimal = true) : value = other := by
  obtain ⟨digits, grid⟩ := decimal
  have positive : 0 < 10 ^ (-grid).toNat := Nat.pow_pos (by decide)
  have between := between_of_isReadFrom canonical.least read
  have betweenOther := between_of_isReadFrom canonicalOther.least readOther
  rcases precedes_or_eq value other with precedes | same | precedes
  · exact absurd betweenOther (precedes.not_between canonical canonicalOther positive between)
  · exact same
  · exact absurd between (precedes.not_between canonicalOther canonical positive betweenOther)

end Magnitude

section Doubles

variable {value other : Float}

theorem canonical_magnitude (value : Float) : (magnitude value).Canonical := by
  refine ⟨magnitude_significand_lt value, leastExponent_le_magnitude_exponent value,
    fun above => ?_⟩
  obtain ⟨field, _, same⟩ := normal_of_leastExponent_lt above
  rw [same]
  exact Nat.le_add_right _ _

/-- A finite double is its sign and its magnitude. -/
theorem fields_eq_of_magnitude_eq (same : magnitude value = magnitude other) :
    exponentField value = exponentField other ∧ fractionField value = fractionField other := by
  have bound := fractionField_lt value
  have otherBound := fractionField_lt other
  rw [magnitude, magnitude] at same
  split at same <;> split at same <;> simp only [Magnitude.mk.injEq] at same <;> omega

theorem eq_of_fields (positive : isNegative value = false)
    (otherPositive : isNegative other = false)
    (exponent : exponentField value = exponentField other)
    (fraction : fractionField value = fractionField other) : value = other := by
  rw [← ofBits_toBits value, ← ofBits_toBits other]
  congr 1
  apply UInt64.toNat_inj.mp
  rw [toNat_toBits_of_not_isNegative positive, toNat_toBits_of_not_isNegative otherPositive,
    exponent, fraction]

/-- The text of a number without a sign bit, and how it tells the number. -/
inductive Shown (value : Float) : String → Prop where
  | infinite (top : exponentField value = topExponentField) (cleared : fractionField value = 0) :
      Shown value "inf"
  | whole {number : Nat} (same : nearest number = value) : Shown value (Nat.repr number)
  | parted {digits behind : Nat}
      (read : (magnitude value).isReadFrom ⟨digits, .negSucc behind⟩ = true) :
      Shown value (Decimal.text ⟨digits, .negSucc behind⟩)

theorem Plain.shown (plain : Plain value) : Shown value (text value) := by
  obtain ⟨positive, number⟩ := plain
  by_cases whole : Whole value
  · obtain ⟨number, written, same⟩ := text_of_whole positive whole
    rw [written]
    exact .whole same
  rw [view, positive] at number
  rw [text, view, positive]
  by_cases top : exponentField value = topExponentField
  · by_cases cleared : fractionField value = 0
    · rw [if_pos top, if_pos cleared]
      exact .infinite top cleared
    · rw [if_pos top, if_neg cleared] at number
      exact absurd rfl number
  · have broken : ¬ (magnitude value).Whole := fun equal => whole (whole_iff.mpr ⟨top, equal⟩)
    have fine : (magnitude value).exponent < 0 :=
      Int.not_le.mp fun coarse => broken (Magnitude.whole_of_nonneg coarse)
    have nonzero : (magnitude value).significand ≠ 0 := by
      intro zero
      exact broken ⟨0, by rw [zero, Nat.zero_mul, Nat.zero_mul]⟩
    have read := Magnitude.isReadFrom_shortest (Nat.pos_of_ne_zero nonzero) (Int.le_of_lt fine)
    have places := Magnitude.shortest_of_not_whole broken
    rw [if_neg top, View.text, signText, if_neg Bool.false_ne_true, String.empty_append]
    generalize (magnitude value).shortest = decimal at read places ⊢
    obtain ⟨digits, exponent⟩ := decimal
    cases exponent with
    | ofNat zeros => exact absurd places (Int.not_lt.mpr (Int.natCast_nonneg zeros))
    | negSucc behind => exact .parted read

/-- The characters that numbers without a sign bit are written with. -/
def isNumeral (character : Char) : Bool := character.isDigit || "inf.".toList.contains character

theorem isNumeral_of_mem_toDigits {number : Nat} {character : Char}
    (member : character ∈ Nat.toDigits 10 number) : isNumeral character = true := by
  simp [isNumeral, isDigit_of_mem_toDigits character member]

theorem Shown.numerals {shown : String} (shows : Shown value shown) :
    shown.toList ≠ [] ∧ ∀ character ∈ shown.toList, isNumeral character = true := by
  cases shows with
  | infinite top cleared =>
      refine ⟨by simp, fun character member => ?_⟩
      have letter : character = 'i' ∨ character = 'n' ∨ character = 'f' := by simpa using member
      rcases letter with rfl | rfl | rfl <;> rfl
  | whole same =>
      rw [Nat.toList_repr]
      exact ⟨Nat.toDigits_ne_nil, fun character member => isNumeral_of_mem_toDigits member⟩
  | parted read =>
      rw [Decimal.toList_text]
      refine ⟨by simp, fun character member => ?_⟩
      rcases List.mem_append.mp member with front | member
      · exact isNumeral_of_mem_toDigits front
      rcases List.mem_cons.mp member with rfl | behind
      · rfl
      rcases List.mem_append.mp behind with padding | places
      · rw [List.eq_of_mem_replicate padding]
        rfl
      · exact isNumeral_of_mem_toDigits places

/-- What stands behind the first digits of a text. -/
def mark (text : String) : Option Char := (text.toList.dropWhile Char.isDigit).head?

@[simp] theorem mark_inf : mark "inf" = some 'i' := rfl

@[simp] theorem mark_repr (number : Nat) : mark (Nat.repr number) = none := by
  have run := @List.dropWhile_append_of_pos _ _ _ [] (@isDigit_of_mem_toDigits number)
  rw [mark, Nat.toList_repr, ← List.append_nil (Nat.toDigits 10 number), run]
  rfl

@[simp] theorem mark_text (digits behind : Nat) :
    mark (Decimal.text ⟨digits, .negSucc behind⟩) = some '.' := by
  rw [mark, Decimal.toList_text, List.dropWhile_append_of_pos isDigit_of_mem_toDigits,
    List.dropWhile_cons_of_neg (by decide)]
  rfl

/-- A text shows no more than one number without a sign bit. -/
theorem Shown.unique {shown otherShown : String} (shows : Shown value shown)
    (otherShows : Shown other otherShown) (same : shown = otherShown)
    (positive : isNegative value = false) (otherPositive : isNegative other = false) :
    value = other := by
  have marks := congrArg mark same
  cases shows with
  | infinite top cleared =>
      cases otherShows with
      | infinite otherTop otherCleared =>
          exact eq_of_fields positive otherPositive (top.trans otherTop.symm)
            (cleared.trans otherCleared.symm)
      | whole _ => simp at marks
      | parted _ => simp at marks
  | @whole number equal =>
      cases otherShows with
      | infinite _ _ => simp at marks
      | @whole otherNumber otherEqual =>
          have digits := congrArg (fun text => Nat.ofDigitChars 10 text.toList 0) same
          simp only [Nat.toList_repr, Nat.ofDigitChars_ten_toDigits] at digits
          rw [← equal, ← otherEqual, digits]
      | parted _ => simp at marks
  | parted read =>
      cases otherShows with
      | infinite _ _ => simp at marks
      | whole _ => simp at marks
      | parted otherRead =>
          have fine (behind : Nat) : Int.negSucc behind < 0 := Int.negSucc_lt_zero behind
          have decimals := Decimal.text_injective_of_neg (fine _) (fine _) same
          rw [← decimals] at otherRead
          have magnitudes := Magnitude.eq_of_isReadFrom (canonical_magnitude value)
            (canonical_magnitude other) read otherRead
          obtain ⟨exponent, fraction⟩ := fields_eq_of_magnitude_eq magnitudes
          exact eq_of_fields positive otherPositive exponent fraction

/-- Different numbers without a sign bit have different texts. -/
theorem Plain.text_injective (plain : Plain value) (otherPlain : Plain other)
    (same : text value = text other) : value = other :=
  plain.shown.unique otherPlain.shown same plain.1 otherPlain.1

end Doubles

end Reckon.Number
