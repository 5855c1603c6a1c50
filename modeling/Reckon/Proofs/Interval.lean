import Reckon.Number.Nearest
import Reckon.Number.Shortest
import Reckon.Proofs.Fields

namespace Reckon.Number

/-! The interval of a double, as it is tested for a decimal, and rounding.

Every whole number of the interval rounds to the double.  Only one does where the
last place is no more than one; elsewhere the interval reaches half a place to
both sides, and to a quarter below a power of two.
-/

section Scaling

variable {small large scaledSmall scaledLarge unit scaledUnit : Nat}

theorem le_of_scaled_le (positive : 0 < unit) (smallSame : small * unit = scaledSmall * scaledUnit)
    (largeSame : large * unit = scaledLarge * scaledUnit) (le : scaledSmall ≤ scaledLarge) :
    small ≤ large := by
  apply Nat.le_of_mul_le_mul_right _ positive
  rw [smallSame, largeSame]
  exact Nat.mul_le_mul_right scaledUnit le

theorem lt_of_scaled_lt (positive : 0 < scaledUnit)
    (smallSame : small * unit = scaledSmall * scaledUnit)
    (largeSame : large * unit = scaledLarge * scaledUnit) (lt : scaledSmall < scaledLarge) :
    small < large := by
  apply Nat.lt_of_mul_lt_mul_right (a := unit)
  rw [smallSame, largeSame]
  exact Nat.mul_lt_mul_of_pos_right lt positive

end Scaling

/-- A whole number at most half a unit away from a quotient, and less where it is odd. -/
structure IsNearest (dividend divisor whole : Nat) : Prop where
  lower : 2 * (whole * divisor) ≤ 2 * dividend + divisor
  upper : 2 * dividend ≤ 2 * (whole * divisor) + divisor
  odd : whole % 2 = 1 →
    2 * (whole * divisor) < 2 * dividend + divisor ∧ 2 * dividend < 2 * (whole * divisor) + divisor

namespace IsNearest

variable {dividend divisor scaled unit whole : Nat}

theorem of_balance (nearest : IsNearest scaled unit whole) (positive : 0 < divisor)
    (unitPositive : 0 < unit) (balance : dividend * unit = scaled * divisor) :
    IsNearest dividend divisor whole := by
  have point : 2 * (whole * divisor) * unit = 2 * (whole * unit) * divisor := by grind
  have pointAbove : (2 * (whole * divisor) + divisor) * unit =
      (2 * (whole * unit) + unit) * divisor := by grind
  have value : 2 * dividend * unit = 2 * scaled * divisor := by
    rw [Nat.mul_assoc, balance, Nat.mul_assoc]
  have valueAbove : (2 * dividend + divisor) * unit = (2 * scaled + unit) * divisor := by
    rw [Nat.add_mul, value]
    grind
  refine ⟨le_of_scaled_le unitPositive point valueAbove nearest.lower,
    le_of_scaled_le unitPositive value pointAbove nearest.upper, fun isOdd => ?_⟩
  obtain ⟨above, below⟩ := nearest.odd isOdd
  exact ⟨lt_of_scaled_lt positive point valueAbove above,
    lt_of_scaled_lt positive value pointAbove below⟩

theorem divideToNearest_eq (nearest : IsNearest dividend divisor whole) (positive : 0 < divisor) :
    divideToNearest dividend divisor = whole := by
  obtain ⟨lower, upper, odd⟩ := nearest
  have division := Nat.div_add_mod dividend divisor
  have remainder := Nat.mod_lt dividend positive
  rw [divideToNearest]
  generalize dividend / divisor = quotient at division ⊢
  generalize dividend % divisor = rest at division remainder ⊢
  rw [Nat.mul_comm divisor] at division
  rcases Nat.lt_trichotomy whole quotient with below | same | above
  · have next := Nat.mul_le_mul_right divisor below
    rw [Nat.succ_mul] at next
    omega
  · subst same
    rw [if_pos (by omega)]
  · have next : whole = quotient + 1 := by
      apply Nat.le_antisymm _ above
      apply Nat.le_of_not_lt
      intro beyond
      have further := Nat.mul_le_mul_right divisor beyond
      rw [Nat.succ_mul, Nat.succ_mul] at further
      omega
    subst next
    rw [Nat.succ_mul quotient divisor] at lower upper odd
    rw [if_neg (by omega)]

end IsNearest

namespace Magnitude

variable {value : Magnitude} {number : Nat}

def unit (value : Magnitude) : Nat := 2 ^ value.exponent.toNat

def parts (value : Magnitude) : Nat := 2 ^ (-value.exponent).toNat

theorem unit_pos (value : Magnitude) : 0 < value.unit := Nat.two_pow_pos _

theorem parts_pos (value : Magnitude) : 0 < value.parts := Nat.two_pow_pos _

theorem unit_of_nonpos (fine : value.exponent ≤ 0) : value.unit = 1 := by
  rw [unit, Int.toNat_of_nonpos fine, Nat.pow_zero]

/-- The magnitude is `significand * unit / parts`; it is whole where that is a natural number. -/
def Whole (value : Magnitude) : Prop :=
  ∃ number, number * value.parts = value.significand * value.unit

/-- A whole number lies in the interval of a magnitude, its ends included where the
significand is even. -/
structure Surrounds (value : Magnitude) (number : Nat) : Prop where
  lower : value.lowerQuarters * value.unit ≤ 4 * (number * value.parts)
  upper : 4 * (number * value.parts) ≤ value.upperQuarters * value.unit
  odd : value.significand % 2 = 1 → value.lowerQuarters * value.unit < 4 * (number * value.parts) ∧
    4 * (number * value.parts) < value.upperQuarters * value.unit

/-- Steps and quarters of the last place, measured in parts and units. -/
theorem stepSize_mul_unit (value : Magnitude) (zeros : Nat) :
    value.stepSize zeros * value.unit =
      4 * (10 ^ zeros * value.parts) * value.quarterSize zeros := by
  have powers : 2 ^ (2 - value.exponent).toNat * value.unit =
      4 * value.parts * 2 ^ (value.exponent - 2).toNat := by
    rw [unit, parts, show 4 = 2 ^ 2 by rfl, ← Nat.pow_add, ← Nat.pow_add, ← Nat.pow_add]
    congr 1
    omega
  have step : value.stepSize zeros = 2 ^ (2 - value.exponent).toNat * 10 ^ zeros := rfl
  have quarter : value.quarterSize zeros = 2 ^ (value.exponent - 2).toNat := by simp [quarterSize]
  rw [step, quarter, Nat.mul_right_comm, powers]
  grind

theorem isReadFrom_iff {digits : Nat} {grid : Int} :
    value.isReadFrom ⟨digits, grid⟩ = true ↔
      value.lowerQuarters * value.quarterSize grid ≤ digits * value.stepSize grid ∧
      digits * value.stepSize grid ≤ value.upperQuarters * value.quarterSize grid ∧
      (value.significand % 2 = 1 →
        value.lowerQuarters * value.quarterSize grid < digits * value.stepSize grid ∧
        digits * value.stepSize grid < value.upperQuarters * value.quarterSize grid) := by
  rw [isReadFrom]
  split
  · simp only [Bool.and_eq_true, decide_eq_true_eq]
    omega
  · simp only [Bool.and_eq_true, decide_eq_true_eq]
    omega

theorem isReadFrom_natural_iff {digits zeros : Nat} :
    value.isReadFrom ⟨digits, zeros⟩ = true ↔ value.Surrounds (digits * 10 ^ zeros) := by
  have positive := value.unit_pos
  have quarterPositive := value.quarterSize_pos zeros
  have point : 4 * (digits * 10 ^ zeros * value.parts) * value.quarterSize zeros =
      digits * value.stepSize zeros * value.unit := by
    rw [Nat.mul_assoc digits (value.stepSize zeros), stepSize_mul_unit]
    grind
  have place (quarters : Nat) : quarters * value.unit * value.quarterSize zeros =
      quarters * value.quarterSize zeros * value.unit := Nat.mul_right_comm ..
  rw [isReadFrom_iff]
  constructor
  · intro inside
    obtain ⟨lower, upper, odd⟩ := inside
    exact ⟨le_of_scaled_le quarterPositive (place _) point lower,
      le_of_scaled_le quarterPositive point (place _) upper, fun isOdd =>
        ⟨lt_of_scaled_lt positive (place _) point (odd isOdd).1,
          lt_of_scaled_lt positive point (place _) (odd isOdd).2⟩⟩
  · intro surrounds
    obtain ⟨lower, upper, odd⟩ := surrounds
    exact ⟨le_of_scaled_le positive (place _).symm point.symm lower,
      le_of_scaled_le positive point.symm (place _).symm upper, fun isOdd =>
        ⟨lt_of_scaled_lt quarterPositive (place _).symm point.symm (odd isOdd).1,
          lt_of_scaled_lt quarterPositive point.symm (place _).symm (odd isOdd).2⟩⟩

theorem parts_le_significand (positive : 0 < value.significand)
    (equal : number * value.parts = value.significand * value.unit) (fine : value.exponent ≤ 0) :
    value.parts ≤ value.significand := by
  rw [unit_of_nonpos fine, Nat.mul_one] at equal
  have something : 0 < number := by
    apply Nat.pos_of_ne_zero
    intro nothing
    rw [nothing, Nat.zero_mul] at equal
    omega
  rw [← equal]
  exact Nat.le_mul_of_pos_left _ something

theorem le_lowerQuarters_add (value : Magnitude) :
    4 * value.significand ≤ value.lowerQuarters + 2 := by
  rw [lowerQuarters, quarters]
  split <;> omega

theorem lowerQuarters_lt (positive : 0 < value.significand) :
    value.lowerQuarters < 4 * value.significand := by
  rw [lowerQuarters, quarters]
  split <;> omega

theorem surrounds_of_exact (positive : 0 < value.significand)
    (equal : number * value.parts = value.significand * value.unit) : value.Surrounds number := by
  have unitPositive := value.unit_pos
  have lower : value.lowerQuarters * value.unit < 4 * (value.significand * value.unit) := by
    rw [← Nat.mul_assoc]
    exact Nat.mul_lt_mul_of_pos_right (lowerQuarters_lt positive) unitPositive
  have upper : 4 * (value.significand * value.unit) < value.upperQuarters * value.unit := by
    rw [← Nat.mul_assoc]
    exact Nat.mul_lt_mul_of_pos_right (Nat.lt_add_of_pos_right (by decide)) unitPositive
  rw [← equal] at lower upper
  exact ⟨Nat.le_of_lt lower, Nat.le_of_lt upper, fun _ => ⟨lower, upper⟩⟩

/-- Where the last place is no more than one, no other whole number is near enough. -/
theorem Surrounds.exact (surrounds : value.Surrounds number) (fine : value.exponent ≤ 0) :
    number * value.parts = value.significand * value.unit := by
  have lower := surrounds.lower
  have upper := surrounds.upper
  have bound := value.le_lowerQuarters_add
  rw [unit_of_nonpos fine, Nat.mul_one] at lower upper ⊢
  rw [upperQuarters, quarters] at upper
  omega

theorem Surrounds.isNearest (surrounds : value.Surrounds number) :
    IsNearest (number * value.parts) value.unit value.significand := by
  have bound := Nat.mul_le_mul_right value.unit value.le_lowerQuarters_add
  obtain ⟨lower, upper, odd⟩ := surrounds
  rw [Nat.add_mul, Nat.mul_assoc] at bound
  rw [upperQuarters, quarters, Nat.add_mul, Nat.mul_assoc] at upper odd
  constructor <;> omega

/-- The binade of a magnitude with its leading bit in place. -/
def binade (value : Magnitude) : Nat := (value.exponent + fractionBits).toNat

theorem binade_mul_parts (value : Magnitude) (coarse : -(fractionBits : Int) ≤ value.exponent) :
    2 ^ value.binade * value.parts = 2 ^ fractionBits * value.unit := by
  rw [unit, parts, binade, ← Nat.pow_add, ← Nat.pow_add]
  congr 1
  omega

end Magnitude

theorem nearestBits_of_isNearest {number length whole : Nat} (lower : 2 ^ length ≤ number)
    (upper : number < 2 ^ (length + 1))
    (nearest : IsNearest (number * 2 ^ fractionBits) (2 ^ length) whole)
    (finite : (length + 1022) * 2 ^ fractionBits + whole ≤ infinityBits) :
    nearestBits number = (length + 1022) * 2 ^ fractionBits + whole := by
  have positive : 0 < 2 ^ length := Nat.two_pow_pos length
  have nonzero : number ≠ 0 := by omega
  rw [nearestBits, if_neg nonzero, (Nat.log2_eq_iff nonzero).mpr ⟨lower, upper⟩,
    nearest.divideToNearest_eq positive]
  exact Nat.min_eq_left finite

namespace Magnitude

variable {value : Magnitude} {number : Nat}

theorem Surrounds.lt_binade (surrounds : value.Surrounds number)
    (coarse : -(fractionBits : Int) ≤ value.exponent)
    (short : value.significand < 2 ^ (fractionBits + 1)) : number < 2 ^ (value.binade + 1) := by
  have balance := value.binade_mul_parts coarse
  have partsPositive := value.parts_pos
  have unitPositive := value.unit_pos
  apply Nat.lt_of_mul_lt_mul_right (a := value.parts)
  rw [Nat.pow_succ, Nat.mul_right_comm, balance, Nat.mul_right_comm]
  have upper := surrounds.upper
  have bound : value.upperQuarters < 4 * (2 ^ fractionBits * 2) := by
    rw [upperQuarters, quarters, fractionBits]
    rw [fractionBits] at short
    omega
  have passed := Nat.mul_lt_mul_of_pos_right bound unitPositive
  rw [Nat.mul_assoc] at passed
  omega

/-- A whole number of the interval can only fall short of the binade below a power of
two, where the interval is the narrow one. -/
theorem Surrounds.narrow (surrounds : value.Surrounds number)
    (coarse : -(fractionBits : Int) ≤ value.exponent)
    (normal : 2 ^ fractionBits ≤ value.significand) (below : number < 2 ^ value.binade) :
    value.significand = 2 ^ fractionBits ∧
      4 * (2 ^ fractionBits * value.unit) ≤ 4 * (number * value.parts) + value.unit := by
  have lower := surrounds.lower
  have within : number * value.parts < 2 ^ fractionBits * value.unit := by
    rw [← value.binade_mul_parts coarse]
    exact Nat.mul_lt_mul_of_pos_right below value.parts_pos
  have leading : value.significand = 2 ^ fractionBits := by
    apply Nat.le_antisymm _ normal
    apply Nat.le_of_not_lt
    intro more
    have bound := value.le_lowerQuarters_add
    have passed : 4 * 2 ^ fractionBits * value.unit ≤ value.lowerQuarters * value.unit :=
      Nat.mul_le_mul_right _ (by omega)
    rw [Nat.mul_assoc] at passed
    omega
  have narrow : value.lowerQuarters + 1 = 4 * 2 ^ fractionBits := by
    have above : leastExponent < value.exponent := by
      rw [leastExponent]
      rw [fractionBits] at coarse
      omega
    rw [lowerQuarters, quarters, isNarrowBelow, leading, decide_eq_true above]
    decide
  refine ⟨leading, ?_⟩
  have whole : (value.lowerQuarters + 1) * value.unit = 4 * (2 ^ fractionBits * value.unit) := by
    rw [narrow, Nat.mul_assoc]
  rw [Nat.add_mul, Nat.one_mul] at whole
  omega

theorem nearestBits_of_narrow {length : Nat} (coarse : -(fractionBits : Int) ≤ value.exponent)
    (last : value.binade = length + 1) (top : value.binade ≤ 1023)
    (below : number < 2 ^ value.binade)
    (close : 4 * (2 ^ fractionBits * value.unit) ≤ 4 * (number * value.parts) + value.unit) :
    nearestBits number = (length + 1022) * 2 ^ fractionBits + 2 * 2 ^ fractionBits := by
  have balance := value.binade_mul_parts coarse
  have unitPositive := value.unit_pos
  have within := Nat.mul_lt_mul_of_pos_right below value.parts_pos
  have unitBound : 2 * value.unit ≤ 2 ^ fractionBits * value.unit :=
    Nat.mul_le_mul_right _ (by decide)
  have halves :
      number * 2 ^ fractionBits * value.unit = 2 * (number * value.parts) * 2 ^ length := by
    rw [Nat.mul_assoc, ← balance, last, Nat.pow_succ]
    grind
  rw [balance] at within
  rw [last] at balance below top
  apply nearestBits_of_isNearest _ below
  · refine IsNearest.of_balance ⟨?_, ?_, fun odd => absurd odd (by decide)⟩ (Nat.two_pow_pos _)
      unitPositive halves
    · rw [Nat.mul_assoc]
      omega
    · rw [Nat.mul_assoc]
      omega
  · rw [infinityBits, topExponentField, fractionBits]
    omega
  · apply Nat.le_of_mul_le_mul_right _ value.parts_pos
    rw [Nat.pow_succ, Nat.mul_right_comm] at balance
    omega

theorem Surrounds.nearestBits_eq (surrounds : value.Surrounds number)
    (coarse : -(fractionBits : Int) ≤ value.exponent) (top : value.exponent ≤ 971)
    (normal : 2 ^ fractionBits ≤ value.significand)
    (short : value.significand < 2 ^ (fractionBits + 1)) :
    nearestBits number = (value.binade + 1022) * 2 ^ fractionBits + value.significand := by
  have balance := value.binade_mul_parts coarse
  have topBinade : value.binade ≤ 1023 := by
    rw [binade, fractionBits]
    omega
  by_cases below : number < 2 ^ value.binade
  · obtain ⟨leading, close⟩ := surrounds.narrow coarse normal below
    cases last : value.binade with
    | zero =>
        have nothing : number = 0 := by
          rw [last, Nat.pow_zero] at below
          omega
        have unitPositive := value.unit_pos
        have unitBound := Nat.mul_le_mul_right value.unit (Nat.one_le_two_pow (n := fractionBits))
        rw [nothing, Nat.zero_mul] at close
        omega
    | succ length =>
        rw [nearestBits_of_narrow coarse last topBinade below close, leading, Nat.add_right_comm,
          Nat.succ_mul (length + 1022)]
        omega
  · refine nearestBits_of_isNearest (Nat.le_of_not_lt below)
      (surrounds.lt_binade coarse short) ?_ ?_
    · refine surrounds.isNearest.of_balance (Nat.two_pow_pos _) value.unit_pos ?_
      rw [Nat.mul_assoc, ← balance]
      grind
    · rw [infinityBits, topExponentField, fractionBits]
      rw [fractionBits] at short
      omega

end Magnitude

section Doubles

variable {value : Float} {number : Nat}

theorem normal_of_leastExponent_lt (above : leastExponent < (magnitude value).exponent) :
    ∃ field, exponentField value = field + 1 ∧
      magnitude value = ⟨2 ^ fractionBits + fractionField value, leastExponent + field⟩ := by
  rw [magnitude] at above ⊢
  split at above
  · exact absurd above (Int.lt_irrefl _)
  · rename_i field known
    exact ⟨field, known, rfl⟩

theorem coarse_of_whole (positive : 0 < (magnitude value).significand)
    (whole : number * (magnitude value).parts =
      (magnitude value).significand * (magnitude value).unit)
    (fine : (magnitude value).exponent ≤ 0) :
    -(fractionBits : Int) ≤ (magnitude value).exponent := by
  have short := magnitude_significand_lt value
  have bound := Magnitude.parts_le_significand positive whole fine
  have places := (Nat.pow_lt_pow_iff_right (by decide)).mp (Nat.lt_of_le_of_lt bound short)
  omega

theorem nearest_of_nearestBits (bits : nearestBits number = value.toBits.toNat) :
    nearest number = value := by
  rw [nearest, bits, UInt64.ofNat_toNat, ofBits_toBits]

/-- A whole number of its interval reads as a double. -/
theorem nearest_of_surrounds (positive : isNegative value = false)
    (finite : exponentField value ≠ topExponentField)
    (nonzero : 0 < (magnitude value).significand)
    (surrounds : (magnitude value).Surrounds number) : nearest number = value := by
  have coarse : -(fractionBits : Int) ≤ (magnitude value).exponent := by
    by_cases fine : (magnitude value).exponent ≤ 0
    · exact coarse_of_whole nonzero (surrounds.exact fine) fine
    · omega
  have above : leastExponent < (magnitude value).exponent := by
    rw [leastExponent]
    rw [fractionBits] at coarse
    omega
  obtain ⟨field, known, same⟩ := normal_of_leastExponent_lt above
  have fieldBound := exponentField_le value
  have short := magnitude_significand_lt value
  have top : (magnitude value).exponent ≤ 971 := by
    rw [same]
    rw [topExponentField] at finite fieldBound
    change -1074 + (field : Int) ≤ 971
    omega
  apply nearest_of_nearestBits
  rw [surrounds.nearestBits_eq coarse top (by rw [same]; exact Nat.le_add_right _ _) short,
    toNat_toBits_of_not_isNegative positive, known, Magnitude.binade, same]
  have length : (leastExponent + field + fractionBits).toNat + 1022 = field := by
    rw [same] at coarse
    change -52 ≤ -1074 + (field : Int) at coarse
    change (-1074 + (field : Int) + 52).toNat + 1022 = field
    omega
  rw [length, Nat.succ_mul, Nat.add_assoc]

end Doubles

end Reckon.Number
