import Mathlib.Algebra.Order.Field.Power
import Mathlib.Tactic.Linarith
import Mathlib.Tactic.NormNum
import Mathlib.Tactic.Positivity
import Mathlib.Tactic.Ring
import Reckon.Proofs.NumberTexts

namespace Reckon.Number

/-! What a finite double is: a rational number, and a sign and a magnitude unpacked.

The magnitudes of numbers without a sign bit are in the order of their bits.
-/

open Float.Model Float.Model.UnpackedFloat

theorem two_zpow_pos (exponent : Int) : (0 : Rat) < 2 ^ exponent := by positivity

theorem two_zpow_add (exponent other : Int) :
    (2 : Rat) ^ (exponent + other) = 2 ^ exponent * 2 ^ other :=
  zpow_add₀ two_ne_zero exponent other

namespace Magnitude

variable {value : Magnitude}

def toRat (value : Magnitude) : Rat := value.significand * 2 ^ value.exponent

theorem toRat_nonneg (value : Magnitude) : 0 ≤ value.toRat :=
  mul_nonneg (Nat.cast_nonneg _) (two_zpow_pos _).le

theorem toRat_lt (short : value.significand < 2 ^ (fractionBits + 1)) :
    value.toRat < 2 ^ (value.exponent + 53) := by
  have bound : (value.significand : Rat) < 2 ^ (53 : Int) := by exact_mod_cast short
  rw [toRat, add_comm, two_zpow_add]
  exact mul_lt_mul_of_pos_right bound (two_zpow_pos _)

/-- From a power of two on, the last places of doubles are no less than the one there. -/
theorem exists_steps {place : Int} (short : value.significand < 2 ^ (fractionBits + 1))
    (reached : (2 : Rat) ^ (place + 52) ≤ value.toRat) :
    ∃ steps : Nat, value.toRat = steps * 2 ^ place := by
  have bound := (zpow_lt_zpow_iff_right₀ one_lt_two).mp (reached.trans_lt (toRat_lt short))
  obtain ⟨more, places⟩ := Int.le.dest (show place ≤ value.exponent by omega)
  refine ⟨value.significand * 2 ^ more, ?_⟩
  rw [toRat, ← places, two_zpow_add]
  push_cast
  rw [zpow_natCast]
  ring

end Magnitude

def View.toRat? : View → Option Rat
  | .finite negative magnitude => some (if negative then -magnitude.toRat else magnitude.toRat)
  | _ => none

/-- The number that a double is.  Infinities are none, nor is what is not a number. -/
def toRat? (value : Float) : Option Rat := (view value).toRat?

def signOf (value : Float) : Sign := if isNegative value then .negative else .positive

def signedRat (sign : Sign) (magnitude : Magnitude) : Rat :=
  sign.apply magnitude.significand * 2 ^ magnitude.exponent

section Signed

variable {value : Float} {number : Rat} {sign : Sign}

theorem signedRat_negative (magnitude : Magnitude) :
    signedRat .negative magnitude = -magnitude.toRat := by
  simp [signedRat, Magnitude.toRat, Sign.apply]

theorem signedRat_positive (magnitude : Magnitude) :
    signedRat .positive magnitude = magnitude.toRat := by
  simp [signedRat, Magnitude.toRat, Sign.apply]

theorem signedRat_neg (sign : Sign) (magnitude : Magnitude) :
    signedRat (-sign) magnitude = -signedRat sign magnitude := by
  cases sign with
  | negative => exact (signedRat_positive _).trans (by rw [signedRat_negative, Rat.neg_neg])
  | positive => exact (signedRat_negative _).trans (by rw [signedRat_positive])

theorem signOf_of_not_isNegative (positive : isNegative value = false) :
    signOf value = .positive := by
  rw [signOf, positive]
  rfl

theorem toRat?_eq_some_iff :
    toRat? value = some number ↔ exponentField value ≠ topExponentField ∧
      signedRat (signOf value) (magnitude value) = number := by
  have same : signedRat (signOf value) (magnitude value) =
      if isNegative value then -(magnitude value).toRat else (magnitude value).toRat := by
    rw [signOf]
    split
    · exact signedRat_negative _
    · exact signedRat_positive _
  rw [toRat?, view, same]
  split
  · rename_i top
    split <;> simp [View.toRat?, top]
  · rename_i finite
    simp [View.toRat?, finite]

theorem toRat?_of_not_isNegative (positive : isNegative value = false)
    (finite : exponentField value ≠ topExponentField) :
    toRat? value = some (magnitude value).toRat := by
  rw [toRat?_eq_some_iff, signOf_of_not_isNegative positive]
  exact ⟨finite, signedRat_positive _⟩

/-- A double that reaches a power of two is a multiple of the last place there. -/
theorem exists_steps_of_toRat? {place : Int} (same : toRat? value = some number)
    (reached : 2 ^ (place + 52) ≤ number) : ∃ steps : Nat, number = steps * 2 ^ place := by
  obtain ⟨_, rfl⟩ := toRat?_eq_some_iff.mp same
  have nonneg := (magnitude value).toRat_nonneg
  have power := two_zpow_pos (place + 52)
  cases sign : signOf value with
  | negative =>
      rw [sign, signedRat_negative] at reached
      linarith
  | positive =>
      rw [sign, signedRat_positive] at reached
      rw [signedRat_positive]
      exact Magnitude.exists_steps (magnitude_significand_lt value) reached

end Signed

section Unpacked

variable {value : Float}

/-- A signed magnitude, unpacked. -/
def signed (sign : Sign) (magnitude : Magnitude) : UnpackedFloat :=
  if positive : 0 < magnitude.significand then
    .finite sign magnitude.significand magnitude.exponent positive
  else .zero sign

theorem HasFields.signOf_eq {sign : Sign} {exponent : BitVec 11} {fraction : BitVec 52}
    (has : HasFields value sign exponent fraction) : signOf value = sign := by
  rw [signOf]
  cases sign with
  | negative => rw [if_pos (has.isNegative_iff.mpr rfl)]
  | positive => rw [if_neg (mt has.isNegative_iff.mp nofun)]

theorem magnitude_of_subnormal (lowest : exponentField value = 0) :
    magnitude value = ⟨fractionField value, leastExponent⟩ := by
  rw [magnitude, lowest]

theorem magnitude_of_normal {field : Nat} (known : exponentField value = field + 1) :
    magnitude value = ⟨2 ^ fractionBits + fractionField value, leastExponent + field⟩ := by
  rw [magnitude, known]

theorem signed_of_pos {sign : Sign} {significand : Nat} {place : Int} (positive : 0 < significand) :
    signed sign ⟨significand, place⟩ = .finite sign significand place positive :=
  dif_pos positive

/-- A finite double is unpacked to its sign and magnitude. -/
theorem unpacked_of_finite (finite : exponentField value ≠ topExponentField) :
    unpacked value = signed (signOf value) (magnitude value) := by
  obtain ⟨sign, exponent, fraction, has⟩ := exists_hasFields value
  obtain ⟨content, unpacks⟩ := exists_unpacks sign exponent fraction
  have field := has.exponentField_eq
  have fractionSame := has.fractionField_eq
  rw [unpacked, has, unpacks.unpack_eq, has.signOf_eq]
  cases unpacks with
  | infinity top _ => exact absurd (field.trans (congrArg BitVec.toNat top)) finite
  | notANumber top _ => exact absurd (field.trans (congrArg BitVec.toNat top)) finite
  | zero lowest cleared =>
      subst lowest cleared
      rw [magnitude_of_subnormal field, fractionSame]
      rfl
  | subnormal lowest content =>
      subst lowest
      rw [magnitude_of_subnormal field, fractionSame, signed_of_pos (toNat_pos_of_ne_zero content)]
      rfl
  | normal below above =>
      obtain ⟨rest, known⟩ := Nat.exists_eq_succ_of_ne_zero
        fun zero => above (BitVec.eq_of_toNat_eq zero)
      have place : (exponent.toNat : Int) - 1075 = leastExponent + rest := by
        rw [known, leastExponent]
        omega
      rw [magnitude_of_normal (field.trans known), fractionSame, ← place,
        signed_of_pos (Nat.add_pos_left (Nat.two_pow_pos _) _)]
      rfl

theorem unpacked_of_infinite {negative : Bool} (infinite : view value = .infinite negative) :
    unpacked value = .infinity (signOf value) := by
  obtain ⟨sign, exponent, fraction, has⟩ := exists_hasFields value
  rw [view] at infinite
  split at infinite
  · rename_i top
    split at infinite
    · rename_i cleared
      rw [unpacked, has, has.signOf_eq]
      rw [has.exponentField_eq] at top
      rw [has.fractionField_eq] at cleared
      exact (Unpacks.infinity (BitVec.eq_of_toNat_eq top) (BitVec.eq_of_toNat_eq cleared)).unpack_eq
    · cases infinite
  · cases infinite

end Unpacked

section Order

variable {value other : Float} {small large : Magnitude}

theorem le_iff_unpacked : value ≤ other ↔ (unpacked value).le (unpacked other) = true := by
  change decide ((unpacked value).le (unpacked other) = true) = true ↔ _
  exact decide_eq_true_iff

theorem Plain.le_refl (plain : Plain value) : value ≤ value := by
  have same := (plain.unsigned.compare_eq_iff plain.unsigned).mpr rfl
  exact le_iff_unpacked.mpr (congrArg (·.any Ordering.isLE) same)

theorem Magnitude.Precedes.positive (precedes : small.Precedes large)
    (least : leastExponent ≤ small.exponent) (canonical : large.Canonical) :
    0 < large.significand := by
  rcases precedes with finer | ⟨_, less⟩
  · have leading := canonical.normal (Int.lt_of_le_of_lt least finer)
    exact Nat.lt_of_lt_of_le (Nat.two_pow_pos _) leading
  · exact Nat.zero_lt_of_lt less

theorem Magnitude.Precedes.signed_le (precedes : small.Precedes large)
    (least : leastExponent ≤ small.exponent) (canonical : large.Canonical) :
    (signed .positive small).le (signed .positive large) = true := by
  rw [signed, signed, dif_pos (precedes.positive least canonical)]
  by_cases positive : 0 < small.significand
  · rw [dif_pos positive]
    have order : (compare small.exponent large.exponent).then
        (compare small.significand large.significand) = .lt := by
      rcases precedes with finer | ⟨same, less⟩
      · rw [Int.compare_eq_lt.mpr finer]
        rfl
      · rw [Int.compare_eq_eq.mpr same, Nat.compare_eq_lt.mpr less]
        rfl
    exact congrArg (fun order => (some order).any Ordering.isLE) order
  · rw [dif_neg positive]
    rfl

theorem signed_le_infinity (small : Magnitude) :
    (signed .positive small).le (.infinity .positive) = true := by
  rw [signed]
  by_cases positive : 0 < small.significand
  · rw [dif_pos positive]
    rfl
  · rw [dif_neg positive]
    rfl

theorem magnitude_precedes
    (bits : exponentField value * 2 ^ fractionBits + fractionField value <
      exponentField other * 2 ^ fractionBits + fractionField other) :
    (magnitude value).Precedes (magnitude other) := by
  have bound := fractionField_lt value
  have otherBound := fractionField_lt other
  simp only [fractionBits] at bits bound otherBound
  cases field : exponentField value with
  | zero =>
      cases otherField : exponentField other with
      | zero =>
          rw [magnitude_of_subnormal field, magnitude_of_subnormal otherField]
          exact .inr ⟨rfl, by dsimp only; omega⟩
      | succ otherRest =>
          rw [magnitude_of_subnormal field, magnitude_of_normal otherField, Magnitude.Precedes]
          simp only [fractionBits]
          omega
  | succ rest =>
      cases otherField : exponentField other with
      | zero => omega
      | succ otherRest =>
          rw [magnitude_of_normal field, magnitude_of_normal otherField, Magnitude.Precedes]
          simp only [fractionBits]
          omega

theorem Plain.fractionField_of_top (plain : Plain value)
    (top : exponentField value = topExponentField) : fractionField value = 0 := by
  obtain ⟨_, number⟩ := plain
  rw [view, if_pos top] at number
  by_contra content
  exact number (if_neg content)

theorem Plain.view_of_top (plain : Plain value) (top : exponentField value = topExponentField) :
    view value = .infinite false := by
  rw [view, if_pos top, if_pos (plain.fractionField_of_top top), plain.1]

/-- Numbers without a sign bit are in the order of their bits. -/
theorem Plain.le_of_bits (plain : Plain value) (otherPlain : Plain other)
    (bits : value.toBits.toNat ≤ other.toBits.toNat) : value ≤ other := by
  rcases Nat.lt_or_eq_of_le bits with less | same
  · rw [toNat_toBits_of_not_isNegative plain.1, toNat_toBits_of_not_isNegative otherPlain.1] at less
    have finite : exponentField value ≠ topExponentField := by
      intro top
      have bound := exponentField_le other
      have fractionBound := fractionField_lt other
      have cleared := otherPlain.fractionField_of_top
      simp only [topExponentField, fractionBits] at *
      omega
    rw [le_iff_unpacked, unpacked_of_finite finite, signOf_of_not_isNegative plain.1]
    by_cases top : exponentField other = topExponentField
    · rw [unpacked_of_infinite (otherPlain.view_of_top top), signOf_of_not_isNegative otherPlain.1]
      exact signed_le_infinity _
    · rw [unpacked_of_finite top, signOf_of_not_isNegative otherPlain.1]
      exact (magnitude_precedes less).signed_le (leastExponent_le_magnitude_exponent value)
        (canonical_magnitude other)
  · rw [show value = other from ?_]
    · exact otherPlain.le_refl
    · rw [← ofBits_toBits value, ← ofBits_toBits other, UInt64.toNat_inj.mp same]

end Order

end Reckon.Number
