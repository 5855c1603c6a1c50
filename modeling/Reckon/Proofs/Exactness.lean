import Reckon.Proofs.Rounding

namespace Reckon.Number

/-! Operations on doubles whose exact result is a double.

A number that is a double has only one significand and exponent as such.  Rounding finds
them from any other way to write the number, for nothing but zeros is shifted out.
-/

open Float.Model Float.Model.UnpackedFloat

section Shifting

variable {value : Magnitude} {sign : Sign}

theorem shiftRight_exact (significand places : Nat) :
    (⟨significand * 2 ^ places, false, false⟩ : ExtendedMantissa) >>> places =
      ⟨significand, false, false⟩ := by
  induction places generalizing significand with
  | zero =>
      rw [Nat.pow_zero, Nat.mul_one]
      rfl
  | succ places ih =>
      rw [Nat.pow_succ, Nat.mul_comm (2 ^ places), ← Nat.mul_assoc]
      change ((⟨significand * 2 * 2 ^ places, false, false⟩ : ExtendedMantissa) >>>
        places).shiftRightOne = _
      rw [ih, ExtendedMantissa.shiftRightOne, Nat.mul_div_cancel _ (by decide), Nat.mul_mod_left]
      rfl

theorem log2_mul_two_pow {number : Nat} (positive : 0 < number) (places : Nat) :
    (number * 2 ^ places).log2 = number.log2 + places := by
  have nonzero : number ≠ 0 := Nat.ne_of_gt positive
  have power : 0 < 2 ^ places := Nat.two_pow_pos places
  refine (Nat.log2_eq_iff (Nat.ne_of_gt (Nat.mul_pos positive power))).mpr ⟨?_, ?_⟩
  · rw [Nat.pow_add]
    exact Nat.mul_le_mul_right _ (Nat.log2_self_le nonzero)
  · rw [Nat.add_right_comm, Nat.pow_add]
    exact Nat.mul_lt_mul_of_pos_right Nat.lt_log2_self power

/-- Where the leading bit stands does not depend on how a number is written. -/
theorem totalExponent_mul_two_pow {significand : Nat} (positive : 0 < significand) (places : Nat)
    (exponent : Int) :
    totalExponent (significand * 2 ^ places) exponent =
      totalExponent significand (exponent + places) := by
  rw [totalExponent, totalExponent, log2_mul_two_pow positive]
  push_cast
  ring

theorem Magnitude.Canonical.targetExponent_eq (canonical : value.Canonical)
    (positive : 0 < value.significand) :
    binary64.targetExponent (totalExponent value.significand value.exponent) = value.exponent := by
  have nonzero : value.significand ≠ 0 := Nat.ne_of_gt positive
  obtain ⟨short, least, normal⟩ := canonical
  have upper : value.significand.log2 < 53 := (Nat.log2_lt nonzero).mpr short
  have lower : leastExponent < value.exponent → 52 ≤ value.significand.log2 :=
    fun above => (Nat.le_log2 nonzero).mpr (normal above)
  rw [leastExponent] at least lower
  change max ((value.significand.log2 : Int) + 1 + value.exponent - 53) (-1074) = value.exponent
  omega

theorem Magnitude.Canonical.shift_eq (canonical : value.Canonical)
    (positive : 0 < value.significand)
    (places : Nat) :
    shiftToTargetExponent binary64 (value.significand * 2 ^ places)
      (value.exponent - places) .exact =
      (⟨value.significand, false, false⟩, value.exponent) := by
  have difference : (value.exponent - (value.exponent - places)).toNat = places := by omega
  rw [shiftToTargetExponent, totalExponent_mul_two_pow positive, Int.sub_add_cancel,
    canonical.targetExponent_eq positive, shiftToExponent, difference, Int.sub_add_cancel]
  exact congrArg (·, value.exponent) (shiftRight_exact value.significand places)

theorem Magnitude.Canonical.shift_self (canonical : value.Canonical)
    (positive : 0 < value.significand) :
    shiftToTargetExponent binary64 value.significand value.exponent .exact =
      (⟨value.significand, false, false⟩, value.exponent) := by
  have shifted := canonical.shift_eq positive 0
  rwa [Nat.pow_zero, Nat.mul_one, Nat.cast_zero, sub_zero] at shifted

theorem Magnitude.Canonical.roundWithAccuracy_eq (canonical : value.Canonical)
    (positive : 0 < value.significand) (sign : Sign) (places : Nat) :
    roundWithAccuracy binary64 sign (value.significand * 2 ^ places)
      (value.exponent - places) .exact =
      signed sign value := by
  have rounded : (⟨value.significand, false, false⟩ : ExtendedMantissa).roundedMantissa =
      value.significand := rfl
  unfold roundWithAccuracy
  rw [canonical.shift_eq positive]
  dsimp only
  rw [rounded, canonical.shift_self positive, signed_of_pos positive]
  exact dif_neg (Nat.ne_of_gt positive)

/-- With a larger exponent goes a smaller significand. -/
theorem eq_mul_two_pow {significand other places : Nat} {exponent : Int}
    (same : (significand * 2 ^ exponent : Rat) = other * 2 ^ (exponent + places)) :
    significand = other * 2 ^ places := by
  rw [two_zpow_add, zpow_natCast, mul_left_comm, mul_comm] at same
  exact_mod_cast mul_left_cancel₀ (two_zpow_pos exponent).ne' same

theorem exists_places {significand : Nat} {exponent : Int} (fine : exponent ≤ value.exponent)
    (same : (significand * 2 ^ exponent : Rat) = value.toRat) :
    ∃ places : Nat, significand = value.significand * 2 ^ places ∧
      exponent = value.exponent - places := by
  obtain ⟨places, sum⟩ := Int.le.dest fine
  rw [Magnitude.toRat, ← sum] at same
  exact ⟨places, eq_mul_two_pow same, by omega⟩

theorem round_eq_roundWithAccuracy (sign : Sign) {significand : Nat} {exponent target : Int}
    (found : binary64.targetExponent (totalExponent significand exponent) = target) :
    UnpackedFloat.round binary64 sign significand exponent =
      roundWithAccuracy binary64 sign (significand * 2 ^ (exponent - target).toNat)
        (exponent - (exponent - target).toNat) .exact := by
  rw [← Nat.shiftLeft_eq, ← found]
  rfl

theorem Magnitude.Canonical.round_eq (canonical : value.Canonical)
    (positive : 0 < value.significand)
    (sign : Sign) {significand : Nat} {exponent : Int}
    (same : (significand * 2 ^ exponent : Rat) = value.toRat) :
    UnpackedFloat.round binary64 sign significand exponent = signed sign value := by
  by_cases fine : exponent ≤ value.exponent
  · obtain ⟨places, rfl, rfl⟩ := exists_places fine same
    have found := totalExponent_mul_two_pow positive places (value.exponent - places)
    rw [Int.sub_add_cancel] at found
    rw [round_eq_roundWithAccuracy sign (found ▸ canonical.targetExponent_eq positive),
      Int.toNat_of_nonpos (by omega), Nat.pow_zero, Nat.mul_one, Nat.cast_zero, sub_zero]
    exact canonical.roundWithAccuracy_eq positive sign places
  · obtain ⟨places, rfl⟩ := Int.le.dest (Int.le_of_not_le fine)
    have shifted : value.significand = significand * 2 ^ places := eq_mul_two_pow same.symm
    have nonzero : 0 < significand := Nat.pos_of_mul_pos_right (shifted ▸ positive)
    have found := totalExponent_mul_two_pow nonzero places value.exponent
    rw [← shifted] at found
    have exact := canonical.roundWithAccuracy_eq positive sign 0
    rw [Nat.pow_zero, Nat.mul_one, Nat.cast_zero, sub_zero] at exact
    rw [round_eq_roundWithAccuracy sign (found ▸ canonical.targetExponent_eq positive),
      add_sub_cancel_left, Int.toNat_natCast, ← shifted, add_sub_cancel_right]
    exact exact

end Shifting

section Contents

variable {value result : Float} {number : Rat} {sign : Sign}

theorem eq_of_signedRat_eq {magnitude other : Magnitude} {otherSign : Sign}
    (positive : 0 < other.toRat) (same : signedRat sign magnitude = signedRat otherSign other) :
    sign = otherSign ∧ magnitude.toRat = other.toRat := by
  have nonneg := magnitude.toRat_nonneg
  cases sign with
  | negative =>
      cases otherSign with
      | negative => exact ⟨rfl, neg_injective (by simpa [signedRat_negative] using same)⟩
      | positive =>
          rw [signedRat_negative, signedRat_positive] at same
          linarith
  | positive =>
      cases otherSign with
      | negative =>
          rw [signedRat_negative, signedRat_positive] at same
          linarith
      | positive => exact ⟨rfl, by simpa [signedRat_positive] using same⟩

/-- A double that is not zero has the sign of its number. -/
theorem unpacked_of_signedRat {other : Magnitude} (positive : 0 < other.significand)
    (known : toRat? result = some (signedRat sign other)) :
    unpacked result = signed sign (magnitude result) ∧ (magnitude result).toRat = other.toRat ∧
      0 < (magnitude result).significand := by
  obtain ⟨finite, same⟩ := toRat?_eq_some_iff.mp known
  have content := unpacked_of_finite finite
  have above : 0 < other.toRat := mul_pos (by exact_mod_cast positive) (two_zpow_pos _)
  obtain ⟨agree, equal⟩ := eq_of_signedRat_eq above same
  refine ⟨agree ▸ content, equal, Nat.pos_of_ne_zero fun zero => ?_⟩
  rw [← equal, Magnitude.toRat, zero, Nat.cast_zero, zero_mul] at above
  exact absurd above (lt_irrefl 0)

theorem round_eq_unpacked {significand : Nat} {exponent : Int} (positive : 0 < significand)
    (known : toRat? result = some (signedRat sign ⟨significand, exponent⟩)) :
    UnpackedFloat.round binary64 sign significand exponent = unpacked result := by
  obtain ⟨content, same, nonzero⟩ := unpacked_of_signedRat positive known
  rw [content]
  exact (canonical_magnitude result).round_eq nonzero sign same.symm

theorem normalize_eq_unpacked {significand exponent : Int} (nonzero : significand ≠ 0)
    (known : toRat? result = some ((significand : Rat) * 2 ^ exponent)) (zeroSign : Sign) :
    UnpackedFloat.normalize binary64 significand exponent zeroSign = unpacked result := by
  rw [UnpackedFloat.normalize]
  rcases Int.lt_or_gt_of_ne nonzero with below | above
  · rw [Int.compare_eq_lt.mpr below]
    apply round_eq_unpacked (by omega)
    rw [known, signedRat]
    congr 2
    change (significand : Rat) = ((-((-significand).toNat : Int) : Int) : Rat)
    congr 1
    omega
  · rw [Int.compare_eq_gt.mpr above]
    apply round_eq_unpacked (by omega)
    rw [known, signedRat]
    congr 2
    change (significand : Rat) = ((significand.toNat : Int) : Rat)
    congr 1
    omega

end Contents

/-- The forms of an unpacked finite double, with the number of each. -/
inductive Contains : UnpackedFloat → Rat → Prop where
  | zero (sign : Sign) : Contains (.zero sign) 0
  | finite (sign : Sign) (magnitude : Magnitude) (positive : 0 < magnitude.significand)
      (canonical : magnitude.Canonical) :
      Contains (.finite sign magnitude.significand magnitude.exponent positive)
        (signedRat sign magnitude)

theorem contains_of_toRat? {value : Float} {number : Rat} (known : toRat? value = some number) :
    Contains (unpacked value) number := by
  obtain ⟨finite, rfl⟩ := toRat?_eq_some_iff.mp known
  rw [unpacked_of_finite finite, signed]
  by_cases positive : 0 < (magnitude value).significand
  · rw [dif_pos positive]
    exact .finite _ _ positive (canonical_magnitude value)
  · have nothing : signedRat (signOf value) (magnitude value) = 0 := by
      rw [signedRat, Nat.eq_zero_of_not_pos positive]
      cases signOf value <;> simp [Sign.apply]
    rw [dif_neg positive, nothing]
    exact .zero _

section Negation

variable {value : Float} {number : Rat}

theorem neg_of_finite (finite : exponentField value ≠ topExponentField) :
    exponentField (-value) = exponentField value ∧ signOf (-value) = -signOf value ∧
      magnitude (-value) = magnitude value := by
  obtain ⟨sign, exponent, fraction, has⟩ := exists_hasFields value
  have negated := has.neg fun top =>
    absurd (has.exponentField_eq.trans (congrArg BitVec.toNat top)) finite
  have exponentSame := negated.exponentField_eq.trans has.exponentField_eq.symm
  have fractionSame := negated.fractionField_eq.trans has.fractionField_eq.symm
  refine ⟨exponentSame, ?_, ?_⟩
  · rw [negated.signOf_eq, has.signOf_eq]
  · rw [magnitude, magnitude, exponentSame, fractionSame]

theorem signed_neg (sign : Sign) (magnitude : Magnitude) :
    signed (-sign) magnitude = (signed sign magnitude).neg := by
  rw [signed, signed]
  by_cases positive : 0 < magnitude.significand
  · rw [dif_pos positive, dif_pos positive]
    rfl
  · rw [dif_neg positive, dif_neg positive]
    rfl

theorem neg_of_toRat? (known : toRat? value = some number) :
    unpacked (-value) = (unpacked value).neg ∧ toRat? (-value) = some (-number) := by
  obtain ⟨finite, rfl⟩ := toRat?_eq_some_iff.mp known
  obtain ⟨field, sign, same⟩ := neg_of_finite finite
  rw [toRat?_eq_some_iff, unpacked_of_finite finite, unpacked_of_finite (field ▸ finite), field,
    sign, same, signed_neg, signedRat_neg]
  exact ⟨rfl, finite, rfl⟩

end Negation

/-- What a double is unpacked to, together with the number it is. -/
def Denotes (content : UnpackedFloat) (number : Rat) : Prop :=
  ∃ value, unpacked value = content ∧ toRat? value = some number

theorem apply_neg (sign : Sign) (number : Int) : (-sign).apply number = -sign.apply number := by
  cases sign with
  | negative => exact (Int.neg_neg number).symm
  | positive => rfl

theorem sub_eq_add (content counterpart : UnpackedFloat) :
    UnpackedFloat.sub binary64 content counterpart =
      UnpackedFloat.add binary64 content counterpart.neg := by
  cases content with
  | notANumber => rfl
  | infinity sign => cases counterpart <;> rfl
  | zero sign => cases counterpart <;> rfl
  | finite sign significand place positive =>
      cases counterpart with
      | finite otherSign other otherPlace otherPositive =>
          dsimp only [UnpackedFloat.sub, UnpackedFloat.add, UnpackedFloat.neg]
          rw [apply_neg, Int.sub_eq_add_neg]
      | _ => rfl

theorem exists_zero_add_zero (sign otherSign : Sign) :
    ∃ sum, UnpackedFloat.add binary64 (.zero sign) (.zero otherSign) = .zero sum := by
  cases sign <;> cases otherSign <;> exact ⟨_, rfl⟩

theorem apply_mul (sign otherSign : Sign) (number other : Int) :
    (sign * otherSign).apply (number * other) = sign.apply number * otherSign.apply other := by
  cases sign with
  | negative =>
      cases otherSign with
      | negative => exact (Int.neg_mul_neg number other).symm
      | positive => exact (Int.neg_mul number other).symm
  | positive =>
      cases otherSign with
      | negative => exact (Int.mul_neg number other).symm
      | positive => rfl

/-- The product of two numbers, before it is rounded. -/
def Magnitude.times (value other : Magnitude) : Magnitude :=
  ⟨value.significand * other.significand, value.exponent + other.exponent⟩

theorem signedRat_times (sign otherSign : Sign) (value other : Magnitude) :
    signedRat (sign * otherSign) (value.times other) =
      signedRat sign value * signedRat otherSign other := by
  rw [signedRat, signedRat, signedRat, Magnitude.times, two_zpow_add, Nat.cast_mul, apply_mul]
  push_cast
  ring

/-- Its last place is no larger than that of a double, unless both factors have the least. -/
theorem Magnitude.Canonical.times_exponent_le {value other product : Magnitude}
    (canonical : value.Canonical) (otherCanonical : other.Canonical)
    (positive : 0 < (value.times other).significand) (rounded : product.Canonical)
    (same : product.toRat = (value.times other).toRat) :
    (value.times other).exponent ≤ product.exponent := by
  by_contra coarse
  obtain ⟨places, sum⟩ := Int.le.dest (Int.le_of_not_le coarse)
  rw [Magnitude.toRat, Magnitude.toRat, ← sum] at same
  have shifted := eq_mul_two_pow same
  have leading : 2 ^ fractionBits ≤ (value.times other).significand := by
    have least := rounded.least
    by_cases above : leastExponent < value.exponent
    · exact (canonical.normal above).trans
        (Nat.le_mul_of_pos_right _ (Nat.pos_of_mul_pos_left positive))
    · have otherAbove : leastExponent < other.exponent := by
        change product.exponent + places = value.exponent + other.exponent at sum
        rw [leastExponent] at above least ⊢
        omega
      exact (otherCanonical.normal otherAbove).trans
        (Nat.le_mul_of_pos_left _ (Nat.pos_of_mul_pos_right positive))
  have further : 2 ^ 1 ≤ 2 ^ places := Nat.pow_le_pow_right (by decide) (by omega)
  have long := Nat.mul_le_mul leading further
  rw [← shifted, ← Nat.pow_add] at long
  exact absurd rounded.short (Nat.not_lt_of_le long)

/-- A number at a finer place. -/
theorem signedRat_shift (sign : Sign) {magnitude : Magnitude} {place : Int}
    (fine : place ≤ magnitude.exponent) :
    (sign.apply (magnitude.significand <<< (magnitude.exponent - place).toNat : Nat) : Rat) *
      2 ^ place =
      signedRat sign magnitude := by
  obtain ⟨places, sum⟩ := Int.le.dest fine
  have difference : (magnitude.exponent - place).toNat = places := by omega
  rw [difference, Nat.shiftLeft_eq, signedRat, ← sum, two_zpow_add, zpow_natCast]
  cases sign <;> simp only [Sign.apply] <;> push_cast <;> ring

namespace Denotes

variable {content counterpart : UnpackedFloat} {number another : Rat} {result : Float}

theorem contains (denotes : Denotes content number) : Contains content number := by
  obtain ⟨value, rfl, known⟩ := denotes
  exact contains_of_toRat? known

theorem toRat?_eq (denotes : Denotes content number)
    (packed : encoding result = UnpackedFloat.pack binary64 content) :
    toRat? result = some number := by
  obtain ⟨value, rfl, known⟩ := denotes
  rw [unpacked, pack_unpack_of_valid (encoding_valid value)] at packed
  have same : unpacked result = unpacked value := congrArg (UnpackedFloat.unpack binary64) packed
  rw [unpacked_injective same, known]

theorem neg (denotes : Denotes content number) : Denotes content.neg (-number) := by
  obtain ⟨value, rfl, known⟩ := denotes
  obtain ⟨content, negated⟩ := neg_of_toRat? known
  exact ⟨-value, content, negated⟩

theorem zero (sign : Sign) : Denotes (.zero sign) 0 := by
  have positive : Denotes (.zero .positive) 0 := by
    obtain ⟨lowest, same⟩ := magnitude_nearest_zero
    refine ⟨nearest 0, ?_, (roundsTo_nearest 0).exact (Nat.zero_le _)⟩
    rw [unpacked_of_finite (by rw [lowest]; decide), same,
      signOf_of_not_isNegative (plain_nearest 0).1]
    rfl
  cases sign with
  | negative => exact neg_zero (G := Rat) ▸ positive.neg
  | positive => exact positive

theorem normalize {significand exponent : Int}
    (known : toRat? result = some ((significand : Rat) * 2 ^ exponent)) (zeroSign : Sign) :
    Denotes (UnpackedFloat.normalize binary64 significand exponent zeroSign)
      (significand * 2 ^ exponent) := by
  by_cases nothing : significand = 0
  · subst nothing
    rw [Int.cast_zero, zero_mul]
    exact .zero zeroSign
  · exact ⟨result, (normalize_eq_unpacked nothing known zeroSign).symm, known⟩

theorem add (first : Denotes content number) (second : Denotes counterpart another)
    (known : toRat? result = some (number + another)) :
    Denotes (UnpackedFloat.add binary64 content counterpart) (number + another) := by
  cases first.contains with
  | zero sign =>
      rw [zero_add]
      cases second.contains with
      | zero otherSign =>
          obtain ⟨sum, same⟩ := exists_zero_add_zero sign otherSign
          rw [same]
          exact .zero sum
      | finite otherSign other positive canonical => exact second
  | finite sign magnitude positive canonical =>
      cases second.contains with
      | zero otherSign =>
          rw [add_zero]
          exact first
      | finite otherSign other otherPositive otherCanonical =>
          have left := signedRat_shift sign (min_le_left magnitude.exponent other.exponent)
          have right := signedRat_shift otherSign (min_le_right magnitude.exponent other.exponent)
          rw [← left, ← right, ← add_mul, ← Int.cast_add] at known ⊢
          exact .normalize known .positive

theorem sub (first : Denotes content number) (second : Denotes counterpart another)
    (known : toRat? result = some (number - another)) :
    Denotes (UnpackedFloat.sub binary64 content counterpart) (number - another) := by
  rw [sub_eq_add, sub_eq_add_neg]
  exact first.add second.neg (sub_eq_add_neg number another ▸ known)

theorem mul (first : Denotes content number) (second : Denotes counterpart another)
    (known : toRat? result = some (number * another)) :
    Denotes (UnpackedFloat.mul binary64 content counterpart) (number * another) := by
  cases first.contains with
  | zero sign =>
      rw [zero_mul]
      cases second.contains with
      | zero otherSign => exact .zero _
      | finite otherSign other positive canonical => exact .zero _
  | finite sign magnitude positive canonical =>
      cases second.contains with
      | zero otherSign =>
          rw [mul_zero]
          exact .zero _
      | finite otherSign other otherPositive otherCanonical =>
          rw [← signedRat_times] at known ⊢
          have product : 0 < (magnitude.times other).significand :=
            Nat.mul_pos positive otherPositive
          obtain ⟨content, same, nonzero⟩ := unpacked_of_signedRat product known
          have rounded := canonical_magnitude result
          have fine := canonical.times_exponent_le otherCanonical product rounded same
          obtain ⟨places, significand, exponent⟩ := exists_places fine same.symm
          refine ⟨result, ?_, known⟩
          change _ =
            roundWithAccuracy binary64 (sign * otherSign) (magnitude.times other).significand
            (magnitude.times other).exponent .exact
          rw [content, significand, exponent, rounded.roundWithAccuracy_eq nonzero]

end Denotes

section Integers

variable {value other : Float} {number another : Int}

theorem exists_double (small : number.natAbs ≤ 2 ^ 53) :
    ∃ value, toRat? value = some (number : Rat) := by
  obtain ⟨natural, rfl | rfl⟩ := Int.eq_nat_or_neg number
  · exact ⟨nearest natural, (roundsTo_nearest natural).exact small⟩
  · rw [Int.natAbs_neg] at small
    have negated := (neg_of_toRat? ((roundsTo_nearest natural).exact small)).2
    exact ⟨-nearest natural, by rw [negated, Int.cast_neg, Int.cast_natCast]⟩

theorem denotes_of_toRat? {point : Rat} (known : toRat? value = some point) :
    Denotes (unpacked value) point := ⟨value, rfl, known⟩

/-- Sums, differences and products are exact where they are integers that are doubles. -/
theorem toRat?_add (first : toRat? value = some (number : Rat))
    (second : toRat? other = some (another : Rat)) (small : (number + another).natAbs ≤ 2 ^ 53) :
    toRat? (value + other) = some ((number + another : Int) : Rat) := by
  obtain ⟨result, known⟩ := exists_double small
  rw [Int.cast_add] at known ⊢
  exact ((denotes_of_toRat? first).add (denotes_of_toRat? second) known).toRat?_eq rfl

theorem toRat?_sub (first : toRat? value = some (number : Rat))
    (second : toRat? other = some (another : Rat)) (small : (number - another).natAbs ≤ 2 ^ 53) :
    toRat? (value - other) = some ((number - another : Int) : Rat) := by
  obtain ⟨result, known⟩ := exists_double small
  rw [Int.cast_sub] at known ⊢
  exact ((denotes_of_toRat? first).sub (denotes_of_toRat? second) known).toRat?_eq rfl

theorem toRat?_mul (first : toRat? value = some (number : Rat))
    (second : toRat? other = some (another : Rat)) (small : (number * another).natAbs ≤ 2 ^ 53) :
    toRat? (value * other) = some ((number * another : Int) : Rat) := by
  obtain ⟨result, known⟩ := exists_double small
  rw [Int.cast_mul] at known ⊢
  exact ((denotes_of_toRat? first).mul (denotes_of_toRat? second) known).toRat?_eq rfl

theorem toRat?_neg (known : toRat? value = some (number : Rat)) :
    toRat? (-value) = some ((-number : Int) : Rat) := by
  rw [Int.cast_neg]
  exact (neg_of_toRat? known).2

end Integers

end Reckon.Number
