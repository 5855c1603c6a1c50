import Mathlib.Algebra.Group.Nat.Defs
import Reckon.Number.Magnitude

namespace Reckon.Number

/-! Doubles by their fields, and what negation does to them.

A double is put together from a sign, an exponent field and a fraction, and taken
apart again without loss.  Only what is not a number has a single encoding.
-/

open Float.Model Float.Model.UnpackedFloat

abbrev binary64 : Format := Format.binary64

def fields (sign : Sign) (exponent : BitVec 11) (fraction : BitVec 52) : BitVec binary64.numBits :=
  packComponents binary64 sign exponent fraction

section Fields

variable {sign : Sign} {exponent : BitVec 11} {fraction : BitVec 52}

theorem toNat_fields :
    (fields sign exponent fraction).toNat =
      sign.toBitVec.toNat * 2 ^ 63 + exponent.toNat * 2 ^ 52 + fraction.toNat := by
  have exponentBound := exponent.isLt
  have fractionBound := fraction.isLt
  change (sign.toBitVec ++ exponent ++ fraction).toNat = _
  rw [BitVec.toNat_append, BitVec.toNat_append, ← Nat.shiftLeft_add_eq_or_of_lt fractionBound,
    ← Nat.shiftLeft_add_eq_or_of_lt exponentBound, Nat.shiftLeft_eq, Nat.shiftLeft_eq]
  omega

theorem exists_fields (bits : BitVec 64) :
    ∃ sign exponent fraction, bits = fields sign exponent fraction := by
  have bound := bits.isLt
  refine ⟨if bits.toNat < 2 ^ 63 then .positive else .negative,
    BitVec.ofNat 11 (bits.toNat / 2 ^ 52), BitVec.ofNat 52 bits.toNat, BitVec.eq_of_toNat_eq ?_⟩
  rw [toNat_fields, BitVec.toNat_ofNat, BitVec.toNat_ofNat]
  split
  · change _ = 0 * 2 ^ 63 + _ + _
    omega
  · change _ = 1 * 2 ^ 63 + _ + _
    omega

theorem ofBitVec_unpackSign_fields :
    Sign.ofBitVec (unpackSign (fields sign exponent fraction)) = sign := by
  have exponentBound := exponent.isLt
  have fractionBound := fraction.isLt
  have signBound := sign.toBitVec.isLt
  have same : unpackSign (fields sign exponent fraction) = sign.toBitVec := by
    apply BitVec.eq_of_toNat_eq
    change ((fields sign exponent fraction).toNat >>> 63) % 2 = _
    rw [Nat.shiftRight_eq_div_pow, toNat_fields]
    omega
  rw [same]
  cases sign <;> rfl

theorem toNat_implied : (1#1 ++ fraction).toNat = 2 ^ 52 + fraction.toNat := by
  rw [BitVec.toNat_append, ← Nat.shiftLeft_add_eq_or_of_lt fraction.isLt, Nat.shiftLeft_eq]
  simp

theorem toNat_pos_of_ne_zero (nonzero : fraction ≠ 0#52) : 0 < fraction.toNat :=
  Nat.pos_of_ne_zero fun zero => nonzero (BitVec.eq_of_toNat_eq zero)

theorem finite_congr {significand other : Nat} {place : Int} (same : significand = other)
    (positive : 0 < significand) :
    UnpackedFloat.finite sign significand place positive =
      .finite sign other place (same ▸ positive) := by
  subst same
  rfl

/-- What an encoding with the given fields is unpacked to. -/
inductive Unpacks (sign : Sign) (exponent : BitVec 11) (fraction : BitVec 52) :
    UnpackedFloat → Prop where
  | infinity (top : exponent = -1#11) (cleared : fraction = 0#52) :
      Unpacks sign exponent fraction (.infinity sign)
  | notANumber (top : exponent = -1#11) (content : fraction ≠ 0#52) :
      Unpacks sign exponent fraction .notANumber
  | zero (lowest : exponent = 0#11) (cleared : fraction = 0#52) :
      Unpacks sign exponent fraction (.zero sign)
  | subnormal (lowest : exponent = 0#11) (content : fraction ≠ 0#52) :
      Unpacks sign exponent fraction
        (.finite sign fraction.toNat (-1074) (toNat_pos_of_ne_zero content))
  | normal (below : exponent ≠ -1#11) (above : exponent ≠ 0#11) :
      Unpacks sign exponent fraction
        (.finite sign (2 ^ 52 + fraction.toNat) (exponent.toNat - 1075) (by omega))

theorem exists_unpacks (sign : Sign) (exponent : BitVec 11) (fraction : BitVec 52) :
    ∃ value, Unpacks sign exponent fraction value := by
  by_cases top : exponent = -1#11
  · by_cases cleared : fraction = 0#52
    · exact ⟨_, .infinity top cleared⟩
    · exact ⟨_, .notANumber top cleared⟩
  · by_cases lowest : exponent = 0#11
    · by_cases cleared : fraction = 0#52
      · exact ⟨_, .zero lowest cleared⟩
      · exact ⟨_, .subnormal lowest cleared⟩
    · exact ⟨_, .normal top lowest⟩

namespace Unpacks

variable {value : UnpackedFloat}

theorem unpack_eq (unpacks : Unpacks sign exponent fraction value) :
    UnpackedFloat.unpack binary64 (fields sign exponent fraction) = value := by
  have signSame : Sign.ofBitVec (unpackSign (fields sign exponent fraction)) = sign :=
    ofBitVec_unpackSign_fields
  have exponentSame : unpackExponent (fields sign exponent fraction) = exponent :=
    unpackExponent_packComponents
  have fractionSame : unpackMantissa (fields sign exponent fraction) = fraction :=
    unpackMantissa_packComponents
  have implied : (1#1 ++ unpackMantissa (fields sign exponent fraction)).toNat =
      (1#1 ++ fraction).toNat := congrArg (fun content => (1#1 ++ content).toNat) fractionSame
  unfold UnpackedFloat.unpack
  dsimp only
  rw [signSame, exponentSame]
  cases unpacks with
  | infinity top cleared => rw [if_pos top, if_pos (fractionSame.trans cleared)]
  | notANumber top content => rw [if_pos top, if_neg (mt fractionSame.symm.trans content)]
  | zero lowest cleared =>
      subst lowest
      rw [if_neg (by decide), if_pos rfl, dif_pos (fractionSame.trans cleared)]
  | subnormal lowest content =>
      subst lowest
      rw [if_neg (by decide), if_pos rfl, dif_neg (mt fractionSame.symm.trans content)]
      exact finite_congr (congrArg BitVec.toNat fractionSame) _
  | normal below above =>
      rw [if_neg below, if_neg above]
      exact finite_congr (implied.trans toNat_implied) _

/-- Negation turns the sign over, except of what is not a number. -/
theorem neg (unpacks : Unpacks sign exponent fraction value) :
    Unpacks (-sign) exponent fraction value.neg := by
  cases unpacks with
  | infinity top cleared => exact .infinity top cleared
  | notANumber top content => exact .notANumber top content
  | zero lowest cleared => exact .zero lowest cleared
  | subnormal lowest content => exact .subnormal lowest content
  | normal below above => exact .normal below above

end Unpacks

theorem pack_subnormal {significand : Nat} (positive : 0 < significand)
    (short : significand < 2 ^ 52) :
    UnpackedFloat.pack binary64 (.finite sign significand (-1074) positive) =
      fields sign 0#11 (BitVec.ofNat 52 significand) := by
  have bits : significand.log2 < 52 := (Nat.log2_lt (Nat.ne_of_gt positive)).mpr short
  unfold UnpackedFloat.pack
  dsimp only
  split
  · rename_i passed
    exact absurd passed (by decide)
  · split
    · rename_i normal
      change significand.log2 + 1 = 53 at normal
      omega
    · rfl

theorem pack_normal {field fraction : Nat} (positive : 0 < field) (finite : field < 2047)
    (short : fraction < 2 ^ 52) :
    UnpackedFloat.pack binary64 (.finite sign (2 ^ 52 + fraction) (field - 1075) (by omega)) =
      fields sign (BitVec.ofNat 11 field) (BitVec.ofNat 52 fraction) := by
  have lower : 52 ≤ (2 ^ 52 + fraction).log2 := (Nat.le_log2 (by omega)).mpr (by omega)
  have upper : (2 ^ 52 + fraction).log2 < 53 := (Nat.log2_lt (by omega)).mpr (by omega)
  have biased : ((field : Int) - 1075 + 1023 + 52).toNat = field := by omega
  unfold UnpackedFloat.pack
  dsimp only
  split
  · rename_i passed
    change 2 ^ 11 ≤ ((field : Int) - 1075 + 1023 + 52).toNat + 1 at passed
    omega
  · split
    · change packComponents binary64 sign (BitVec.ofNat 11 ((field : Int) - 1075 + 1023 + 52).toNat)
        (BitVec.ofNat 52 (2 ^ 52 + fraction)) = _
      rw [biased, fields, BitVec.ofNat_add]
      congr 1
      apply BitVec.eq_of_toNat_eq
      rw [BitVec.toNat_add, BitVec.toNat_ofNat]
      omega
    · rename_i subnormal
      change ¬ (2 ^ 52 + fraction).log2 + 1 = 53 at subnormal
      omega

theorem pack_unpack_fields (number : exponent = -1#11 → fraction = 0#52) :
    UnpackedFloat.pack binary64 (UnpackedFloat.unpack binary64 (fields sign exponent fraction)) =
      fields sign exponent fraction := by
  obtain ⟨value, unpacks⟩ := exists_unpacks sign exponent fraction
  rw [unpacks.unpack_eq]
  cases unpacks with
  | infinity top cleared =>
      rw [top, cleared]
      rfl
  | notANumber top content => exact absurd (number top) content
  | zero lowest cleared =>
      rw [lowest, cleared]
      rfl
  | subnormal lowest content =>
      rw [pack_subnormal _ fraction.isLt, lowest, BitVec.ofNat_toNat, BitVec.setWidth_eq]
  | normal below above =>
      have exponentBound := exponent.isLt
      have positive : 0 < exponent.toNat :=
        Nat.pos_of_ne_zero fun zero => above (BitVec.eq_of_toNat_eq zero)
      have finite : exponent.toNat ≠ 2047 := fun top => below (BitVec.eq_of_toNat_eq top)
      rw [pack_normal positive (by omega) fraction.isLt, BitVec.ofNat_toNat, BitVec.setWidth_eq,
        BitVec.ofNat_toNat, BitVec.setWidth_eq]

end Fields

/-- What is not a number has only one encoding in a double, and so is not altered either. -/
theorem pack_unpack_of_valid {bits : BitVec binary64.numBits} (valid : binary64.Valid bits) :
    UnpackedFloat.pack binary64 (UnpackedFloat.unpack binary64 bits) = bits := by
  obtain ⟨sign, exponent, fraction, rfl⟩ := exists_fields bits
  by_cases number : exponent = -1#11 → fraction = 0#52
  · exact pack_unpack_fields number
  · obtain ⟨top, content⟩ := Classical.not_imp.mp number
    have canonical := valid.eq_packedNaN
      (by rw [fields, unpackExponent_packComponents]; exact top)
      (by rw [fields, unpackMantissa_packComponents]; exact content)
    rw [(Unpacks.notANumber top content).unpack_eq, canonical]
    rfl

theorem ofBits_toBits (value : Float) : Float.ofBits value.toBits = value := by
  obtain ⟨⟨bits, valid⟩⟩ := value
  change Float.ofModel (Float.Model.ofBits bits) = _
  rw [Float.ofModel.injEq, Float.Model.mk.injEq]
  exact congrArg UInt64.ofBitVec (pack_unpack_of_valid valid)

def encoding (value : Float) : BitVec binary64.numBits := value.toBits.toBitVec

theorem encoding_valid (value : Float) : binary64.Valid (encoding value) := value.toModel.valid

theorem encoding_neg (value : Float) :
    encoding (-value) =
      UnpackedFloat.pack binary64 (UnpackedFloat.unpack binary64 (encoding value)).neg :=
  rfl

def HasFields (value : Float) (sign : Sign) (exponent : BitVec 11) (fraction : BitVec 52) : Prop :=
  encoding value = fields sign exponent fraction

theorem exists_hasFields (value : Float) :
    ∃ sign exponent fraction, HasFields value sign exponent fraction :=
  exists_fields (encoding value)

namespace HasFields

variable {value other : Float} {sign : Sign} {exponent : BitVec 11} {fraction : BitVec 52}

theorem eq (has : HasFields value sign exponent fraction)
    (hasOther : HasFields other sign exponent fraction) : value = other := by
  rw [← ofBits_toBits value, ← ofBits_toBits other]
  exact congrArg Float.ofBits (UInt64.eq_of_toBitVec_eq (has.trans hasOther.symm))

theorem toNat_toBits (has : HasFields value sign exponent fraction) :
    value.toBits.toNat =
      sign.toBitVec.toNat * 2 ^ 63 + exponent.toNat * 2 ^ 52 + fraction.toNat := by
  exact (congrArg BitVec.toNat has).trans toNat_fields

theorem fractionField_eq (has : HasFields value sign exponent fraction) :
    fractionField value = fraction.toNat := by
  have bound := fraction.isLt
  rw [fractionField, has.toNat_toBits, fractionBits]
  omega

theorem exponentField_eq (has : HasFields value sign exponent fraction) :
    exponentField value = exponent.toNat := by
  have bound := fraction.isLt
  have exponentBound := exponent.isLt
  rw [exponentField, has.toNat_toBits, fractionBits, topExponentField]
  omega

theorem isNegative_iff (has : HasFields value sign exponent fraction) :
    isNegative value = true ↔ sign = .negative := by
  have bound := fraction.isLt
  have exponentBound := exponent.isLt
  rw [isNegative, decide_eq_true_iff, has.toNat_toBits]
  cases sign with
  | negative =>
      have one : Sign.negative.toBitVec.toNat = 1 := rfl
      simp only [iff_true]
      omega
  | positive =>
      have zero : Sign.positive.toBitVec.toNat = 0 := rfl
      simp only [reduceCtorEq, iff_false]
      omega

theorem neg (has : HasFields value sign exponent fraction)
    (number : exponent = -1#11 → fraction = 0#52) :
    HasFields (-value) (-sign) exponent fraction := by
  obtain ⟨content, unpacks⟩ := exists_unpacks sign exponent fraction
  rw [HasFields, encoding_neg, has, unpacks.unpack_eq, ← unpacks.neg.unpack_eq,
    pack_unpack_fields number]

theorem eq_packedNaN (has : HasFields value sign exponent fraction)
    (invalid : ¬ (exponent = -1#11 → fraction = 0#52)) :
    encoding value = packedNaN binary64 := by
  obtain ⟨top, content⟩ := Classical.not_imp.mp invalid
  apply (encoding_valid value).eq_packedNaN
  · rw [has, fields, unpackExponent_packComponents, top]
  · rw [has, fields, unpackMantissa_packComponents]
    exact content

theorem number_of_isNegative (has : HasFields value sign exponent fraction)
    (negative : isNegative value = true) : exponent = -1#11 → fraction = 0#52 := by
  apply Classical.byContradiction
  intro invalid
  have canonical : HasFields value .positive (-1#11) (1#52 <<< 51) := has.eq_packedNaN invalid
  cases canonical.isNegative_iff.mp negative

theorem neg_of_invalid (has : HasFields value sign exponent fraction)
    (invalid : ¬ (exponent = -1#11 → fraction = 0#52)) : -value = value := by
  obtain ⟨top, content⟩ := Classical.not_imp.mp invalid
  refine HasFields.eq ?_ has
  rw [HasFields, ← has, has.eq_packedNaN invalid, encoding_neg, has,
    (Unpacks.notANumber top content).unpack_eq]
  rfl

end HasFields

theorem neg_neg (value : Float) : -(-value) = value := by
  obtain ⟨sign, exponent, fraction, has⟩ := exists_hasFields value
  by_cases number : exponent = -1#11 → fraction = 0#52
  · have back := (has.neg number).neg number
    rw [show - -sign = sign by cases sign <;> rfl] at back
    exact back.eq has
  · rw [has.neg_of_invalid number, has.neg_of_invalid number]

theorem fields_neg {value : Float} (negative : isNegative value = true) :
    isNegative (-value) = false ∧ exponentField (-value) = exponentField value ∧
      fractionField (-value) = fractionField value := by
  obtain ⟨sign, exponent, fraction, has⟩ := exists_hasFields value
  have negated := has.neg (has.number_of_isNegative negative)
  refine ⟨?_, negated.exponentField_eq.trans has.exponentField_eq.symm,
    negated.fractionField_eq.trans has.fractionField_eq.symm⟩
  rw [Bool.eq_false_iff, ne_eq, negated.isNegative_iff, has.isNegative_iff.mp negative]
  exact fun same => by cases same

theorem toNat_toBits_of_not_isNegative {value : Float} (positive : isNegative value = false) :
    value.toBits.toNat = exponentField value * 2 ^ fractionBits + fractionField value := by
  obtain ⟨sign, exponent, fraction, has⟩ := exists_hasFields value
  have clear : sign = .positive := by
    cases sign with
    | positive => rfl
    | negative => rw [has.isNegative_iff.mpr rfl] at positive; cases positive
  rw [has.toNat_toBits, has.exponentField_eq, has.fractionField_eq, clear, fractionBits,
    show Sign.positive.toBitVec.toNat = 0 from rfl, Nat.zero_mul, Nat.zero_add]

end Reckon.Number
