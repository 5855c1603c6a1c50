import Reckon.Proofs.ReadBack

namespace Reckon.Number

/-! Numbers without a sign bit.

Such numbers are equal only where they are the same double: the zeros differ in the
sign bit, and what is not a number is left out.  Every run of digits denotes one, which
is a whole number or past the largest double.
-/

open Float.Model Float.Model.UnpackedFloat

def Plain (value : Float) : Prop := isNegative value = false ∧ view value ≠ .notANumber

section Comparison

variable {value other : Float} {content counterpart : UnpackedFloat}

def unpacked (value : Float) : UnpackedFloat := UnpackedFloat.unpack binary64 (encoding value)

theorem unpacked_injective (same : unpacked value = unpacked other) : value = other := by
  have packed := congrArg (UnpackedFloat.pack binary64) same
  rw [unpacked, unpacked, pack_unpack_of_valid (encoding_valid value),
    pack_unpack_of_valid (encoding_valid other)] at packed
  rw [← ofBits_toBits value, ← ofBits_toBits other]
  exact congrArg Float.ofBits (UInt64.eq_of_toBitVec_eq packed)

theorem beq_iff_compare :
    (value == other) = true ↔ (unpacked value).compare (unpacked other) = some .eq := by
  change ((unpacked value).compare (unpacked other) == some .eq) = true ↔ _
  exact beq_iff_eq

/-- What remains of a double that is a number without a sign bit. -/
inductive Unsigned : UnpackedFloat → Prop where
  | infinity : Unsigned (.infinity .positive)
  | zero : Unsigned (.zero .positive)
  | finite (significand : Nat) (place : Int) (positive : 0 < significand) :
      Unsigned (.finite .positive significand place positive)

theorem Plain.unsigned (plain : Plain value) : Unsigned (unpacked value) := by
  obtain ⟨clear, number⟩ := plain
  obtain ⟨sign, exponent, fraction, has⟩ := exists_hasFields value
  obtain ⟨content, unpacks⟩ := exists_unpacks sign exponent fraction
  have positive : sign = .positive := by
    cases sign with
    | positive => rfl
    | negative => cases (has.isNegative_iff.mpr rfl).symm.trans clear
  have same : unpacked value = content := by rw [unpacked, has, unpacks.unpack_eq]
  subst positive
  rw [same]
  cases unpacks with
  | infinity _ _ => exact .infinity
  | notANumber top broken =>
      have topField : exponentField value = topExponentField := by
        rw [has.exponentField_eq, top]
        rfl
      have field : fractionField value ≠ 0 := by
        rw [has.fractionField_eq]
        exact Nat.ne_of_gt (toNat_pos_of_ne_zero broken)
      rw [view, if_pos topField, if_neg field] at number
      exact absurd rfl number
  | zero _ _ => exact .zero
  | subnormal _ _ => exact .finite _ _ _
  | normal _ _ => exact .finite _ _ _

theorem Unsigned.compare_eq_iff (unsigned : Unsigned content) (other : Unsigned counterpart) :
    content.compare counterpart = some .eq ↔ content = counterpart := by
  cases unsigned with
  | infinity =>
      cases other with
      | infinity => exact ⟨fun _ => rfl, fun _ => rfl⟩
      | zero => exact ⟨nofun, nofun⟩
      | finite => exact ⟨nofun, nofun⟩
  | zero =>
      cases other with
      | infinity => exact ⟨nofun, nofun⟩
      | zero => exact ⟨fun _ => rfl, fun _ => rfl⟩
      | finite => exact ⟨nofun, nofun⟩
  | finite significand place positive =>
      cases other with
      | infinity => exact ⟨nofun, nofun⟩
      | zero => exact ⟨nofun, nofun⟩
      | finite otherSignificand otherPlace otherPositive =>
          constructor
          · intro same
            obtain ⟨places, significands⟩ := Ordering.then_eq_eq.mp (Option.some.inj same)
            obtain rfl := Int.compare_eq_eq.mp places
            obtain rfl := Nat.compare_eq_eq.mp significands
            rfl
          · intro same
            cases same
            exact congrArg some
              (Ordering.then_eq_eq.mpr ⟨Int.compare_eq_eq.mpr rfl, Nat.compare_eq_eq.mpr rfl⟩)

theorem Plain.beq_iff_eq (plain : Plain value) (otherPlain : Plain other) :
    (value == other) = true ↔ value = other := by
  rw [beq_iff_compare, plain.unsigned.compare_eq_iff otherPlain.unsigned]
  exact ⟨unpacked_injective, congrArg unpacked⟩

end Comparison

section Nearest

variable {number : Nat}

theorem toBits_ofBits {bits : UInt64} (number : bits.toNat ≤ infinityBits) :
    (Float.ofBits bits).toBits = bits := by
  obtain ⟨sign, exponent, fraction, same⟩ := exists_fields bits.toBitVec
  have total :
      bits.toNat = sign.toBitVec.toNat * 2 ^ 63 + exponent.toNat * 2 ^ 52 + fraction.toNat :=
    (congrArg BitVec.toNat same).trans toNat_fields
  have canonical : exponent = -1#11 → fraction = 0#52 := by
    intro top
    have field : exponent.toNat = 2047 := congrArg BitVec.toNat top
    rw [infinityBits, topExponentField, fractionBits] at number
    apply BitVec.eq_of_toNat_eq
    change fraction.toNat = 0
    omega
  apply UInt64.eq_of_toBitVec_eq
  change UnpackedFloat.pack binary64 (UnpackedFloat.unpack binary64 bits.toBitVec) = bits.toBitVec
  rw [same]
  exact pack_unpack_fields canonical

theorem toNat_toBits_nearest (number : Nat) :
    (nearest number).toBits.toNat = nearestBits number := by
  have bound := nearestBits_le number
  have small : nearestBits number < 2 ^ 64 := Nat.lt_of_le_of_lt bound (by decide)
  have same : (UInt64.ofNat (nearestBits number)).toNat = nearestBits number :=
    UInt64.toNat_ofNat_of_lt' small
  rw [nearest, toBits_ofBits (by rw [same]; exact bound), same]

theorem plain_nearest (number : Nat) : Plain (nearest number) := by
  have bound := nearestBits_le number
  have total := toNat_toBits_nearest number
  have fraction : fractionField (nearest number) = nearestBits number % 2 ^ fractionBits := by
    rw [fractionField, total]
  have exponent : exponentField (nearest number) =
      nearestBits number / 2 ^ fractionBits % (topExponentField + 1) := by
    rw [exponentField, total]
  rw [infinityBits, topExponentField, fractionBits] at bound
  rw [topExponentField, fractionBits] at exponent
  rw [fractionBits] at fraction
  constructor
  · rw [isNegative, total]
    exact decide_eq_false (by omega)
  · rw [view]
    split
    · rename_i top
      rw [topExponentField] at top
      rw [if_pos (by omega)]
      exact fun same => by cases same
    · exact fun same => by cases same

theorem div_le_divideToNearest (dividend divisor : Nat) :
    dividend / divisor ≤ divideToNearest dividend divisor := by
  rw [divideToNearest]
  split
  · exact Nat.le_refl _
  · exact Nat.le_succ _

theorem divideToNearest_mul (whole : Nat) {divisor : Nat} (positive : 0 < divisor) :
    divideToNearest (whole * divisor) divisor = whole := by
  rw [divideToNearest, Nat.mul_div_cancel _ positive, Nat.mul_mod_left]
  exact if_pos (.inl positive)

/-- From `2 ^ 52` on, the last place of a double is no less than one. -/
theorem magnitude_whole_of_long (nonzero : number ≠ 0) (long : fractionBits ≤ number.log2)
    (finite : nearestBits number < infinityBits) : (magnitude (nearest number)).Whole := by
  have total := toNat_toBits_nearest number
  have power : 2 ^ number.log2 ≤ number := Nat.log2_self_le nonzero
  have significand : 2 ^ fractionBits ≤
      divideToNearest (number * 2 ^ fractionBits) (2 ^ number.log2) := by
    refine Nat.le_trans ?_ (div_le_divideToNearest _ _)
    rw [Nat.le_div_iff_mul_le (Nat.two_pow_pos _), Nat.mul_comm]
    exact Nat.mul_le_mul_right _ power
  apply Magnitude.whole_of_nonneg
  rw [nearestBits, if_neg nonzero] at total finite
  have field : 1075 ≤ exponentField (nearest number) := by
    rw [exponentField, total, topExponentField]
    rw [infinityBits, topExponentField] at finite ⊢
    simp only [fractionBits] at *
    omega
  rw [magnitude]
  split
  · omega
  · change 0 ≤ (-1074 : Int) + _
    omega

/-- A number below `2 ^ 53` is a double itself. -/
theorem magnitude_whole_of_short (nonzero : number ≠ 0) (short : number.log2 < fractionBits) :
    (magnitude (nearest number)).Whole := by
  have total := toNat_toBits_nearest number
  have power : 2 ^ number.log2 ≤ number := Nat.log2_self_le nonzero
  have next : number < 2 ^ (number.log2 + 1) := Nat.lt_log2_self
  obtain ⟨rest, places⟩ := Nat.exists_eq_add_of_le (Nat.le_of_lt short)
  have positive : 0 < 2 ^ rest := Nat.two_pow_pos rest
  have lower : 2 ^ fractionBits ≤ number * 2 ^ rest := by
    rw [places, Nat.pow_add]
    exact Nat.mul_le_mul_right _ power
  have upper : number * 2 ^ rest < 2 ^ (fractionBits + 1) := by
    rw [places, Nat.add_right_comm, Nat.pow_add]
    exact Nat.mul_lt_mul_of_pos_right next positive
  have significand : divideToNearest (number * 2 ^ fractionBits) (2 ^ number.log2) =
      number * 2 ^ rest := by
    rw [places, Nat.pow_add, Nat.mul_comm (2 ^ _), ← Nat.mul_assoc]
    exact divideToNearest_mul _ (Nat.two_pow_pos _)
  rw [nearestBits, if_neg nonzero, significand, infinityBits, topExponentField, Nat.min_eq_left
    (by simp only [fractionBits] at *; omega)] at total
  have field : exponentField (nearest number) = number.log2 + 1022 + 1 := by
    rw [exponentField, total, topExponentField]
    simp only [fractionBits] at *
    omega
  have fraction : fractionField (nearest number) + 2 ^ fractionBits = number * 2 ^ rest := by
    rw [fractionField, total]
    simp only [fractionBits] at *
    omega
  have exponent : leastExponent + ↑(number.log2 + 1022) = -(rest : Int) := by
    rw [leastExponent]
    rw [fractionBits] at places
    omega
  rw [magnitude, field]
  dsimp only
  refine ⟨number, ?_⟩
  rw [exponent, Nat.add_comm, fraction, Magnitude.parts, Magnitude.unit_of_nonpos (by simp),
    Nat.mul_one]
  simp

theorem view_nearest_of_infinityBits (passed : nearestBits number = infinityBits) :
    view (nearest number) = .infinite false := by
  have total := (toNat_toBits_nearest number).trans passed
  have top : exponentField (nearest number) = topExponentField := by
    rw [exponentField, total]
    rfl
  have cleared : fractionField (nearest number) = 0 := by
    rw [fractionField, total]
    rfl
  rw [view, if_pos top, if_pos cleared, (plain_nearest number).1]

/-- A run of digits denotes a whole number, or passes the largest double. -/
theorem whole_or_infinite_nearest (number : Nat) :
    Whole (nearest number) ∨ view (nearest number) = .infinite false := by
  rcases Nat.lt_or_eq_of_le (nearestBits_le number) with finite | passed
  · have total := toNat_toBits_nearest number
    refine .inl (whole_iff.mpr ⟨?_, ?_⟩)
    · rw [exponentField, total]
      rw [infinityBits, topExponentField, fractionBits] at finite
      rw [topExponentField, fractionBits]
      omega
    · by_cases zero : number = 0
      · subst zero
        rw [nearestBits_zero] at total
        have field : exponentField (nearest 0) = 0 := by
          rw [exponentField, total, Nat.zero_div]
          rfl
        have fraction : fractionField (nearest 0) = 0 := by rw [fractionField, total, Nat.zero_mod]
        rw [magnitude, field]
        exact ⟨0, by simp [fraction]⟩
      · by_cases short : number.log2 < fractionBits
        · exact magnitude_whole_of_short zero short
        · exact magnitude_whole_of_long zero (Nat.le_of_not_lt short) finite
  · exact .inr (view_nearest_of_infinityBits passed)

end Nearest

end Reckon.Number
