import Reckon.Proofs.Rationals
import Reckon.Proofs.Relocation

namespace Reckon

namespace Number

/-! Rounding a natural number to a double.

Between two powers of two doubles are as far apart as their last place.  The number is
rounded to a multiple of it, and no double outside is nearer than the power of two below,
which is such a multiple itself.
-/

theorem isNearest_divideToNearest (dividend : Nat) {divisor : Nat} (positive : 0 < divisor) :
    IsNearest dividend divisor (divideToNearest dividend divisor) := by
  have division := Nat.div_add_mod dividend divisor
  have remainder := Nat.mod_lt dividend positive
  rw [divideToNearest]
  generalize dividend / divisor = quotient at division ⊢
  generalize dividend % divisor = rest at division remainder ⊢
  rw [Nat.mul_comm divisor] at division
  have next : (quotient + 1) * divisor = quotient * divisor + divisor := Nat.succ_mul ..
  split <;> constructor <;> omega

theorem divideToNearest_le {dividend larger divisor : Nat} (le : dividend ≤ larger)
    (positive : 0 < divisor) :
    divideToNearest dividend divisor ≤ divideToNearest larger divisor := by
  obtain ⟨first, _, firstOdd⟩ := isNearest_divideToNearest dividend positive
  obtain ⟨_, second, secondOdd⟩ := isNearest_divideToNearest larger positive
  generalize divideToNearest dividend divisor = whole at *
  generalize divideToNearest larger divisor = other at *
  by_contra beyond
  rcases Nat.lt_or_eq_of_le (Nat.lt_of_not_le beyond) with further | rfl
  · have passed := Nat.mul_le_mul_right divisor further
    rw [Nat.succ_mul, Nat.succ_mul] at passed
    omega
  -- Of two neighbours one is odd, and no number halfway between them is rounded to that.
  · have next := Nat.succ_mul other divisor
    omega

/-- A number as a multiple of its last place.  This is its significand, unless it is carried
into the next binade. -/
def roundedSteps (number : Nat) : Nat :=
  divideToNearest (number * 2 ^ fractionBits) (2 ^ number.log2)

/-- The last place of the doubles around a number. -/
def lastPlace (number : Nat) : Rat := 2 ^ (number.log2 - 52 : Int)

section Order

variable {number other : Nat}

theorem isNearest_roundedSteps (number : Nat) :
    IsNearest (number * 2 ^ fractionBits) (2 ^ number.log2) (roundedSteps number) :=
  isNearest_divideToNearest _ (Nat.two_pow_pos _)

theorem nearestBits_of_ne_zero (nonzero : number ≠ 0) :
    nearestBits number =
      min ((number.log2 + 1022) * 2 ^ fractionBits + roundedSteps number) infinityBits := by
  rw [nearestBits, if_neg nonzero]
  rfl

theorem le_roundedSteps (nonzero : number ≠ 0) : 2 ^ fractionBits ≤ roundedSteps number := by
  refine Nat.le_trans ?_ (div_le_divideToNearest _ _)
  rw [Nat.le_div_iff_mul_le (Nat.two_pow_pos _), Nat.mul_comm]
  exact Nat.mul_le_mul_right _ (Nat.log2_self_le nonzero)

theorem roundedSteps_le (number : Nat) : roundedSteps number ≤ 2 ^ (fractionBits + 1) := by
  have positive : 0 < 2 ^ number.log2 := Nat.two_pow_pos _
  have next : number < 2 ^ (number.log2 + 1) := Nat.lt_log2_self
  have lower := (isNearest_roundedSteps number).lower
  rw [Nat.pow_succ, Nat.mul_comm] at next
  simp only [fractionBits] at lower ⊢
  by_contra beyond
  have passed := Nat.mul_le_mul_right (2 ^ number.log2) (Nat.lt_of_not_le beyond)
  rw [Nat.succ_mul] at passed
  omega

/-- Rounding keeps the order of numbers. -/
theorem nearestBits_mono (le : number ≤ other) : nearestBits number ≤ nearestBits other := by
  by_cases zero : number = 0
  · rw [zero, nearestBits_zero]
    exact Nat.zero_le _
  have otherNonzero : other ≠ 0 := by omega
  have upper := roundedSteps_le number
  have lower := le_roundedSteps otherNonzero
  rw [nearestBits_of_ne_zero zero, nearestBits_of_ne_zero otherNonzero]
  have length : number.log2 ≤ other.log2 :=
    (Nat.le_log2 otherNonzero).mpr (Nat.le_trans (Nat.log2_self_le zero) le)
  have bits : (number.log2 + 1022) * 2 ^ fractionBits + roundedSteps number ≤
      (other.log2 + 1022) * 2 ^ fractionBits + roundedSteps other := by
    rcases Nat.lt_or_eq_of_le length with shorter | same
    · simp only [fractionBits] at *
      omega
    · rw [roundedSteps, roundedSteps, same]
      exact Nat.add_le_add_left
        (divideToNearest_le (Nat.mul_le_mul_right _ le) (Nat.two_pow_pos _)) _
  exact Nat.le_min.mpr ⟨Nat.le_trans (Nat.min_le_left _ _) bits, Nat.min_le_right _ _⟩

theorem nearest_le_nearest (le : number ≤ other) : nearest number ≤ nearest other := by
  apply (plain_nearest number).le_of_bits (plain_nearest other)
  rw [toNat_toBits_nearest, toNat_toBits_nearest]
  exact nearestBits_mono le

end Order

section Value

variable {number : Nat}

theorem lastPlace_pos (number : Nat) : 0 < lastPlace number := two_zpow_pos _

theorem two_pow_log2 (number : Nat) : (2 : Rat) ^ number.log2 = 2 ^ 52 * lastPlace number := by
  rw [lastPlace, ← zpow_natCast, ← zpow_natCast, ← two_zpow_add]
  congr 1
  push_cast
  ring

theorem field_lt {field significand : Nat} (leading : 2 ^ fractionBits ≤ significand)
    (finite : field * 2 ^ fractionBits + significand < infinityBits) :
    field + 1 < topExponentField := by
  apply Nat.lt_of_mul_lt_mul_right (a := 2 ^ fractionBits)
  rw [Nat.succ_mul]
  exact Nat.lt_of_le_of_lt (Nat.add_le_add_left leading _) finite

theorem magnitude_of_bits {value : Float} {field significand : Nat}
    (bits : value.toBits.toNat = field * 2 ^ fractionBits + significand)
    (leading : 2 ^ fractionBits ≤ significand) (short : significand < 2 ^ (fractionBits + 1))
    (finite : field * 2 ^ fractionBits + significand < infinityBits) :
    exponentField value ≠ topExponentField ∧
      magnitude value = ⟨significand, leastExponent + field⟩ := by
  have bound := field_lt leading finite
  simp only [fractionBits, topExponentField] at *
  have known : exponentField value = field + 1 := by
    rw [exponentField, bits, topExponentField, fractionBits]
    omega
  have fraction : fractionField value = significand - 2 ^ 52 := by
    rw [fractionField, bits, fractionBits]
    omega
  refine ⟨by rw [known]; omega, ?_⟩
  rw [magnitude_of_normal known, fraction, fractionBits, Nat.add_sub_cancel' leading]

theorem nearestBits_of_lt (nonzero : number ≠ 0) (finite : nearestBits number < infinityBits) :
    nearestBits number = (number.log2 + 1022) * 2 ^ fractionBits + roundedSteps number := by
  rw [nearestBits_of_ne_zero nonzero] at finite ⊢
  generalize (number.log2 + 1022) * 2 ^ fractionBits = base at finite ⊢
  generalize infinityBits = limit at finite ⊢
  omega

theorem roundedSteps_zero : roundedSteps 0 = 0 := rfl

theorem magnitude_nearest_zero :
    exponentField (nearest 0) = 0 ∧ magnitude (nearest 0) = ⟨0, leastExponent⟩ := by
  have bits := toNat_toBits_nearest 0
  rw [nearestBits_zero] at bits
  have lowest : exponentField (nearest 0) = 0 := by
    rw [exponentField, bits, Nat.zero_div, Nat.zero_mod]
  have cleared : fractionField (nearest 0) = 0 := by rw [fractionField, bits, Nat.zero_mod]
  rw [magnitude_of_subnormal lowest, cleared]
  exact ⟨lowest, rfl⟩

/-- A number that is carried into the next binade is the power of two there. -/
theorem magnitude_nearest (nonzero : number ≠ 0) (finite : nearestBits number < infinityBits) :
    exponentField (nearest number) ≠ topExponentField ∧
      (magnitude (nearest number) = ⟨roundedSteps number, number.log2 - 52⟩ ∨
        roundedSteps number = 2 ^ (fractionBits + 1) ∧
          magnitude (nearest number) = ⟨2 ^ fractionBits, number.log2 - 51⟩) := by
  have total := toNat_toBits_nearest number
  rw [nearestBits_of_lt nonzero finite] at total finite
  rcases Nat.lt_or_eq_of_le (roundedSteps_le number) with short | carried
  · obtain ⟨bound, same⟩ := magnitude_of_bits total (le_roundedSteps nonzero) short finite
    have place : leastExponent + ↑(number.log2 + 1022) = (number.log2 : Int) - 52 := by
      rw [leastExponent]
      omega
    exact ⟨bound, .inl (place ▸ same)⟩
  · rw [carried, Nat.pow_succ, Nat.mul_two, ← Nat.add_assoc, ← Nat.succ_mul] at total finite
    obtain ⟨bound, same⟩ := magnitude_of_bits total le_rfl (by decide) finite
    have place : leastExponent + ↑(number.log2 + 1022 + 1) = (number.log2 : Int) - 51 := by
      rw [leastExponent]
      omega
    exact ⟨bound, .inr ⟨carried, place ▸ same⟩⟩

/-- The number that is rounded to, while it is not past the largest double. -/
theorem toRat?_nearest (finite : nearestBits number < infinityBits) :
    toRat? (nearest number) = some (roundedSteps number * lastPlace number) ∧
      (magnitude (nearest number)).significand % 2 = roundedSteps number % 2 := by
  have positive := (plain_nearest number).1
  by_cases zero : number = 0
  · obtain ⟨lowest, same⟩ := magnitude_nearest_zero
    subst zero
    rw [toRat?_of_not_isNegative positive (by rw [lowest]; decide), same, roundedSteps_zero,
      Magnitude.toRat, Nat.cast_zero, zero_mul, zero_mul]
    exact ⟨rfl, rfl⟩
  · obtain ⟨bound, same | ⟨carried, same⟩⟩ := magnitude_nearest zero finite
    · rw [toRat?_of_not_isNegative positive bound, same]
      exact ⟨rfl, rfl⟩
    · have place : (number.log2 : Int) - 51 = number.log2 - 52 + 1 := by omega
      rw [toRat?_of_not_isNegative positive bound, same, carried, Magnitude.toRat, lastPlace, place,
        two_zpow_add, fractionBits]
      constructor
      · push_cast
        ring_nf
      · change 2 ^ 52 % 2 = 2 ^ 53 % 2
        decide

end Value

/-- A number is at most half a place from a multiple of it, and less where that is odd. -/
structure WithinHalf (steps : Nat) (place number : Rat) : Prop where
  half : 2 * |steps * place - number| ≤ place
  odd : steps % 2 = 1 → 2 * |steps * place - number| < place

theorem withinHalf_roundedSteps (number : Nat) :
    WithinHalf (roundedSteps number) (lastPlace number) number := by
  have power := two_pow_log2 number
  obtain ⟨lower, upper, odd⟩ := isNearest_roundedSteps number
  generalize lastPlace number = place at power ⊢
  generalize roundedSteps number = steps at *
  rw [← @Nat.cast_le Rat] at lower upper
  simp only [← @Nat.cast_lt Rat] at odd
  push_cast [power, fractionBits] at lower upper odd
  constructor
  · have bound : |steps * place - number| ≤ place / 2 := abs_le.mpr ⟨by linarith, by linarith⟩
    linarith
  · intro isOdd
    obtain ⟨above, below⟩ := odd isOdd
    have bound : |steps * place - number| < place / 2 := abs_lt.mpr ⟨by linarith, by linarith⟩
    linarith

/-- No other multiple of the place is nearer, nor as near where the first one is odd. -/
theorem WithinHalf.closest {steps : Nat} {place number : Rat}
    (within : WithinHalf steps place number) (positive : 0 < place) (others : Nat) :
    |steps * place - number| ≤ |others * place - number| ∧
      (|others * place - number| = |steps * place - number| → others = steps ∨ steps % 2 = 0) := by
  by_cases same : others = steps
  · rw [same]
    exact ⟨le_rfl, fun _ => .inl rfl⟩
  obtain ⟨half, odd⟩ := within
  have apart : place ≤ |others * place - steps * place| := by
    have whole : (1 : Rat) ≤ |(others : Rat) - steps| := by
      exact_mod_cast Int.one_le_abs
        (sub_ne_zero.mpr (Nat.cast_injective.ne same : (others : Int) ≠ steps))
    rw [← sub_mul, abs_mul, abs_of_pos positive]
    exact le_mul_of_one_le_left positive.le whole
  have triangle := abs_sub_le (others * place) number (steps * place)
  rw [abs_sub_comm number] at triangle
  refine ⟨by linarith, fun equal => .inr ?_⟩
  by_contra isEven
  have less := odd (by omega)
  linarith

section Nearest

variable {number : Nat}

/-- Below the power of two that a number reaches, no double is as near as that. -/
theorem closest_roundedSteps (number : Nat) {other : Float} {point : Rat}
    (same : toRat? other = some point) :
    |roundedSteps number * lastPlace number - number| ≤ |point - number| ∧
      (|point - number| = |roundedSteps number * lastPlace number - number| →
        point = roundedSteps number * lastPlace number ∨ roundedSteps number % 2 = 0) := by
  by_cases zero : number = 0
  · rw [zero, roundedSteps_zero, Nat.cast_zero, zero_mul, sub_zero, sub_zero, abs_zero]
    exact ⟨abs_nonneg point, fun nothing => .inl (abs_eq_zero.mp nothing)⟩
  have within := withinHalf_roundedSteps number
  have power : (2 : Rat) ^ ((number.log2 : Int) - 52 + 52) = 2 ^ number.log2 := by
    rw [sub_add_cancel, zpow_natCast]
  by_cases reached : 2 ^ number.log2 ≤ point
  · rw [← power] at reached
    obtain ⟨others, rfl⟩ := exists_steps_of_toRat? same reached
    obtain ⟨nearer, ties⟩ := within.closest (lastPlace_pos number) others
    refine ⟨nearer, fun equal => (ties equal).imp_left ?_⟩
    rintro rfl
    rfl
  · obtain ⟨nearer, _⟩ := within.closest (lastPlace_pos number) (2 ^ 52)
    have below : (2 : Rat) ^ number.log2 ≤ number := by exact_mod_cast Nat.log2_self_le zero
    rw [Nat.cast_pow, Nat.cast_ofNat, ← two_pow_log2, abs_sub_comm (2 ^ number.log2),
      abs_of_nonneg (sub_nonneg.mpr below)] at nearer
    have further : |point - number| = number - point := by
      rw [abs_sub_comm, abs_of_nonneg (by linarith)]
    rw [further]
    exact ⟨by linarith, fun equal => by linarith⟩

theorem nearestBits_eq_infinityBits_iff_passed (nonzero : number ≠ 0) :
    nearestBits number = infinityBits ↔
      infinityBits ≤ (number.log2 + 1022) * 2 ^ fractionBits + roundedSteps number := by
  rw [nearestBits_of_ne_zero nonzero]
  generalize (number.log2 + 1022) * 2 ^ fractionBits = base
  generalize infinityBits = limit
  omega

/-- A number reaches the binade above from half a last place below it on. -/
theorem le_roundedSteps_iff {place : Nat} (length : 2 ^ number.log2 = 2 ^ 53 * place) :
    2 ^ 53 ≤ roundedSteps number ↔ 2 ^ 54 * place - place ≤ number := by
  have positive : 0 < 2 ^ number.log2 := Nat.two_pow_pos _
  obtain ⟨lower, upper, odd⟩ := isNearest_roundedSteps number
  rw [length, fractionBits] at lower upper odd
  generalize roundedSteps number = steps at *
  have regrouped : steps * (2 ^ 53 * place) = 2 ^ 53 * (steps * place) := Nat.mul_left_comm ..
  rw [regrouped] at lower upper odd
  constructor
  · intro carried
    have scaled := Nat.mul_le_mul_right place carried
    omega
  · intro passed
    by_contra short
    rcases Nat.mod_two_eq_zero_or_one steps with isEven | isOdd
    · have scaled := Nat.mul_le_mul_right place (show steps + 2 ≤ 2 ^ 53 by omega)
      rw [Nat.add_mul] at scaled
      omega
    · have scaled := Nat.mul_le_mul_right place (show steps + 1 ≤ 2 ^ 53 by omega)
      rw [Nat.add_mul] at scaled
      omega

theorem binade_le_iff (nonzero : number ≠ 0) (places : Nat) :
    (places + 1077) * 2 ^ fractionBits ≤
        (number.log2 + 1022) * 2 ^ fractionBits + roundedSteps number ↔
      2 ^ (places + 54) - 2 ^ places ≤ number := by
  have leading := le_roundedSteps nonzero
  have bound := roundedSteps_le number
  have positive : 0 < 2 ^ places := Nat.two_pow_pos _
  have power : 2 ^ (places + 54) = 2 ^ 54 * 2 ^ places := by rw [Nat.pow_add, Nat.mul_comm]
  have half : 2 ^ (places + 53) = 2 ^ 53 * 2 ^ places := by rw [Nat.pow_add, Nat.mul_comm]
  rw [power]
  simp only [fractionBits] at *
  rcases Nat.lt_trichotomy number.log2 (places + 53) with short | same | long
  · have below : number < 2 ^ (places + 53) := (Nat.log2_lt nonzero).mp short
    rw [half] at below
    omega
  · rw [← le_roundedSteps_iff (same ▸ half), same]
    omega
  · have above : 2 ^ (places + 54) ≤ number := (Nat.le_log2 nonzero).mp long
    rw [power] at above
    omega

/-- Half a last place above the largest double, and from there on, numbers are infinite. -/
theorem nearestBits_eq_infinityBits_iff :
    nearestBits number = infinityBits ↔ 2 ^ 1024 - 2 ^ 970 ≤ number := by
  rw [show 1024 = 970 + 54 from rfl]
  by_cases zero : number = 0
  · have positive (places : Nat) : ¬ 2 ^ (places + 54) - 2 ^ places ≤ 0 :=
      Nat.not_le_of_lt (Nat.sub_pos_of_lt (Nat.pow_lt_pow_right (by decide) (by omega)))
    rw [zero, nearestBits_zero]
    exact iff_of_false (by decide) (positive 970)
  · rw [nearestBits_eq_infinityBits_iff_passed zero]
    exact binade_le_iff zero 970

theorem roundedSteps_mul_lastPlace (divides : 2 ^ number.log2 ∣ number * 2 ^ fractionBits) :
    roundedSteps number * lastPlace number = number := by
  obtain ⟨steps, whole⟩ := divides
  have same : roundedSteps number = steps := by
    rw [roundedSteps, whole, Nat.mul_comm, divideToNearest_mul _ (Nat.two_pow_pos _)]
  have scaled : (number * 2 ^ fractionBits : Rat) = 2 ^ number.log2 * steps := by
    exact_mod_cast whole
  rw [two_pow_log2, fractionBits] at scaled
  rw [same]
  linarith

theorem dvd_of_log2_le (short : number.log2 ≤ fractionBits) :
    2 ^ number.log2 ∣ number * 2 ^ fractionBits :=
  Dvd.dvd.mul_left (Nat.pow_dvd_pow 2 short) number

/-- Up to `2 ^ 53` every number is a double, and from `2 ^ 52` on every double is whole. -/
theorem dvd_of_le (small : number ≤ 2 ^ 53) : 2 ^ number.log2 ∣ number * 2 ^ fractionBits := by
  rcases Nat.lt_or_eq_of_le small with less | rfl
  · apply dvd_of_log2_le
    by_cases zero : number = 0
    · rw [zero]
      decide
    · exact Nat.le_of_lt_succ ((Nat.log2_lt zero).mpr less)
  · rw [Nat.log2_two_pow]
    exact Nat.dvd_mul_right ..

theorem exists_whole (number : Nat) :
    ∃ whole : Nat, roundedSteps number * lastPlace number = whole := by
  by_cases short : number.log2 ≤ fractionBits
  · exact ⟨number, roundedSteps_mul_lastPlace (dvd_of_log2_le short)⟩
  · obtain ⟨more, long⟩ := Nat.exists_eq_add_of_le (Nat.le_of_not_le short)
    refine ⟨roundedSteps number * 2 ^ more, ?_⟩
    have place : (number.log2 : Int) - 52 = more := by
      rw [fractionBits] at long
      omega
    rw [lastPlace, place, zpow_natCast]
    push_cast
    rfl

end Nearest

/-- The double that a natural number is read as: the nearest one, and of two that are as
near the one with the even significand. -/
structure RoundsTo (number : Nat) (value : Float) : Prop where
  unsigned : isNegative value = false
  exact : number ≤ 2 ^ 53 → toRat? value = some (number : Rat)
  infinite : view value = .infinite false ↔ 2 ^ 1024 - 2 ^ 970 ≤ number
  finite : number < 2 ^ 1024 - 2 ^ 970 → ∃ whole : Nat, toRat? value = some (whole : Rat) ∧
    ∀ other point, toRat? other = some point →
      |(whole : Rat) - number| ≤ |point - number| ∧
        (|point - number| = |(whole : Rat) - number| →
          point = whole ∨ (magnitude value).significand % 2 = 0)

theorem roundsTo_nearest (number : Nat) : RoundsTo number (nearest number) := by
  refine ⟨(plain_nearest number).1, fun small => ?_, ?_, fun below => ?_⟩
  · have finite : nearestBits number < infinityBits :=
      Nat.lt_of_le_of_lt (nearestBits_mono small) (by decide)
    rw [(toRat?_nearest finite).1, roundedSteps_mul_lastPlace (dvd_of_le small)]
  · rw [← nearestBits_eq_infinityBits_iff]
    refine ⟨fun infinite => ?_, view_nearest_of_infinityBits⟩
    by_contra other
    have finite := Nat.lt_of_le_of_ne (nearestBits_le number) other
    have point := (toRat?_nearest finite).1
    rw [toRat?, infinite] at point
    cases point
  · have finite : nearestBits number < infinityBits :=
      Nat.lt_of_le_of_ne (nearestBits_le number) fun passed =>
        absurd (nearestBits_eq_infinityBits_iff.mp passed) (Nat.not_le_of_lt below)
    obtain ⟨whole, same⟩ := exists_whole number
    obtain ⟨rounded, significand⟩ := toRat?_nearest finite
    rw [significand]
    refine ⟨whole, rounded.trans (congrArg some same), fun other point known => ?_⟩
    rw [← same]
    exact closest_roundedSteps number known

end Number

namespace Scanner

/-- Wherever the characters stand, behind spaces and with no digit behind them, they are
delivered as one integer, and what is behind them is left. -/
def ReadsInteger (digits : List Char) (value : Float) : Prop :=
  ∀ spaces rest position, startsDigit rest = false →
    (⟨List.replicate spaces ' ' ++ (digits ++ rest), position⟩ : Scanner).next =
      (.ok ⟨.integer value, position + spaces⟩, ⟨rest, position + spaces + digits.length⟩)

variable {digits : List Char} {value other : Float}

theorem readsInteger_ofDigits (nonempty : digits ≠ [])
    (all : ∀ character ∈ digits, character.isDigit = true) :
    ReadsInteger digits (Number.ofDigits digits) := by
  intro spaces rest position plain
  have size : byteLength digits = digits.length :=
    byteLength_of_ascii fun character member => utf8Size_of_isDigit (all character member)
  rw [← size]
  exact next_of_step (.token rfl (.integer nonempty all) (.of_startsDigit plain))

theorem ReadsInteger.unique (reads : ReadsInteger digits value)
    (readsOther : ReadsInteger digits other) :
    value = other := by
  have delivered := (reads 0 [] 0 rfl).symm.trans (readsOther 0 [] 0 rfl)
  cases delivered
  rfl

theorem ReadsInteger.tokenize_eq (reads : ReadsInteger digits value) :
    tokenize (String.ofList digits) =
      .ok [⟨.integer value, 0⟩, ⟨.endOfInput, digits.length⟩] := by
  have first := reads 0 [] 0 rfl
  have started : Cursor.ofScanner ⟨digits, 0⟩ = .ok ⟨⟨.integer value, 0⟩, ⟨[], digits.length⟩⟩ := by
    apply Cursor.ofScanner_eq_ok_iff.mpr
    simpa using first
  have ended : Cursor.ofScanner ⟨[], digits.length⟩ =
      .ok ⟨⟨.endOfInput, digits.length⟩, ⟨[], digits.length⟩⟩ :=
    Cursor.ofScanner_eq_ok_iff.mpr (next_of_step (@Step.ended ⟨[], _⟩ 0 rfl))
  rw [tokenize, ofText, String.toList_ofList, tokens_of_ofScanner started,
    if_neg Token.noConfusion, tokens_of_ofScanner ended, if_pos rfl]
  rfl

end Scanner

/-- Every run of digits is one integer, correctly rounded: its order is that of the numbers
denoted, and zeros in front make no difference. -/
theorem integer_correctly_rounded {digits : List Char} (nonempty : digits ≠ [])
    (all : ∀ character ∈ digits, character.isDigit = true) :
    ∃ value, Scanner.ReadsInteger digits value ∧
      tokenize (String.ofList digits) =
        .ok [⟨.integer value, 0⟩, ⟨.endOfInput, digits.length⟩] ∧
      Number.RoundsTo (Nat.ofDigitChars 10 digits 0) value ∧
      (∀ zeros, Scanner.ReadsInteger (List.replicate zeros '0' ++ digits) value) ∧
      ∀ others other, others ≠ [] → (∀ character ∈ others, character.isDigit = true) →
        Scanner.ReadsInteger others other →
        Nat.ofDigitChars 10 digits 0 ≤ Nat.ofDigitChars 10 others 0 → value ≤ other := by
  have reads := Scanner.readsInteger_ofDigits nonempty all
  refine ⟨Number.ofDigits digits, reads, reads.tokenize_eq, Number.roundsTo_nearest _,
    fun zeros => ?_, fun others other othersNonempty othersAll othersRead le => ?_⟩
  · rw [← Number.ofDigits_replicate_zero_append zeros]
    apply Scanner.readsInteger_ofDigits (by simp [nonempty])
    intro character member
    rcases List.mem_append.mp member with zero | digit
    · rw [List.eq_of_mem_replicate zero]
      rfl
    · exact all character digit
  · rw [othersRead.unique (Scanner.readsInteger_ofDigits othersNonempty othersAll)]
    exact Number.nearest_le_nearest le

/-- Halfway between two doubles, the number is read as the one with the even significand. -/
theorem integer_correctly_rounded_halfway :
    ∃ value, tokenize "9007199254740993" = .ok [⟨.integer value, 0⟩, ⟨.endOfInput, 16⟩] ∧
      Number.RoundsTo 9007199254740993 value := by
  obtain ⟨value, _, tokens, rounds, _⟩ :=
    @integer_correctly_rounded "9007199254740993".toList (by decide)
      (List.all_eq_true.mp (by decide))
  exact ⟨value, tokens, rounds⟩

example : tokenize "9007199254740993" = tokenize "9007199254740992" := by
  decide +kernel

end Reckon
