namespace Reckon.Number

/-! The content of a double's sixty-four bits.

A finite double is a sign and a whole multiple of a power of two.  The three
fields of its encoding are read as natural numbers, so that everything else
said about a finite double is exact integer arithmetic.
-/

-- Powers of natural numbers are those of core, whatever else is in scope.
attribute [local instance (2000)] instPowNat

/-- The number `significand * 2 ^ exponent`. -/
structure Magnitude where
  significand : Nat
  exponent : Int
deriving DecidableEq, Repr

/-- Bits of a significand that are stored; a normal double has one more, which is implied. -/
def fractionBits : Nat := 52

/-- Exponent of the last place of the doubles nearest to zero. -/
def leastExponent : Int := -1074

/-- The exponent field of infinities and of what is not a number. -/
def topExponentField : Nat := 2047

def fractionField (value : Float) : Nat :=
  value.toBits.toNat % 2 ^ fractionBits

def exponentField (value : Float) : Nat :=
  value.toBits.toNat / 2 ^ fractionBits % (topExponentField + 1)

/-- Whether the sign bit is set; it is on `-0` and on every number below zero. -/
def isNegative (value : Float) : Bool :=
  decide (2 ^ (63 : Nat) ≤ value.toBits.toNat)

/-- The distance of a finite double from zero.  The exponent field zero marks
the doubles without the implied bit, which share the last place of field one. -/
def magnitude (value : Float) : Magnitude :=
  match exponentField value with
  | 0 => ⟨fractionField value, leastExponent⟩
  | field + 1 => ⟨2 ^ fractionBits + fractionField value, leastExponent + field⟩

/-- What kind of number a double is. -/
inductive View where
  | notANumber
  | infinite (negative : Bool)
  | finite (negative : Bool) (magnitude : Magnitude)
deriving DecidableEq, Repr

def view (value : Float) : View :=
  if exponentField value = topExponentField then
    if fractionField value = 0 then .infinite (isNegative value) else .notANumber
  else
    .finite (isNegative value) (magnitude value)

theorem fractionField_lt (value : Float) : fractionField value < 2 ^ fractionBits :=
  Nat.mod_lt _ (by decide)

theorem exponentField_le (value : Float) : exponentField value ≤ topExponentField :=
  Nat.le_of_lt_succ (Nat.mod_lt _ (by decide))

theorem magnitude_significand_lt (value : Float) :
    (magnitude value).significand < 2 ^ (fractionBits + 1) := by
  have bound := fractionField_lt value
  unfold magnitude
  split <;> simp only [fractionBits] at bound ⊢ <;> omega

theorem leastExponent_le_magnitude_exponent (value : Float) :
    leastExponent ≤ (magnitude value).exponent := by
  unfold magnitude
  split
  · exact Int.le_refl _
  · simp only
    omega

end Reckon.Number
