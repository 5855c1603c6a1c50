import Reckon.Number.Magnitude

namespace Reckon.Number

/-! Reading a natural number as a double.

The double nearest to a number is found from its binary length alone: scaled
to as many bits as a significand has and rounded once, the number is the
significand, and its length gives the exponent field.
-/

-- Powers of natural numbers are those of core, whatever else is in scope.
attribute [local instance (2000)] instPowNat

/-- The whole number nearest to `dividend / divisor`; halfway between two, the even one. -/
def divideToNearest (dividend divisor : Nat) : Nat :=
  let quotient := dividend / divisor
  let excess := 2 * (dividend % divisor)
  if excess < divisor ∨ (excess = divisor ∧ quotient % 2 = 0) then quotient else quotient + 1

/-- The bits of positive infinity. -/
def infinityBits : Nat := topExponentField * 2 ^ fractionBits

/-- The bits of the double nearest to a number.

The rounded significand still has its leading bit, which raises the exponent
field by one; a significand that rounds up to the next power of two raises it
by one more, as it must.  Whatever passes the largest double is infinite. -/
def nearestBits (number : Nat) : Nat :=
  if number = 0 then 0
  else
    let significand := divideToNearest (number * 2 ^ fractionBits) (2 ^ number.log2)
    min ((number.log2 + 1022) * 2 ^ fractionBits + significand) infinityBits

/-- The double nearest to a number, with ties to the even significand. -/
def nearest (number : Nat) : Float :=
  Float.ofBits (UInt64.ofNat (nearestBits number))

/-- The double that a run of decimal digits denotes. -/
def ofDigits (digits : List Char) : Float :=
  nearest (Nat.ofDigitChars 10 digits 0)

@[simp] theorem nearestBits_zero : nearestBits 0 = 0 := rfl

theorem nearestBits_le (number : Nat) : nearestBits number ≤ infinityBits := by
  unfold nearestBits
  split
  · exact Nat.zero_le _
  · exact Nat.min_le_right _ _

/-- Leading zeros do not change what a run of digits denotes. -/
theorem ofDigits_replicate_zero_append (zeros : Nat) (digits : List Char) :
    ofDigits (List.replicate zeros '0' ++ digits) = ofDigits digits := by
  simp [ofDigits, Nat.ofDigitChars_append]

end Reckon.Number
