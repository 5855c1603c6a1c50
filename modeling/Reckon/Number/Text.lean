import Reckon.Number.Shortest

namespace Reckon.Number

/-! The written form of a number.

A number is written positionally at every size: no exponent, no point behind a
whole number, and a sign on negative zero.
-/

-- Powers of natural numbers are those of core, whatever else is in scope.
attribute [local instance (2000)] instPowNat

namespace Decimal

/-- Writes a decimal without an exponent. -/
def text (decimal : Decimal) : String :=
  match decimal.exponent with
  | .ofNat zeros => Nat.repr (decimal.digits * 10 ^ zeros)
  | .negSucc behind =>
      let unit := 10 ^ (behind + 1)
      let places := (Nat.toDigits 10 (decimal.digits % unit)).leftpad (behind + 1) '0'
      Nat.repr (decimal.digits / unit) ++ "." ++ String.ofList places

end Decimal

def signText (negative : Bool) : String := if negative then "-" else ""

namespace View

def text : View → String
  | .notANumber => "NaN"
  | .infinite negative => signText negative ++ "inf"
  | .finite negative magnitude => signText negative ++ magnitude.shortest.text

end View

/-- The fewest digits that read back as the number. -/
def text (value : Float) : String := (view value).text

end Reckon.Number
