import Reckon.Number.Magnitude

namespace Reckon.Number

/-! The shortest decimal that reads back as a given double.

The reals that round to a double form an interval around it.  Grids of decimals
with ever more places are tried in turn; where a grid has a point in the
interval, one of the double's two neighbours on that grid is such a point, so
only those two are tested.  All comparisons are between natural numbers: the
interval is measured in quarters of the double's last place.
-/

-- Powers of natural numbers are those of core, whatever else is in scope.
attribute [local instance (2000)] instPowNat

/-- The number `digits * 10 ^ exponent`. -/
structure Decimal where
  digits : Nat
  exponent : Int
deriving DecidableEq, Repr

namespace Magnitude

/-- Whether the next smaller double is only half as far away as the next larger
one, which is so at the powers of two. -/
def isNarrowBelow (value : Magnitude) : Bool :=
  value.significand == 2 ^ fractionBits && decide (leastExponent < value.exponent)

def quarters (value : Magnitude) : Nat := 4 * value.significand

/-- The lower end of the interval, halfway to the next smaller double. -/
def lowerQuarters (value : Magnitude) : Nat :=
  value.quarters - (if value.isNarrowBelow then 1 else 2)

/-- The upper end of the interval, halfway to the next larger double. -/
def upperQuarters (value : Magnitude) : Nat := value.quarters + 2

/-- One quarter of the last place is `quarterSize / stepSize` steps of the grid
of multiples of `10 ^ grid`. -/
def quarterSize (value : Magnitude) (grid : Int) : Nat :=
  2 ^ (value.exponent - 2).toNat * 10 ^ (-grid).toNat

@[inherit_doc quarterSize]
def stepSize (value : Magnitude) (grid : Int) : Nat :=
  2 ^ (2 - value.exponent).toNat * 10 ^ grid.toNat

/-- Whether a decimal lies in the interval.  A decimal at one of its ends reads
back as the neighbour with the even significand. -/
def isReadFrom (value : Magnitude) (decimal : Decimal) : Bool :=
  let lower := value.lowerQuarters * value.quarterSize decimal.exponent
  let upper := value.upperQuarters * value.quarterSize decimal.exponent
  let point := decimal.digits * value.stepSize decimal.exponent
  if value.significand % 2 = 0 then lower ≤ point && point ≤ upper
  else lower < point && point < upper

/-- The last decimal of a grid that is not above the value. -/
def atOrBelow (value : Magnitude) (grid : Int) : Decimal :=
  ⟨value.quarters * value.quarterSize grid / value.stepSize grid, grid⟩

/-- The first decimal of a grid that is above the value. -/
def above (value : Magnitude) (grid : Int) : Decimal :=
  ⟨(value.atOrBelow grid).digits + 1, grid⟩

/-- Whether the neighbour below is strictly the nearer of the two; halfway
between them the upper one is taken. -/
def isNearerBelow (value : Magnitude) (grid : Int) : Bool :=
  2 * (value.quarters * value.quarterSize grid) <
    ((value.atOrBelow grid).digits + (value.above grid).digits) * value.stepSize grid

/-- The decimal of a grid that reads back as the value and is nearest to it. -/
def onGrid? (value : Magnitude) (grid : Int) : Option Decimal :=
  match value.isReadFrom (value.atOrBelow grid), value.isReadFrom (value.above grid) with
  | true, true =>
      some (if value.isNearerBelow grid then value.atOrBelow grid else value.above grid)
  | true, false => some (value.atOrBelow grid)
  | false, true => some (value.above grid)
  | false, false => none

/-- Tries `finer` grids below the given one, and ends on the last of them. -/
def firstOnGrids (value : Magnitude) : (finer : Nat) → (grid : Int) → Decimal
  | 0, grid => (value.onGrid? grid).getD (value.atOrBelow grid)
  | finer + 1, grid =>
      (value.onGrid? grid).getD (value.firstOnGrids finer (grid - 1))

/-- A grid too coarse for any decimal below the interval's upper end: the value
is less than `2 ^ bits`, and the decimal logarithm of two lies between `30 / 100`
and `31 / 100`. -/
def coarsestGrid (value : Magnitude) : Int :=
  let bits := value.significand.log2 + 1 + value.exponent
  (if 0 ≤ bits then bits * 31 / 100 else bits * 30 / 100) + 1

/-- A grid that the value itself lies on, since every power of two below one is
a whole multiple of the same power of ten. -/
def exactGrid (value : Magnitude) : Int := min value.exponent 0

/-- The decimal with the fewest digits that reads back as the value, and of
those the nearest to it.  Zero lies on every grid, and is taken with no places. -/
def shortest (value : Magnitude) : Decimal :=
  if value.significand = 0 then ⟨0, 0⟩
  else value.firstOnGrids (value.coarsestGrid - value.exactGrid).toNat value.coarsestGrid

theorem quarterSize_pos (value : Magnitude) (grid : Int) : 0 < value.quarterSize grid :=
  Nat.mul_pos (Nat.pow_pos (by decide)) (Nat.pow_pos (by decide))

theorem stepSize_pos (value : Magnitude) (grid : Int) : 0 < value.stepSize grid :=
  Nat.mul_pos (Nat.pow_pos (by decide)) (Nat.pow_pos (by decide))

/-- Whatever a grid offers reads back as the value. -/
theorem isReadFrom_of_onGrid? {value : Magnitude} {grid : Int} {decimal : Decimal}
    (offered : value.onGrid? grid = some decimal) : value.isReadFrom decimal = true := by
  unfold onGrid? at offered
  split at offered
  · rename_i below above
    split at offered <;> simp_all
  · simp_all
  · simp_all
  · cases offered

end Magnitude

end Reckon.Number
