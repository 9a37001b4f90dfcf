import LeastSquares.Decimal.Parts
import LeastSquares.Decimal.Round

/-!
# The fewest digits that read back

Every real number within half a unit of a double reads back as that double; the ends of this
interval belong to it if the mantissa is even. The shortest digits of a double are found by
trying the decimal grids of one digit, two digits, and so on: on each grid only the two points
next to the double can be the nearest ones in the interval, and the first grid that has a point
there wins. Seventeen digits always suffice.
-/

namespace LeastSquares.Decimal

namespace Parts

/-- Does the decimal `c · 10 ^ shift` read back as the magnitude of `p`? All bounds are compared
as multiples of a quarter unit of the last binary place. -/
def readsBack (p : Parts) (c : Nat) (shift : Int) : Bool :=
  let unit : Parts := { p with mantissa := 1, exponent := p.exponent - 2 }
  let num := c * Nat.pow 10 shift.toNat * unit.denominator
  let den := Nat.pow 10 (-shift).toNat * unit.numerator
  let below := if p.isBinadeStart then 4 * p.mantissa - 1 else 4 * p.mantissa - 2
  let above := 4 * p.mantissa + 2
  if p.mantissa % 2 = 0 then below * den ≤ num && num ≤ above * den
  else below * den < num && num < above * den

/-- The point of the grid of `count` digits that reads back and lies nearest to the magnitude of
`p`; of two equally near ones the even. -/
def onGrid? (p : Parts) (count : Nat) : Option Scientific :=
  let e := decimalExponent p.numerator p.denominator
  let shift : Int := e - (count - 1)
  let (a, b) := scale p.numerator p.denominator (-shift)
  let near := nearest a b
  let far := if near = a / b then near + 1 else near - 1
  let pick := fun c => if c = Nat.pow 10 count
    then Scientific.mk (Nat.toDigits 10 (Nat.pow 10 (count - 1))) (e + 1)
    else Scientific.mk (Nat.toDigits 10 c) e
  if p.readsBack near shift then some (pick near)
  else if p.readsBack far shift then some (pick far)
  else none

/-- The shortest digits of a positive magnitude that read back. -/
def shortest (p : Parts) : Scientific :=
  ((List.range 17).findSome? fun k => p.onGrid? (k + 1)).getD
    (Scientific.round 17 p.numerator p.denominator)

end Parts

end LeastSquares.Decimal
