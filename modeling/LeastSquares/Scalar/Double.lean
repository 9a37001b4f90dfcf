import LeastSquares.Scalar
import LeastSquares.Decimal.Parts

/-!
# Doubles are scalars

The arithmetic in which the solvers run.
-/

namespace LeastSquares

instance : Scalar Float where
  zero := 0.0
  one := 1.0
  natCast := Float.ofNat
  sqrt := Float.sqrt
  abs := Float.abs
  isFinite := Float.isFinite
  truncate x := ((Decimal.Parts.ofFloat? x).map Decimal.Parts.truncate).getD 0
  decLt := inferInstance
  decLe := inferInstance

/-- The undefined double. -/
def undefined : Float := 0.0 / 0.0

/-- The positive infinity of doubles. -/
def infinity : Float := 1.0 / 0.0

end LeastSquares
