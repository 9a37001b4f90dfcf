import LeastSquares.Scalar

/-!
# Numbers as they were given

A setting is written either as an integer or as a real number, and what it was written as stays
visible in texts. Its value is what the arithmetic uses. Each test against zero is a test of its
own, as an undefined number passes none of them.
-/

namespace LeastSquares

/-- A number as it was given: an integer or a real number. -/
inductive Number (α : Type) where
  | int (n : Int)
  | real (x : α)
  deriving Repr

namespace Number

variable {α : Type} [Scalar α]

/-- The number the arithmetic uses. -/
def value : Number α → α
  | int n => Scalar.ofInt n
  | real x => x

/-- Strictly above zero. -/
def isPositive : Number α → Bool
  | int n => decide (0 < n)
  | real x => decide (0 < x)

/-- At or above zero. -/
def isNonnegative : Number α → Bool
  | int n => decide (0 ≤ n)
  | real x => decide (0 ≤ x)

/-- At or below zero. -/
def isNonpositive : Number α → Bool
  | int n => decide (n ≤ 0)
  | real x => decide (x ≤ 0)

/-- Strictly below zero. -/
def isNegative : Number α → Bool
  | int n => decide (n < 0)
  | real x => decide (x < 0)

/-- A count less a number: a number of the same kind. -/
def countLess (count : Nat) : Number α → Number α
  | int n => .int (count - n)
  | real x => .real (count - x)

end Number

end LeastSquares
