/-!
# Scalars

The arithmetic every solver of this library is written over. An algorithm is stated once, for an
arbitrary `Scalar`, in its textbook's order of operations; it runs over doubles
(`LeastSquares.Scalar.Double`) and is reasoned about over the exact numbers.

No law is part of the class: addition need not be associative and the order need not be total, so
whatever is proved of a bare `Scalar` holds of rounded arithmetic with infinities and undefined
values too. Three rules of comparison therefore have names of their own:

* a test `a < b` or `a ≤ b` with an undefined operand fails;
* `larger a b` and `smaller a b` give way to the second number only if it compares strictly
  beyond the first, so an undefined second number is passed over;
* `largest a b` keeps an undefined operand.
-/

namespace LeastSquares

/-- The operations of the arithmetic that a solver uses, without laws. -/
class Scalar (α : Type) extends Zero α, One α, Add α, Sub α, Mul α, Div α, Neg α, NatCast α,
    OfScientific α, LT α, LE α, BEq α where
  /-- The square root. -/
  sqrt : α → α
  /-- The absolute value. -/
  abs : α → α
  /-- Neither infinite nor undefined. -/
  isFinite : α → Bool
  /-- The integer part, towards zero, of a finite number. -/
  truncate : α → Int
  decLt : DecidableLT α
  decLe : DecidableLE α

export Scalar (sqrt isFinite)

variable {α : Type} [Scalar α]

instance Scalar.decidableLT : DecidableLT α := Scalar.decLt
instance Scalar.decidableLE : DecidableLE α := Scalar.decLe

namespace Scalar

/-- An undefined number is the one that differs from itself. -/
def isUndefined (x : α) : Bool := !(x == x)

/-- An integer as a scalar. -/
def ofInt : Int → α
  | .ofNat n => (n : α)
  | .negSucc n => -((n + 1 : Nat) : α)

/-- The second number if it lies strictly above the first, else the first. -/
def larger (a b : α) : α := if a < b then b else a

/-- The second number if it lies strictly below the first, else the first. -/
def smaller (a b : α) : α := if b < a then b else a

/-- The larger of two numbers, undefined as soon as one of them is. -/
def largest (a b : α) : α :=
  if isUndefined a then a else if isUndefined b then b else larger a b

/-- The distance from one to the next double, `2⁻⁵²`. -/
def epsilon : α := 1 / ((Nat.pow 2 52 : Nat) : α)

/-- The smallest positive normal double, `2⁻¹⁰²²`. -/
def leastNormal : α := 1 / ((Nat.pow 2 1022 : Nat) : α)

end Scalar

end LeastSquares
