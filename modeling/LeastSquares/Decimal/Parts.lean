/-!
# The parts of a double

A finite double is `± mantissa · 2 ^ exponent` with a mantissa below `2⁵³`. `Parts.ofFloat?`
reads sign, mantissa and exponent off the 64 bits; all exact text of this library starts there.
-/

namespace LeastSquares.Decimal

/-- A finite double: `± mantissa · 2 ^ exponent`. -/
structure Parts where
  negative : Bool
  mantissa : Nat
  exponent : Int
  deriving DecidableEq, Repr

namespace Parts

/-- The least exponent of a double, that of the subnormal numbers. -/
def leastExponent : Int := -1074

/-- The parts of a double, `none` for an infinity or an undefined value. Subnormal numbers have
no hidden bit and share the least exponent with the smallest normal ones. -/
def ofFloat? (x : Float) : Option Parts :=
  let bits := x.toBits.toNat
  let fraction := bits % Nat.pow 2 52
  let field : Nat := bits / Nat.pow 2 52 % Nat.pow 2 11
  let negative := decide (Nat.pow 2 63 ≤ bits)
  if field = 2047 then none
  else if field = 0 then some ⟨negative, fraction, leastExponent⟩
  else some ⟨negative, fraction + Nat.pow 2 52, leastExponent + (field - 1 : Nat)⟩

/-- The numerator of the magnitude as a fraction of natural numbers. -/
def numerator (p : Parts) : Nat := p.mantissa * Nat.pow 2 p.exponent.toNat

/-- The denominator of the magnitude as a fraction of natural numbers. -/
def denominator (p : Parts) : Nat := Nat.pow 2 (-p.exponent).toNat

/-- The integer part, towards zero. -/
def truncate (p : Parts) : Int :=
  let magnitude : Int := (p.numerator / p.denominator : Nat)
  if p.negative then -magnitude else magnitude

/-- Whether the next smaller double is only half as far away as the next larger one: so at every
power of two above the subnormal numbers. -/
def isBinadeStart (p : Parts) : Bool :=
  p.mantissa == Nat.pow 2 52 && decide (leastExponent < p.exponent)

end Parts

end LeastSquares.Decimal
