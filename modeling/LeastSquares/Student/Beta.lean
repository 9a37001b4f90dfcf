import LeastSquares.Student
import LeastSquares.Scalar.Double

/-!
# Student's distribution for doubles

With `x = k / (k + t²)` for `k` degrees of freedom, the probability of a value beyond `±t` is the
regularised incomplete beta function `I x (k/2) (1/2)`. It is computed from its continued
fraction, and far out from powers of `√k / t`, so that tiny probabilities keep their digits. The
quantile inverts it by bisection on the bits of a double, on the probability beyond `±t` or, near
the centre, on the probability between `-t` and `t`.
-/

namespace LeastSquares.Student

/-- The ratio of the circumference of a circle to its diameter. -/
def pi : Float := 3.141592653589793

/-- `B (k/2) (1/2)`, by the recurrence `B (a + 1) (1/2) = B a (1/2) * a / (a + 1/2)`. -/
def betaHalf : Nat → Float
  | 0 => infinity
  | 1 => pi
  | 2 => 2
  | k + 3 =>
    let a := Float.ofNat (k + 1) / 2
    betaHalf (k + 1) * a / (a + 0.5)

/-- A continued fraction between two of its pairs of terms. -/
structure Fraction where
  c : Float
  d : Float
  value : Float

/-- One more term. -/
def Fraction.extend (f : Fraction) (term : Float) : Fraction :=
  let d := 1 / (1 + term * f.d)
  let c := 1 + term / f.c
  ⟨c, d, f.value * (c * d)⟩

/-- The pairs of terms of the continued fraction of `I x a b` from the `m`-th on, until they no
longer change its value. -/
def continueFraction (a b x : Float) : (left m : Nat) → Fraction → Float
  | 0, _, f => f.value
  | left + 1, m, f =>
    let i := Float.ofNat m
    let f := f.extend (i * (b - i) * x / ((a + 2 * i - 1) * (a + 2 * i)))
    let before := f.value
    let f := f.extend (-(a + i) * (a + b + i) * x / ((a + 2 * i) * (a + 2 * i + 1)))
    if Float.abs (f.value / before - 1) ≤ 1e-16 then f.value
    else continueFraction a b x left (m + 1) f

/-- The continued fraction of `I x a b`. -/
def fraction (a b x : Float) : Float :=
  let d := 1 / (1 - (a + b) * x / (a + 1))
  continueFraction a b x 20000 1 ⟨1, d, d⟩

/-- The probabilities of a value beyond `±t` and of one between `-t` and `t`, for `t ≥ 0`. Of the
two the one is computed whose continued fraction converges fast. -/
def beyondAndBetween (freedom : Nat) (t : Float) : Float × Float :=
  let k := Float.ofNat freedom
  let a := k / 2
  let root := Float.sqrt k
  if t > root then
    let u := root / t
    let square := 1 + u * u
    let x := u * u / square
    let beyond := Float.pow u k / Float.pow square ((k + 1) / 2) * fraction a 0.5 x /
      (a * betaHalf freedom)
    (beyond, 1 - beyond)
  else
    let s := t / root
    let square := 1 + s * s
    let x := 1 / square
    let y := s * s / square
    let density := Float.pow x a * (s / Float.sqrt square) / betaHalf freedom
    if x < (a + 1) / (a + 2.5) then
      let beyond := density * fraction a 0.5 x / a
      (beyond, 1 - beyond)
    else
      let between := density * fraction 0.5 a y / 0.5
      (1 - between, between)

/-- The probability of a value above `t`. -/
def upperTail (freedom : Nat) (t : Float) : Float :=
  if t != t then undefined
  else if t < 0 then
    if t.isInf then 1 else 1 - (beyondAndBetween freedom (-t)).1 / 2
  else if t.isInf then 0
  else (beyondAndBetween freedom t).1 / 2

/-- The number of the largest finite double among the doubles from zero up. -/
def lastFinite : Nat := 0x7FEFFFFFFFFFFFFF

/-- Halves the interval of numbers of doubles `low ≤ · ≤ high` at whose upper end `reached`
holds. -/
def bisect (reached : Float → Bool) : (left low high : Nat) → Float
  | 0, _, high => Float.ofBits (UInt64.ofNat high)
  | left + 1, low, high =>
    let middle := (low + high) / 2
    if reached (Float.ofBits (UInt64.ofNat middle)) then bisect reached left low middle
    else bisect reached left (middle + 1) high

/-- The `t ≥ 0` that a value does not exceed with the probability `q ≥ 1/2`, where `tail` is the
probability of a larger one. -/
def quantileAbove (freedom : Nat) (q tail : Float) : Float :=
  let centre := 2 * q - 1
  let reached (t : Float) : Bool :=
    let (beyond, between) := beyondAndBetween freedom t
    if centre < 0.5 then centre ≤ between else beyond ≤ 2 * tail
  bisect reached 64 0 lastFinite

/-- The value that is not exceeded with probability `q`. -/
def quantile (freedom : Nat) (q : Float) : Float :=
  if q == 1 then infinity
  else if q == 0 then -infinity
  else if 0 < q && q < 1 then
    if q == 0.5 then 0
    else if 0.5 < q then quantileAbove freedom q (1 - q)
    else -quantileAbove freedom (1 - q) q
  else undefined

instance : StudentT Float where
  upperTail := upperTail
  quantile := quantile

end LeastSquares.Student
