import LeastSquares.Number
import LeastSquares.Scalar.Double

/-!
# Decimal numerals

A numeral is an optional sign, digits with at most one point among them or beside them, and an
optional exponent behind an `e`. One with neither point nor exponent is an integer; any other one is
a real number, the double that is nearest to it, or an infinity if it is beyond all of them.

`Numeral.read?` reads a text that is a numeral and nothing else. `readDouble?` also accepts blanks
around it, single low lines between its digits, and the names of the numbers that have no digits.
-/

namespace LeastSquares.Decimal

/-- A numeral, whose value is `± digits · 10 ^ (exponent - places)`. -/
structure Numeral where
  negative : Bool
  /-- All digits, those before the point and those behind it. -/
  digits : List Char
  /-- The number of digits behind the point. -/
  places : Nat
  exponent : Int
  /-- Whether there is neither a point nor an exponent. -/
  isInteger : Bool
  deriving DecidableEq, Repr

/-- The natural number that digits write. -/
def natOfDigits (digits : List Char) : Nat :=
  digits.foldl (fun n c => n * 10 + (c.toNat - '0'.toNat)) 0

/-- A text behind its sign, and whether that is negative. -/
def splitSign : List Char → Bool × List Char
  | '-' :: cs => (true, cs)
  | '+' :: cs => (false, cs)
  | cs => (false, cs)

/-- The digits in front of a text, and what is behind them. -/
def splitDigits (cs : List Char) : List Char × List Char :=
  (cs.takeWhile Char.isDigit, cs.dropWhile Char.isDigit)

/-- The exponent that a text consists of, `none` if it is none. -/
def exponentOf? (cs : List Char) : Option Int :=
  let (negative, cs) := splitSign cs
  match splitDigits cs with
  | (d :: ds, []) =>
    let magnitude : Int := natOfDigits (d :: ds)
    some (if negative then -magnitude else magnitude)
  | _ => none

namespace Numeral

/-- The numeral that a text is. -/
def read? (cs : List Char) : Option Numeral :=
  let (negative, cs) := splitSign cs
  let (whole, cs) := splitDigits cs
  let (fraction, cs) := match cs with
    | '.' :: cs => let (fraction, cs) := splitDigits cs; (some fraction, cs)
    | cs => (none, cs)
  let digits := whole ++ fraction.getD []
  let places := (fraction.getD []).length
  if digits.isEmpty then none
  else match cs with
    | [] => some ⟨negative, digits, places, 0, fraction.isNone⟩
    | e :: cs =>
      if e == 'e' || e == 'E' then
        (exponentOf? cs).map fun exponent => ⟨negative, digits, places, exponent, false⟩
      else none

/-- The power of ten beyond which, on both sides, there are no doubles. -/
def farAway : Int := 400

/-- The double nearest to a numeral. -/
def toDouble (x : Numeral) : Float :=
  let digits := natOfDigits x.digits
  let shift := x.exponent - x.places
  let magnitude :=
    if digits = 0 ∨ shift + x.digits.length < -farAway then 0
    else if farAway < shift then infinity
    else Float.ofScientific digits (decide (shift < 0)) shift.natAbs
  if x.negative then -magnitude else magnitude

/-- The number that a numeral writes. -/
def toNumber (x : Numeral) : Number Float :=
  if x.isInteger then
    let digits : Int := natOfDigits x.digits
    .int (if x.negative then -digits else digits)
  else .real x.toDouble

end Numeral

/-- The blanks that may stand around a number. -/
def isBlank (c : Char) : Bool := c.isWhitespace || c == '\x0b' || c == '\x0c'

/-- A text without the low lines between two of its digits. -/
def withoutLowLines : List Char → List Char
  | a :: '_' :: b :: cs =>
    if a.isDigit && b.isDigit then a :: withoutLowLines (b :: cs)
    else a :: '_' :: withoutLowLines (b :: cs)
  | c :: cs => c :: withoutLowLines cs
  | [] => []

/-- The double that a text writes. -/
def readDouble? (s : String) : Option Float :=
  let cs := ((s.toList.dropWhile isBlank).reverse.dropWhile isBlank).reverse
  let (negative, body) := splitSign cs
  let named (x : Float) : Option Float := some (if negative then -x else x)
  match String.ofList (body.map Char.toLower) with
  | "nan" => some undefined
  | "inf" | "infinity" => named infinity
  | _ => (Numeral.read? (withoutLowLines cs)).map Numeral.toDouble

end LeastSquares.Decimal
