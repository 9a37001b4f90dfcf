import LeastSquares.Decimal.Shortest

/-!
# The text of a number

How the library writes doubles. Each written form is a rule for the digits (a count of
significant digits, a count of places, or the fewest that read back) with a rule for their
layout: digits with a point, or one digit, the rest after a point, and a power of ten.
-/

namespace LeastSquares.Decimal

/-- Where digits are laid out with a plain point: the decimal exponents from `least` up to, and
not including, `bound`. All other exponents are written out as a power of ten. -/
structure Layout where
  least : Int
  bound : Int
  /-- Whether a whole number in plain layout ends in `.0`. -/
  pointed : Bool

/-- The exponent of a power of ten: a sign and at least two digits. -/
def exponentText (e : Int) : String :=
  let digits := Nat.repr e.natAbs
  (if e < 0 then "e-" else "e+") ++ (if digits.length < 2 then "0" ++ digits else digits)

/-- One digit, the other digits after a point, and the power of ten. -/
def Scientific.text (s : Scientific) : String :=
  match s.digits with
  | [] => exponentText s.exponent
  | [d] => String.ofList [d] ++ exponentText s.exponent
  | d :: ds => String.ofList (d :: '.' :: ds) ++ exponentText s.exponent

/-- Digits with a plain point. -/
def Scientific.plainText (s : Scientific) (pointed : Bool) : String :=
  if s.exponent < 0 then
    String.ofList ('0' :: '.' :: List.replicate (-s.exponent - 1).toNat '0' ++ s.digits)
  else
    let count := s.exponent.toNat + 1
    let whole := s.digits.take count ++ List.replicate (count - s.digits.length) '0'
    match s.digits.drop count with
    | [] => String.ofList whole ++ (if pointed then ".0" else "")
    | fraction => String.ofList (whole ++ '.' :: fraction)

/-- The text of stripped digits in a layout. -/
def Layout.write (layout : Layout) (s : Scientific) : String :=
  if layout.least ≤ s.exponent ∧ s.exponent < layout.bound then s.plainText layout.pointed
  else s.text

/-- The words for the values that have no digits, and the digits' text behind a sign for all
others. The sign of zero is kept. -/
def signed (x : Float) (zero : String) (write : Parts → String) : String :=
  match Parts.ofFloat? x with
  | none => if x != x then "nan" else if x < 0 then "-inf" else "inf"
  | some p =>
    (if p.negative then "-" else "") ++ (if p.mantissa = 0 then zero else write p)

/-- The fewest digits that read back; plain from `0.0001` up to `10¹⁶`, with `.0` behind a whole
number. -/
def shortestText (x : Float) : String :=
  signed x "0.0" fun p => Layout.write ⟨-4, 16, true⟩ p.shortest.strip

/-- At most `count` significant digits without closing zeros; plain from `0.0001` up to
`10 ^ count`. -/
def generalText (count : Nat) (x : Float) : String :=
  signed x "0" fun p =>
    Layout.write ⟨-4, count, false⟩ (Scientific.round count p.numerator p.denominator).strip

/-- Exactly `count` significant digits and a power of ten. -/
def scientificText (count : Nat) (x : Float) : String :=
  signed x (Scientific.text ⟨List.replicate count '0', 0⟩) fun p =>
    (Scientific.round count p.numerator p.denominator).text

/-- Exactly `places` digits after the point, at least one place. -/
def fixedText (places : Nat) (x : Float) : String :=
  let layOut (n : Nat) : String :=
    let ds := Nat.toDigits 10 n
    let padded := List.replicate (places + 1 - ds.length) '0' ++ ds
    let whole := padded.length - places
    String.ofList (padded.take whole ++ '.' :: padded.drop whole)
  signed x (layOut 0) fun p => layOut (nearest (p.numerator * Nat.pow 10 places) p.denominator)

/-- A text filled up with blanks on its left to a width counted in characters. -/
def alignRight (width : Nat) (s : String) : String :=
  String.ofList (List.replicate (width - s.length) ' ') ++ s

/-- A text filled up with blanks on its right to a width counted in characters. -/
def alignLeft (width : Nat) (s : String) : String :=
  s ++ String.ofList (List.replicate (width - s.length) ' ')

end LeastSquares.Decimal
