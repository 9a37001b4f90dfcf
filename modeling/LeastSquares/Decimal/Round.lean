/-!
# Rounding a quotient to decimal digits

A positive number, given as a fraction of natural numbers, rounded to a count of significant
digits or of decimal places. A tie goes to the even digit.
-/

namespace LeastSquares.Decimal

/-- The natural number nearest to `num / den`; a tie goes to the even one. -/
def nearest (num den : Nat) : Nat :=
  let q := num / den
  let twice := 2 * (num % den)
  if twice < den then q
  else if den < twice then q + 1
  else if q % 2 = 0 then q else q + 1

/-- Rounding moves a quotient by half a unit at most. -/
theorem nearest_within_half (num : Nat) {den : Nat} (h : 0 < den) :
    2 * num ≤ den * (2 * nearest num den + 1) ∧ den * (2 * nearest num den) ≤ 2 * num + den := by
  have split := Nat.div_add_mod num den
  have small := Nat.mod_lt num h
  have below : den * (2 * (num / den) + 1) = 2 * (den * (num / den)) + den := by
    rw [Nat.mul_add, Nat.mul_left_comm, Nat.mul_one]
  have above : den * (2 * (num / den + 1)) = 2 * (den * (num / den)) + 2 * den := by
    rw [Nat.mul_left_comm, Nat.mul_add, Nat.mul_one, Nat.mul_add]
  have beyond : den * (2 * (num / den + 1) + 1) = 2 * (den * (num / den)) + 3 * den := by
    rw [Nat.mul_add, above, Nat.mul_one]
    omega
  have floor : den * (2 * (num / den)) = 2 * (den * (num / den)) := Nat.mul_left_comm ..
  unfold nearest
  dsimp only
  split
  · omega
  · split
    · omega
    · split <;> omega

/-- A quotient that lies halfway between two natural numbers goes to the even one. -/
theorem nearest_mod_two_of_tie {num den : Nat} (h : 2 * (num % den) = den) :
    nearest num den % 2 = 0 := by
  unfold nearest
  dsimp only
  rw [h, if_neg (Nat.lt_irrefl _), if_neg (Nat.lt_irrefl _)]
  split <;> omega

/-- The count of decimal digits of a natural number; `0` has one. -/
def digitCount (n : Nat) : Nat := (Nat.toDigits 10 n).length

/-- The exponent `e` with `10 ^ e ≤ num / den < 10 ^ (e + 1)`, for a positive quotient. -/
def decimalExponent (num den : Nat) : Int :=
  if den ≤ num then digitCount (num / den) - 1
  else
    let t := digitCount (den / num)
    if den ≤ num * Nat.pow 10 (t - 1) then 1 - t else -t

/-- The numerator and denominator of `num / den · 10 ^ shift`. -/
def scale (num den : Nat) (shift : Int) : Nat × Nat :=
  (num * Nat.pow 10 shift.toNat, den * Nat.pow 10 (-shift).toNat)

/-- A number in scientific form: its digits, the first of which is not `0`, read with the point
after the first of them, times `10 ^ exponent`. -/
structure Scientific where
  digits : List Char
  exponent : Int
  deriving DecidableEq, Repr

namespace Scientific

/-- A positive quotient rounded to `count` significant digits. Rounding may reach the next power
of ten. -/
def round (count num den : Nat) : Scientific :=
  let e := decimalExponent num den
  let (a, b) := scale num den (count - 1 - e)
  let r := nearest a b
  if r = Nat.pow 10 count then ⟨Nat.toDigits 10 (Nat.pow 10 (count - 1)), e + 1⟩
  else ⟨Nat.toDigits 10 r, e⟩

/-- The same number without the zeros that end its digits; one digit always stays. -/
def strip (s : Scientific) : Scientific :=
  match (s.digits.reverse.dropWhile (· == '0')).reverse with
  | [] => { s with digits := ['0'] }
  | ds => { s with digits := ds }

end Scientific

end LeastSquares.Decimal
