import LeastSquares.Linear.Triangular

/-!
# Elimination with row exchanges

The factorization `P A = L U` of a square matrix. At each column the row with the largest entry
in magnitude comes to the front. One matrix holds both factors: `U` on and above the diagonal, the
multipliers of `L`, whose diagonal is one, below it.
-/

namespace LeastSquares

variable {α : Type} [Scalar α] {n : Nat}

/-- A matrix during or after elimination. -/
structure LowerUpper (α : Type) (n : Nat) where
  factors : Mat α n n
  /-- The row of the matrix that stands at each position. -/
  order : Vec (Fin n) n

namespace LowerUpper

/-- The first row from `k` on whose entry in column `k` is largest in magnitude. -/
def pivotRow (e : LowerUpper α n) (k : Fin n) : Fin n :=
  Fin.foldl n
    (fun b i => if k < i ∧ Scalar.abs (e.factors b k) < Scalar.abs (e.factors i k) then i else b) k

/-- Two rows exchanged. -/
def swap (e : LowerUpper α n) (k j : Fin n) : LowerUpper α n :=
  let other (i : Fin n) := if i = k then j else if i = j then k else i
  ⟨Mat.ofFn fun i c => e.factors (other i) c, Vec.ofFn fun i => e.order (other i)⟩

/-- Clears column `k` below the diagonal. A zero pivot has nothing to clear. -/
def clear (e : LowerUpper α n) (k : Fin n) : LowerUpper α n :=
  if e.factors k k == 0 then e
  else
    let multiplier : Vec α n := Vec.ofFn fun i =>
      if k < i then e.factors i k / e.factors k k else 0
    { e with factors := Mat.ofFn fun i j =>
        if k < i then
          if j = k then multiplier i
          else if k < j then e.factors i j - multiplier i * e.factors k j
          else e.factors i j
        else e.factors i j }

/-- The factorization of a square matrix. -/
def factor (A : Mat α n n) : LowerUpper α n :=
  (List.finRange n).foldl (fun e k => (e.swap k (e.pivotRow k)).clear k) ⟨A, Vec.ofFn id⟩

/-- The diagonal of `U`. -/
def diagonal (e : LowerUpper α n) : Vec α n := Vec.ofFn fun i => e.factors i i

/-- The solution of `A x = b`. -/
def solve (e : LowerUpper α n) (b : Vec α n) : Vec α n :=
  let y := Triangular.solveTransposed e.factors.transpose (Vec.replicate n 1)
    (Vec.ofFn fun i => b (e.order i))
  Triangular.solveUpper n e.factors e.diagonal y

end LowerUpper

end LeastSquares
