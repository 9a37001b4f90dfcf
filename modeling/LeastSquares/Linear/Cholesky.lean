import LeastSquares.Linear.Triangular

/-!
# The triangular root of a positive definite matrix

The upper triangular `T` with `Tᵀ T = A` and a positive diagonal, row by row. Only the entries of
`A` on and below its diagonal are read. There is none if a remaining diagonal entry is not
positive.
-/

namespace LeastSquares

variable {α : Type} [Scalar α] {n : Nat}

namespace Cholesky

/-- Row `k` of the root, after the rows before it. -/
def row (A T : Mat α n n) (k : Fin n) (pivot : α) : Vec α n :=
  Vec.ofFn fun j =>
    if j = k then pivot
    else if k < j then (A j k - sumOver (· < k) fun l => T l k * T l j) / pivot
    else 0

/-- Fills in the rows of a list, one after the other. -/
def rows (A : Mat α n n) : List (Fin n) → Mat α n n → Option (Mat α n n)
  | [], T => some T
  | k :: ks, T =>
    let square := A k k - sumOver (· < k) fun l => T l k * T l k
    if 0 < square then rows A ks ⟨T.rows.set k (row A T k (sqrt square))⟩ else none

/-- The triangular root of a symmetric matrix. -/
def factor (A : Mat α n n) : Option (Mat α n n) :=
  rows A (List.finRange n) (Mat.ofFn fun _ _ => 0)

/-- The diagonal of the root. -/
def diagonal (T : Mat α n n) : Vec α n := Vec.ofFn fun i => T i i

/-- The solution of `Tᵀ T x = b`. -/
def solve (T : Mat α n n) (b : Vec α n) : Vec α n :=
  Triangular.solveUpper n T (diagonal T) (Triangular.solveTransposed T (diagonal T) b)

end Cholesky

end LeastSquares
