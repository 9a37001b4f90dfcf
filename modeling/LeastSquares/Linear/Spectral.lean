import LeastSquares.Dense

/-!
# Orthonormal bases

Eigenvectors of a symmetric matrix and singular vectors of any matrix. Both come from iterations
without a closed form, so a solver takes them from the class `Spectral`: it only relies on what
the factors multiply out to. `LeastSquares.Linear.Rotations` computes them for doubles.
-/

namespace LeastSquares

variable {α : Type} {m n k : Nat}

/-- A symmetric matrix as `V diag(values) Vᵀ`, with the eigenvectors as the columns of `V`. -/
structure Eigen (α : Type) (n : Nat) where
  values : Vec α n
  vectors : Mat α n n

/-- A matrix as `scale • U diag(values) Vᵀ`, with `min m n` values at or above zero. The scale keeps
the values of a matrix with very large or very small entries in range. -/
structure Singular (α : Type) (m n : Nat) where
  scale : α
  left : Mat α m (min m n)
  values : Vec α (min m n)
  right : Mat α n (min m n)

/-- Scalars over which matrices have spectral factorizations. -/
class Spectral (α : Type) extends Scalar α where
  /-- The eigenvectors of the symmetric matrix with the given lower triangle. -/
  eigen {n : Nat} : Mat α n n → Eigen α n
  /-- The singular vectors of a matrix. -/
  singular {m n : Nat} : Mat α m n → Singular α m n

namespace Singular

variable [Scalar α]

/-- The largest of the values. -/
def largest (s : Singular α m n) : α :=
  Fin.foldl (min m n) (fun b i => Scalar.larger b (s.values i)) 0

/-- What a right-hand side is divided by, so that sums of its entries stay in range: its largest
magnitude if that is above `2⁹⁶⁹` or below `2⁻⁹⁶⁹`, else one. -/
def scaleOf (b : Vec α m) : α :=
  let magnitude := Fin.foldl m (fun s i => Scalar.larger s (Scalar.abs (b i))) 0
  let huge : α := ((Nat.pow 2 969 : Nat) : α)
  if magnitude == 0 then 1
  else if magnitude < 1 / huge ∨ huge < magnitude then magnitude else 1

/-- The shortest of the vectors `x` that minimise `‖A x - b‖`. Values not above `epsilon` times the
largest one count as zero. -/
def solve (s : Singular α m n) (b : Vec α m) : Vec α n :=
  let cutoff := Scalar.epsilon * s.largest
  let size := scaleOf b
  let weights : Vec α (min m n) := Vec.ofFn fun k =>
    if cutoff < s.values k then (sum fun i => s.left i k * (b i / size)) / s.values k else 0
  Vec.ofFn fun j => (sum fun k => s.right j k * weights k) / s.scale * size

end Singular

end LeastSquares
