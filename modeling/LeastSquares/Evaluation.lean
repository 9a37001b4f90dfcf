import LeastSquares.Failure
import LeastSquares.Linear.Orthogonal

/-!
# Evaluations

What is known of a problem at a point: the point, the weighted residuals `target - value` and the
weighted Jacobian of the model, together with the statistics that follow from them. The cost is
the norm of the residuals, without a factor of one half.
-/

namespace LeastSquares

variable {α : Type} {m n : Nat}

/-- A point with its residuals and its Jacobian. -/
structure Evaluation (α : Type) (m n : Nat) where
  point : Vec α n
  residuals : Vec α m
  jacobian : Mat α m n

section Statistics

variable [Scalar α]

namespace Residuals

/-- The sum of the squared residuals. -/
def chiSquare (r : Vec α m) : α := dot r r

/-- The norm of the residuals. -/
def cost (r : Vec α m) : α := sqrt (dot r r)

/-- The root of the mean squared residual. There is no mean of no residuals. -/
def rms (r : Vec α m) : Except (Failure α) α :=
  let c := cost r
  if m = 0 then .error .divisionByZero else .ok (sqrt (c * c / (m : α)))

/-- The sum of the squared residuals over the degrees of freedom that `fitted` parameters leave,
which may not be at or below zero. -/
def reducedChiSquare (r : Vec α m) (fitted : Number α) : Except (Failure α) α :=
  let freedom := Number.countLess m fitted
  if freedom.isNonpositive then .error (.degreesOfFreedom m fitted)
  else .ok (chiSquare r / freedom.value)

end Residuals

namespace Jacobian

/-- The threshold below which a pivot of `JᵀJ` makes it singular, unless another is given. -/
def defaultThreshold : Number α := .real 1e-14

/-- The covariances of the parameters, `(JᵀJ)⁻¹`, from the orthogonal factorization of `JᵀJ`
without column exchanges: `R⁻¹ Qᵀ`. A diagonal entry of `R` at or below the threshold in magnitude
makes `JᵀJ` singular. Factors that overflowed cannot be solved with, and a zero on the diagonal that
passes a negative threshold cannot be divided by. -/
def covariances (J : Mat α m n) (threshold : Number α) : Except (Failure α) (Mat α n n) :=
  let normal := J.gram
  if normal.isFinite = false then .error .unsolvable
  else
    let f := Orthogonal.factor false normal
    let d := f.diagonal
    if ∃ k, Scalar.abs (d k) ≤ threshold.value then .error (.singularCovariance threshold)
    else if f.isFinite = false then .error .unsolvable
    else if ∃ k, (d k == 0) = true then .error .zeroPivot
    else
      let columns : Vec (Vec α n) n := Vec.ofFn fun j =>
        Triangular.solveUpper n f.r d (Vec.ofFn fun i => f.q j i)
      .ok (Mat.ofFn fun i j => columns j i)

/-- The square roots of the diagonal of the covariances. -/
def sigma (J : Mat α m n) (threshold : Number α) : Except (Failure α) (Vec α n) := do
  let C ← covariances J threshold
  return Vec.ofFn fun i => sqrt (C i i)

end Jacobian

namespace Evaluation

/-- The norm of the residuals. -/
def cost (e : Evaluation α m n) : α := Residuals.cost e.residuals

/-- The root of the mean squared residual. -/
def rms (e : Evaluation α m n) : Except (Failure α) α := Residuals.rms e.residuals

end Evaluation

end Statistics

end LeastSquares
