import LeastSquares.Scalar

/-!
# Student's distribution

What the statistical report needs of the distribution of an estimate over its standard error.
`LeastSquares.Student.Beta` computes it for doubles.
-/

namespace LeastSquares

/-- Student's distribution over the given scalars. -/
class StudentT (α : Type) [Scalar α] where
  /-- The probability of a value above `t`, for the given degrees of freedom. -/
  upperTail (freedom : Nat) (t : α) : α
  /-- The value that is not exceeded with probability `q`. -/
  quantile (freedom : Nat) (q : α) : α

end LeastSquares
