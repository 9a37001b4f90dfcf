/-!
# Categories of failures

A caller may handle a whole family of failures at once. The failures of the solvers form one
family, `leastSquares`, with the failures of settings, of budgets and of convergence below it; the
others are of the general categories that any computation knows.

The text of a failure of a solver's category follows from the category and from the values that
the failure carries: `Category.makeup` says which ones these are.
-/

namespace LeastSquares

/-- What a bounded counter counts. -/
inductive Counted where
  | anything
  | evaluations
  | iterations
  deriving DecidableEq, Repr

/-- The word for what a counter counts. -/
def Counted.what : Counted → String
  | anything => "count"
  | evaluations => "evaluation count"
  | iterations => "iteration count"

/-- The name of the budget that bounds a counter. -/
def Counted.budget : Counted → String
  | anything => "max_count"
  | evaluations => "max_evaluations"
  | iterations => "max_iterations"

/-- The stopping tolerances of the trust-region method. -/
inductive Tolerance where
  | cost
  | parameters
  | orthogonality
  deriving DecidableEq, Repr

/-- The word for a tolerance. -/
def Tolerance.what : Tolerance → String
  | cost => "cost relative tolerance"
  | parameters => "parameters relative tolerance"
  | orthogonality => "orthogonality tolerance"

/-- A category of failures. -/
inductive Category where
  | leastSquares
  | configuration
  | countExceeded
  | evaluationsExceeded
  | iterationsExceeded
  | convergence
  | singularMatrix
  | decomposition
  | tolerance
  | costTolerance
  | parameterTolerance
  | orthogonalityTolerance
  /-- A value of the right kind that is not acceptable. -/
  | value
  /-- A value of the wrong kind. -/
  | kind
  | index
  | division
  | overflow
  | linearAlgebra
  | fixedField
  | attribute
  deriving DecidableEq, Repr

/-- What a category of solver failures is in general: an unacceptable value, or something that
came up while running. -/
inductive Nature where
  | value
  | runtime
  deriving DecidableEq, Repr

/-- What a failure carries and how its text is made of that. -/
inductive Makeup where
  /-- A text of its own. -/
  | plain
  /-- The maximum of a counter, for the counted things that `what` names. -/
  | maximum (what : String)
  /-- The value of the tolerance that `what` names. -/
  | tolerance (what : String)
  /-- The sizes of a matrix that could not be decomposed. -/
  | decomposition
  deriving DecidableEq, Repr

namespace Makeup

/-- The text of a counter that went beyond its maximum. -/
def maximumText (what maximum : String) : String := s!"maximal {what} ({maximum}) exceeded"

/-- The text of a tolerance that asks for more than rounding allows. -/
def toleranceText (what given : String) : String :=
  s!"{what} too small ({given}), " ++
    "no further improvement in the approximate solution is possible"

/-- The text of a decomposition that met an infinite or undefined column norm. -/
def decompositionText (rows columns : String) : String :=
  s!"unable to perform QR decomposition on the {rows}x{columns} jacobian"

end Makeup

namespace Category

/-- The category itself and the wider ones that it belongs to, the narrowest first. -/
def lineage : Category → List Category
  | configuration => [configuration, leastSquares]
  | countExceeded => [countExceeded, leastSquares]
  | evaluationsExceeded => [evaluationsExceeded, countExceeded, leastSquares]
  | iterationsExceeded => [iterationsExceeded, countExceeded, leastSquares]
  | convergence => [convergence, leastSquares]
  | singularMatrix => [singularMatrix, convergence, leastSquares]
  | decomposition => [decomposition, convergence, leastSquares]
  | tolerance => [tolerance, convergence, leastSquares]
  | costTolerance => [costTolerance, tolerance, convergence, leastSquares]
  | parameterTolerance => [parameterTolerance, tolerance, convergence, leastSquares]
  | orthogonalityTolerance => [orthogonalityTolerance, tolerance, convergence, leastSquares]
  | c => [c]

/-- The general nature of a category of solver failures. -/
def nature? : Category → Option Nature
  | configuration => some .value
  | countExceeded | evaluationsExceeded | iterationsExceeded | convergence | singularMatrix
  | decomposition | tolerance | costTolerance | parameterTolerance
  | orthogonalityTolerance => some .runtime
  | _ => none

/-- What the failures of a category carry. -/
def makeup : Category → Makeup
  | countExceeded => .maximum Counted.anything.what
  | evaluationsExceeded => .maximum Counted.evaluations.what
  | iterationsExceeded => .maximum Counted.iterations.what
  | tolerance => .tolerance "tolerance"
  | costTolerance => .tolerance Tolerance.cost.what
  | parameterTolerance => .tolerance Tolerance.parameters.what
  | orthogonalityTolerance => .tolerance Tolerance.orthogonality.what
  | decomposition => .decomposition
  | _ => .plain

end Category

/-- The category of a counter beyond its maximum. -/
def Counted.category : Counted → Category
  | anything => .countExceeded
  | evaluations => .evaluationsExceeded
  | iterations => .iterationsExceeded

/-- The category of a tolerance that cannot be met. -/
def Tolerance.category : Tolerance → Category
  | cost => .costTolerance
  | parameters => .parameterTolerance
  | orthogonality => .orthogonalityTolerance

end LeastSquares
