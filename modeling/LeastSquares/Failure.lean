import LeastSquares.Number
import LeastSquares.Scalar.Double
import LeastSquares.Decimal.Layout
import LeastSquares.Failure.Category

/-!
# Failures

Every way in which building a problem, running an optimizer or asking for a statistic can fail,
by its cause. `Failure.category` says to which family it belongs, `Failure.message` gives the text;
a failure that the library only passes on (an array that is no array of numbers, a number that a
factorization refuses, a fault of the model itself) has none.
-/

namespace LeastSquares

/-- The settings of the trust-region method that may not be negative. -/
inductive Bounded where
  | costTolerance
  | parameterTolerance
  | orthogonalityTolerance
  | rankingThreshold
  deriving DecidableEq, Repr

/-- The linear solvers of a full step. -/
inductive Method where
  | lu
  | qr
  | cholesky
  | svd
  deriving DecidableEq, Repr

/-- What went wrong inside a function that the caller supplied: a model, a validator or a checker.
The library only passes it on. -/
inductive Fault where
  /-- An index beyond the last entry. -/
  | outOfRange
  /-- Two arrays whose sizes do not fit together. -/
  | sizes
  /-- There is no function: something else was supplied. -/
  | notCallable
  deriving DecidableEq, Repr

/-- Why an operation failed. -/
inductive Failure (α : Type) where
  /-- A fault of a function that the caller supplied. -/
  | raised (fault : Fault)
  /-- An array with a text in it, with rows of unequal shapes, or of too many dimensions. -/
  | notNumeric
  /-- An array with an entry that is neither a number nor a text. -/
  | notAnEntry
  /-- An array with another count of dimensions. -/
  | dimension (name : String) (expected : Nat)
  /-- An infinite or undefined entry where only finite ones may stand. -/
  | notFinite (name : String)
  /-- An array of another shape. -/
  | shape (name : String) (found expected : List Nat)
  /-- Two arrays whose sizes do not fit together. -/
  | sizes
  /-- An infinite or undefined number handed to a factorization or a triangular solve. -/
  | unsolvable
  /-- A triangular system with a zero on its diagonal. -/
  | zeroPivot
  /-- Writing into an array that may only be read. -/
  | readOnly
  | outOfRange
  | divisionByZero
  /-- A count given as an undefined number. -/
  | undefinedCount
  /-- A count given as an infinite number. -/
  | infiniteCount
  | negativeWeight
  | weightNotSquare (found : List Nat)
  | weightNotSymmetric
  | weightNotSemidefinite
  | weightSize (found expected : Nat)
  | modelNotCallable
  | jacobianNotCallable
  /-- Neither a checker nor a function; `kind` names what was given. -/
  | checkerKind (kind : String)
  | budgetNotPositive (counted : Counted) (given : Number α)
  | countNotPositive (given : Number α)
  | thresholdsNotPositive
  | iterationLimitNotPositive (given : Number α)
  | negativeTolerance
  | stepFactorNotPositive (given : Number α)
  | negativeSetting (setting : Bounded) (given : Number α)
  | unknownDecomposition (name : String)
  | unknownOptimizer (name : String)
  | unknownMethod (name : String)
  | unknownOption (name : String)
  /-- An option that must be a number and is none. -/
  | notANumber (option : String)
  | noSuchSetting (name : String)
  | settingFixed
  | optionsWithOptimizer
  | checkerMissing
  /-- A counter was incremented beyond its maximum, for which it fails with the category. -/
  | exceeded (category : Category) (maximum : Int)
  | singularProblem (method : Method)
  | singularCovariance (threshold : Number α)
  | costNotFinite (cost : α)
  | decomposition (rows columns : Nat)
  | tolerance (which : Tolerance) (given : α)
  | degreesOfFreedom (observations : Nat) (fitted : Number α)
  | parameterNames (found expected : Nat)
  deriving Repr

/-- The text of a number as it was given. -/
def Number.text : Number Float → String
  | .int n => toString n
  | .real x => Decimal.shortestText x

/-- The text of a number with at most six significant digits. -/
def Number.generalText (x : Number Float) : String := Decimal.generalText 6 x.value

/-- The text of a shape; a single size keeps its comma. -/
def shapeText : List Nat → String
  | [k] => s!"({k},)"
  | ks => "(" ++ ", ".intercalate (ks.map toString) ++ ")"

/-- Names in quotes, as a list. -/
def quotedList (names : List String) : String :=
  "[" ++ ", ".intercalate (names.map fun s => "'" ++ s ++ "'") ++ "]"

/-- The name of a setting. -/
def Bounded.name : Bounded → String
  | costTolerance => "cost_relative_tolerance"
  | parameterTolerance => "parameter_relative_tolerance"
  | orthogonalityTolerance => "ortho_tolerance"
  | rankingThreshold => "ranking_threshold"

namespace Method

/-- All solvers, in the order in which they are listed. -/
def all : List Method := [lu, qr, cholesky, svd]

/-- The name by which a solver is chosen. -/
def name : Method → String
  | lu => "lu"
  | qr => "qr"
  | cholesky => "cholesky"
  | svd => "svd"

/-- The name of a solver in texts. -/
def title : Method → String
  | lu => "LU"
  | qr => "QR"
  | cholesky => "Cholesky"
  | svd => "SVD"

/-- The solver of a name. -/
def ofName? (name : String) : Option Method := all.find? (·.name == name)

end Method

/-- The full names of the optimizers, in the order in which they are listed. -/
def optimizerNames : List String := ["levenberg-marquardt", "gauss-newton"]

/-- The other names of the optimizers, in alphabetic order. -/
def optimizerAliases : List String := ["gauss_newton", "gn", "levenberg_marquardt", "lm"]

namespace Failure

/-- The text of a failure, `none` for one that is only passed on. -/
def message : Failure Float → Option String
  | raised _ | notNumeric | notAnEntry | sizes | unsolvable | zeroPivot | readOnly | outOfRange
  | divisionByZero | undefinedCount | infiniteCount | unknownMethod _ | unknownOption _
  | notANumber _ | noSuchSetting _ | settingFixed => none
  | dimension name expected => some s!"{name} must be {expected}-dimensional"
  | notFinite name => some s!"{name} contains NaN or Inf"
  | shape name found expected =>
    some s!"{name} has shape {shapeText found}, expected {shapeText expected}"
  | negativeWeight => some "weights must be non-negative"
  | weightNotSquare found => some s!"weight matrix must be square, got {shapeText found}"
  | weightNotSymmetric => some "weight matrix must be symmetric"
  | weightNotSemidefinite => some "weight matrix must be positive semi-definite"
  | weightSize found expected =>
    some s!"weight has size {found}, expected {expected} (number of observations)"
  | modelNotCallable => some "model must be callable"
  | jacobianNotCallable => some "jacobian must be callable"
  | checkerKind kind => some s!"checker must be a ConvergenceChecker or a callable, got {kind}"
  | budgetNotPositive counted given =>
    some s!"{counted.budget} must be positive, got {given.text}"
  | countNotPositive given => some s!"maximal count must be positive, got {given.text}"
  | thresholdsNotPositive =>
    some ("at least one of relative_threshold and absolute_threshold " ++ "must be positive")
  | iterationLimitNotPositive given =>
    some s!"max_iteration_count must be positive, got {given.text}"
  | negativeTolerance => some "tolerances must be non-negative"
  | stepFactorNotPositive given =>
    some s!"initial_step_bound_factor must be positive, got {given.text}"
  | negativeSetting setting given =>
    some s!"{setting.name} must be non-negative, got {given.text}"
  | unknownDecomposition name =>
    some ("Unknown decomposition: '" ++ name ++ "'\nValid options: " ++
      quotedList (Method.all.map Method.name))
  | unknownOptimizer name =>
    some ("Unknown optimizer: '" ++ name ++ "'\nValid options: " ++
      quotedList (optimizerNames ++ optimizerAliases))
  | optionsWithOptimizer => some "options cannot be combined with an optimizer instance"
  | checkerMissing => some "Gauss-Newton requires a convergence checker"
  | exceeded category maximum =>
    match category.makeup with
    | .plain => some (toString maximum)
    | .maximum what => some (Makeup.maximumText what (toString maximum))
    | .tolerance what =>
      some (Makeup.toleranceText what (Decimal.generalText 6 (Scalar.ofInt maximum)))
    | .decomposition => none
  | singularProblem method => some s!"unable to solve singular problem ({method.title})"
  | singularCovariance threshold =>
    some s!"J^T J is singular (threshold {threshold.generalText})"
  | costNotFinite cost =>
    some s!"cost is not finite at the start point ({Decimal.shortestText cost})"
  | decomposition rows columns =>
    some (Makeup.decompositionText (toString rows) (toString columns))
  | tolerance which given =>
    some (Makeup.toleranceText which.what (Decimal.generalText 6 given))
  | degreesOfFreedom observations fitted =>
    some (s!"no residual degrees of freedom: {observations} " ++
      s!"observations for {fitted.text} fitted parameters")
  | parameterNames found expected => some s!"{found} parameter names for {expected} parameters"

end Failure

/-- The category of a fault of a supplied function. -/
def Fault.category : Fault → Category
  | outOfRange => .index
  | sizes => .value
  | notCallable => .kind

/-- The category of a failure. A maximum alone does not make up a failed decomposition, so a counter
that is to fail with one has been given a category of the wrong kind. -/
def Failure.category {α : Type} : Failure α → Category
  | raised fault => fault.category
  | notNumeric | dimension .. | notFinite _ | shape .. | sizes | unsolvable | readOnly
  | undefinedCount | negativeWeight | weightNotSquare _ | weightNotSymmetric
  | weightNotSemidefinite | weightSize .. | unknownOptimizer _ | unknownMethod _
  | optionsWithOptimizer | degreesOfFreedom .. | parameterNames .. => .value
  | zeroPivot => .linearAlgebra
  | outOfRange => .index
  | divisionByZero => .division
  | infiniteCount => .overflow
  | modelNotCallable | jacobianNotCallable | checkerKind _ | unknownOption _
  | notANumber _ | notAnEntry => .kind
  | noSuchSetting _ => .attribute
  | settingFixed => .fixedField
  | budgetNotPositive .. | countNotPositive _ | thresholdsNotPositive
  | iterationLimitNotPositive _ | negativeTolerance | stepFactorNotPositive _
  | negativeSetting .. | unknownDecomposition _ | checkerMissing => .configuration
  | exceeded category _ => if category.makeup = .decomposition then .kind else category
  | singularProblem _ | costNotFinite _ => .convergence
  | singularCovariance _ => .singularMatrix
  | decomposition .. => .decomposition
  | tolerance which _ => which.category

end LeastSquares
