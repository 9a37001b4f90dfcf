import LeastSquares.Setting

/-!
# Options of the trust-region method

The options are given as settings. `Options.check` accepts those that are numbers within their
bounds, and names the first that is not.
-/

namespace LeastSquares.LevenbergMarquardt

variable {α κ : Type}

/-- The options: as they were given, as the numbers that were given, or as the numbers that are
computed with. -/
structure Options (κ : Type) where
  /-- The first radius is this factor times the scaled length of the start point, or the factor
  itself if that length is zero. -/
  initialStepFactor : κ
  /-- Stop when the actual and the predicted relative reduction of the cost are at most this. -/
  costTolerance : κ
  /-- Stop when the radius is at most this fraction of the scaled length of the point. -/
  parameterTolerance : κ
  /-- Stop when the cosine between the residuals and every solved column is at most this. -/
  orthogonalityTolerance : κ
  /-- Squared column norms at or below this are negligible. -/
  rankingThreshold : κ
  deriving Repr

namespace Options

/-- Every option through a function. -/
def map {μ : Type} (f : κ → μ) (o : Options κ) : Options μ :=
  ⟨f o.initialStepFactor, f o.costTolerance, f o.parameterTolerance, f o.orthogonalityTolerance,
    f o.rankingThreshold⟩

/-- The options that may not be negative, in the order in which they are tested. -/
def bounded (o : Options κ) : List (Bounded × κ) :=
  [(.costTolerance, o.costTolerance), (.parameterTolerance, o.parameterTolerance),
    (.orthogonalityTolerance, o.orthogonalityTolerance), (.rankingThreshold, o.rankingThreshold)]

/-- The name of the option that must be positive. -/
def stepFactorName : String := "initial_step_bound_factor"

/-- The options with the one of the given name replaced, if there is one of that name. -/
def replace? (o : Options κ) (name : String) (x : κ) : Option (Options κ) :=
  if name = stepFactorName then some { o with initialStepFactor := x }
  else if name = Bounded.costTolerance.name then some { o with costTolerance := x }
  else if name = Bounded.parameterTolerance.name then some { o with parameterTolerance := x }
  else if name = Bounded.orthogonalityTolerance.name then
    some { o with orthogonalityTolerance := x }
  else if name = Bounded.rankingThreshold.name then some { o with rankingThreshold := x }
  else none

variable [Scalar α]

/-- The options that hold where none are given. -/
def standard : Options (Number α) where
  initialStepFactor := .real 100.0
  costTolerance := .real 1e-10
  parameterTolerance := .real 1e-10
  orthogonalityTolerance := .real 1e-10
  rankingThreshold := .real Scalar.leastNormal

/-- The numbers that are computed with. -/
def values (o : Options (Number α)) : Options α := o.map Number.value

/-- A setting that must be positive. -/
def checkFactor (given : Setting α) : Except (Failure α) (Number α) := do
  let x ← given.toNumber stepFactorName
  if x.isPositive then return x else throw (.stepFactorNotPositive x)

/-- A setting that may be neither negative nor undefined. -/
def checkBounded (setting : Bounded) (given : Setting α) : Except (Failure α) (Number α) := do
  let x ← given.toNumber setting.name
  if x.isNonnegative then return x else throw (.negativeSetting setting x)

/-- The numbers of options that are all within their bounds. -/
def check (given : Options (Setting α)) : Except (Failure α) (Options (Number α)) := do
  let initialStepFactor ← checkFactor given.initialStepFactor
  let costTolerance ← checkBounded .costTolerance given.costTolerance
  let parameterTolerance ← checkBounded .parameterTolerance given.parameterTolerance
  let orthogonalityTolerance ← checkBounded .orthogonalityTolerance given.orthogonalityTolerance
  let rankingThreshold ← checkBounded .rankingThreshold given.rankingThreshold
  return ⟨initialStepFactor, costTolerance, parameterTolerance, orthogonalityTolerance,
    rankingThreshold⟩

end Options

end LeastSquares.LevenbergMarquardt
