import LeastSquares.Optimum
import LeastSquares.Student

/-!
# The statistical report of a fit

Standard errors, t values, p values and confidence intervals of the parameters at an optimum, as
in a table of a regression. With residual variance `s² = χ² / (m - n)`, the covariances of the
estimates are `s² (JᵀJ)⁻¹`.

Without residual degrees of freedom, or if `JᵀJ` is singular, there is no inference: everything
in `Inference` is undefined then.
-/

namespace LeastSquares

variable {α : Type} {m n : Nat}

/-- What is known of the uncertainty of the estimates. -/
structure Inference (α : Type) (n : Nat) where
  covariances : Mat α n n
  standardErrors : Vec α n
  tValues : Vec α n
  pValues : Vec α n

/-- The report of a fit. -/
structure Report (α : Type) (m n : Nat) where
  optimum : Optimum α m n
  optimizerName : String
  names : List String
  rms : α
  /-- Missing without residual degrees of freedom. -/
  residualVariance : Option α
  /-- Whether `JᵀJ` is singular. -/
  singular : Bool
  inference : Option (Inference α n)

namespace Report

/-- The estimates. -/
def coefficients (r : Report α m n) : Vec α n := r.optimum.evaluation.point

/-- The residual degrees of freedom, negative if there are more parameters than observations. -/
def freedom (_ : Report α m n) : Int := (m : Int) - n

/-- The names of parameters without names. -/
def defaultNames (n : Nat) : List String := (List.range n).map fun i => s!"p{i}"

/-- The names given for `n` parameters, which must be as many, or those that stand in for them. -/
def namesFor (names : Option (List String)) (n : Nat) : Except (Failure α) (List String) :=
  let names := names.getD (defaultNames n)
  if names.length = n then .ok names else .error (.parameterNames names.length n)

variable [Scalar α] [StudentT α]

/-- The probability of an estimate as far from zero as the given t value. -/
def pValue (freedom : Nat) (t : α) : α := 2.0 * StudentT.upperTail freedom (Scalar.abs t)

/-- The number of standard errors on each side of an interval of significance `level`. -/
def critical (freedom : Nat) (level : α) : α := StudentT.quantile freedom (1 - level / 2.0)

/-- The ends of the interval of `t` standard errors on each side of an estimate. -/
def interval (t estimate error : α) : α × α := (estimate - t * error, estimate + t * error)

/-- The uncertainty of estimates with the given residual variance and the given `(JᵀJ)⁻¹`. -/
def infer (estimates : Vec α n) (freedom : Nat) (variance : α) (inverse : Mat α n n) :
    Inference α n :=
  let covariances := inverse.map (· * variance)
  let errors : Vec α n := Vec.ofFn fun i => sqrt (covariances i i)
  let tValues : Vec α n := Vec.ofFn fun i => estimates i / errors i
  { covariances
    standardErrors := errors
    tValues
    pValues := tValues.map (pValue freedom) }

/-- The covariances `(JᵀJ)⁻¹` of a Jacobian, `none` if `JᵀJ` is singular. -/
def inverseOf {r c : Nat} (J : Mat α r c) (threshold : Number α) :
    Except (Failure α) (Option (Mat α c c)) :=
  match Jacobian.covariances J threshold with
  | .ok C => .ok (some C)
  | .error (.singularCovariance _) => .ok none
  | .error f => .error f

/-- The report of an optimum. A singular `JᵀJ` is no failure; all other failures of a statistic
are. -/
def ofOptimum (optimum : Optimum α m n) (names : Option (List String)) (optimizerName : String)
    (threshold : Number α) : Except (Failure α) (Report α m n) := do
  let names ← namesFor names n
  let e := optimum.evaluation
  let rms ← e.rms
  let variance := (Residuals.reducedChiSquare e.residuals (.int n)).toOption
  let inverse ← inverseOf e.jacobian threshold
  return {
    optimum, optimizerName, names, rms
    residualVariance := variance
    singular := inverse.isNone
    inference := do return infer e.point (m - n) (← variance) (← inverse) }

/-- The ends of the confidence intervals of significance `level`, `none` without inference. -/
def confidence (r : Report α m n) (level : α) : Option (Vec α n × Vec α n) :=
  r.inference.map fun i =>
    let t := critical (m - n) level
    let ends (c : Fin n) := interval t (r.coefficients c) (i.standardErrors c)
    (Vec.ofFn fun c => (ends c).1, Vec.ofFn fun c => (ends c).2)

end Report

end LeastSquares
