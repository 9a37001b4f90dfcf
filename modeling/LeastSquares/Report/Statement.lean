import LeastSquares.Beside
import LeastSquares.Nested
import LeastSquares.Report
import LeastSquares.Student.Beta

/-!
# Statements

A report as it is read: single numbers and lists of numbers, undefined where there is no inference.
A statement is laid out from the report of a fit (`Statement.ofReport`), or drawn up from a point,
residuals and a Jacobian whose sizes need not fit together (`Statement.ofArrays`): then there may be
more or fewer standard errors than estimates, and what needs as many of them fails.
-/

namespace LeastSquares

/-- A report as it is read. -/
structure Statement where
  optimizerName : String
  names : List String
  coefficients : List Float
  residuals : List Float
  evaluations : Number Float
  iterations : Number Float
  rms : Float
  /-- Undefined without residual degrees of freedom. -/
  residualVariance : Float
  /-- Whether `JᵀJ` is singular. -/
  singular : Bool
  covariances : List (List Float)
  standardErrors : List Float
  tValues : List Float
  pValues : List Float

namespace Statement

/-- The number of residuals. -/
def observations (s : Statement) : Nat := s.residuals.length

/-- The number of estimates. -/
def parameters (s : Statement) : Nat := s.coefficients.length

/-- The residual degrees of freedom. -/
def freedom (s : Statement) : Int := s.observations - s.parameters

/-- The sum of the squared residuals. -/
def chiSquare (s : Statement) : Float := Residuals.chiSquare (Vec.ofList s.residuals)

/-- The norm of the residuals. -/
def cost (s : Statement) : Float := Residuals.cost (Vec.ofList s.residuals)

/-- A list of undefined numbers. -/
def undefinedList (n : Nat) : List Float := List.replicate n undefined

/-- A square of undefined numbers. -/
def undefinedSquare (n : Nat) : List (List Float) := List.replicate n (undefinedList n)

/-- The report of a fit. -/
def ofReport {m n : Nat} (r : Report Float m n) : Statement :=
  let vector (f : Inference Float n → Vec Float n) : List Float :=
    (r.inference.map fun i => (f i).toList).getD (undefinedList n)
  { optimizerName := r.optimizerName
    names := r.names
    coefficients := r.coefficients.toList
    residuals := r.optimum.evaluation.residuals.toList
    evaluations := .int r.optimum.evaluations
    iterations := .int r.optimum.iterations
    rms := r.rms
    residualVariance := r.residualVariance.getD undefined
    singular := r.singular
    covariances := (r.inference.map fun i => i.covariances.toLists).getD (undefinedSquare n)
    standardErrors := vector Inference.standardErrors
    tValues := vector Inference.tValues
    pValues := vector Inference.pValues }

/-- The entries of an array of one dimension. -/
def entriesOf (a : Nested Float) : Except (Failure Float) (List Float) := do
  match ← a.shapeOf with
  | [] => throw .outOfRange
  | [_] => return a.flatten
  | _ => throw .sizes

/-- A list divided by another entry by entry. -/
def quotients (xs ys : List Float) : Except (Failure Float) (List Float) :=
  match beside? xs ys with
  | some pairs => .ok (pairs.map fun (x, y) => x / y)
  | none => .error .sizes

/-- The covariances of estimates with the given residual variance, undefined for each of the `n`
estimates if there is no `(JᵀJ)⁻¹`, with their standard errors. -/
def uncertainty {c : Nat} (n : Nat) (variance : Float) (inverse : Option (Mat Float c c)) :
    List (List Float) × List Float :=
  match inverse with
  | none => (undefinedSquare n, undefinedList n)
  | some C =>
    let C := C.map (· * variance)
    (C.toLists, (List.finRange c).map fun i => Float.sqrt (C i i))

/-- The statement of a point, residuals and a Jacobian given as arrays. -/
def ofArrays (point residuals jacobian : Nested Float) (names : Option (List String))
    (optimizerName : String) (evaluations iterations threshold : Number Float) :
    Except (Failure Float) Statement := do
  for a in [point, residuals, jacobian] do
    let _ ← a.shapeOf
  let coefficients ← entriesOf point
  let n := coefficients.length
  let names ← Report.namesFor names n
  let residuals ← entriesOf residuals
  let r := Vec.ofList residuals
  let rms ← Residuals.rms r
  let variance := ((Residuals.reducedChiSquare r (.int n)).toOption).getD undefined
  let (k, c, rows) ← (jacobian.matrixRows "jacobian").mapError fun _ => .sizes
  match Mat.ofLists? k c rows with
  | none => throw .sizes
  | some J =>
    let inverse ← Report.inverseOf J threshold
    let (covariances, standardErrors) := uncertainty n variance inverse
    let tValues ← quotients coefficients standardErrors
    return {
      optimizerName, names, coefficients, residuals, evaluations, iterations, rms
      residualVariance := variance
      singular := inverse.isNone
      covariances, standardErrors, tValues
      pValues := if n < residuals.length then
          tValues.map (Report.pValue (residuals.length - n))
        else undefinedList n }

/-- A list with one entry for each name. -/
def forNames (s : Statement) {β : Type} (xs : List β) : Except (Failure Float) (List β) :=
  if xs.length = s.names.length then .ok xs else .error .sizes

/-- The standard errors by name. -/
def namedErrors (s : Statement) : Except (Failure Float) (List Float) :=
  s.forNames s.standardErrors

/-- The ends of the confidence intervals of significance `level`, by name. -/
def confidence (s : Statement) (level : Float) : Except (Failure Float) (List (Float × Float)) :=
  let t := if 0 < s.freedom then Report.critical s.freedom.toNat level else undefined
  match beside? s.coefficients s.standardErrors with
  | some pairs => s.forNames (pairs.map fun (x, e) => Report.interval t x e)
  | none => .error .sizes

end Statement

end LeastSquares
