import LeastSquares.Weight
import LeastSquares.Checker
import LeastSquares.Counter
import LeastSquares.Evaluation.Deferred
import LeastSquares.Setting

/-!
# Least-squares problems

A problem bundles a model, the observed values, a start point, an optional weight, an optional
convergence checker and the budgets for evaluations and iterations. `Problem.create` builds one
from its parts as they were given, and fails with the first part that is not acceptable;
`Problem.evaluate` evaluates it at a point.

The residuals are `target - value`; the Jacobian is that of the model. Both are multiplied by the
square root of the weight.
-/

namespace LeastSquares

variable {α σ : Type} {m n : Nat}

/-- A model of `n` parameters: one call that returns value and Jacobian, or one call for each. -/
inductive Model (σ α : Type) (n : Nat) where
  | joint (f : Vec α n → Act σ Fault (Nested α × Nested α))
  | split (value jacobian : Vec α n → Act σ Fault (Nested α))

/-- Value and Jacobian as the model returns them. -/
def Model.call (model : Model σ α n) (p : Vec α n) : Act σ Fault (Nested α × Nested α) :=
  match model with
  | joint f => f p
  | split value jacobian => do
    let v ← value p
    let J ← jacobian p
    return (v, J)

/-- A least-squares problem with `m` observations and `n` parameters. -/
structure Problem (σ α : Type) (m n : Nat) where
  model : Model σ α n
  target : Vec α m
  start : Vec α n
  weight : Option (WeightRoot α m)
  checker : Option (Checker σ α)
  maxEvaluations : Int
  maxIterations : Int
  /-- Whether model calls wait until residuals or Jacobian are asked for. -/
  deferred : Bool
  /-- Applied to every point before it is evaluated. -/
  validator : Option (Vec α n → Act σ Fault (Nested α))

namespace Problem

variable [Scalar α]

/-- The residuals of a model value. -/
def residuals (P : Problem σ α m n) (value : Vec α m) : Vec α m :=
  let r : Vec α m := Vec.ofFn fun i => P.target i - value i
  match P.weight with
  | none => r
  | some w => w.weighResiduals r

/-- The Jacobian of a model, weighted. -/
def jacobian (P : Problem σ α m n) (J : Mat α m n) : Mat α m n :=
  match P.weight with
  | none => J
  | some w => w.weighJacobian J

/-- Weighted residuals and Jacobian at a point that is already validated. What the model returns
may be infinite or undefined, but must have the right shape. -/
def compute (P : Problem σ α m n) (p : Vec α n) : Act σ (Failure α) (Vec α m × Mat α m n) := do
  let (value, J) ← (P.model.call p).mapError .raised
  let value ← Act.ofExcept (value.vector "model value" "model value" m)
  let J ← Act.ofExcept (J.matrix "model jacobian" m n)
  return (P.residuals value, P.jacobian J)

/-- The point that is evaluated in place of the given one. -/
def validate (P : Problem σ α m n) (p : Vec α n) : Act σ (Failure α) (Vec α n) :=
  match P.validator with
  | none => pure p
  | some validator => do
    let q ← (validator p).mapError .raised
    Act.ofExcept (q.vector "point" "validated point" n)

/-- The evaluation at a point. -/
def evaluate (P : Problem σ α m n) (p : Vec α n) : Act σ (Failure α) (Deferred α m n) := do
  let p ← P.validate p
  if P.deferred then return ⟨p, none⟩
  else return ⟨p, some (← P.compute p)⟩

/-- The evaluation at a point given as an array. -/
def evaluateAt (P : Problem σ α m n) (p : Nested α) : Act σ (Failure α) (Deferred α m n) := do
  P.evaluate (← Act.ofExcept (p.vector "point" "point" n))

/-- The evaluation at a point with its residuals asked for at once. -/
def evaluation (P : Problem σ α m n) (p : Vec α n) : Act σ (Failure α) (Evaluation α m n) := do
  (← P.evaluate p).force P.compute

/-- A fresh counter for evaluations. -/
def evaluationCounter (P : Problem σ α m n) : Except (Failure α) Counter :=
  Counter.create .evaluationsExceeded (.int P.maxEvaluations)

/-- A fresh counter for iterations. -/
def iterationCounter (P : Problem σ α m n) : Except (Failure α) Counter :=
  Counter.create .iterationsExceeded (.int P.maxIterations)

/-- The text of a problem. -/
def text (P : Problem σ α m n) : String :=
  s!"LocalLeastSquaresProblem(m={m}, n={n}, max_evaluations={P.maxEvaluations}, " ++
    s!"max_iterations={P.maxIterations})"

end Problem

/-! ## Building a problem -/

/-- What was given as a model: a function for value and Jacobian, or one for each of them. It
takes points of any size. -/
inductive ModelGiven (σ α : Type) where
  | joint (f : (n : Nat) → Vec α n → Act σ Fault (Nested α × Nested α))
  | split (value jacobian : (n : Nat) → Vec α n → Act σ Fault (Nested α))
  | notCallable
  | jacobianNotCallable

/-- What was given as a checker. -/
inductive CheckerGiven (σ α : Type) where
  | none
  | checker (c : Checker σ α)
  /-- Something else, of the named kind. -/
  | other (kind : String)

/-- The parts of a problem as they were given. -/
structure ProblemParts (σ α : Type) where
  model : ModelGiven σ α
  target : Nested α
  start : Nested α
  weight : Option (Nested α)
  checker : CheckerGiven σ α
  maxEvaluations : Setting α
  maxIterations : Setting α
  deferred : Bool
  validator : Option ((n : Nat) → Vec α n → Act σ Fault (Nested α))

/-- A problem with its sizes. -/
structure AnyProblem (σ α : Type) where
  m : Nat
  n : Nat
  problem : Problem σ α m n

namespace Problem

/-- The model for points of `n` coordinates. -/
def modelOf (given : ModelGiven σ α) (n : Nat) : Except (Failure α) (Model σ α n) :=
  match given with
  | .joint f => .ok (.joint (f n))
  | .split value jacobian => .ok (.split (value n) (jacobian n))
  | .notCallable => .error .modelNotCallable
  | .jacobianNotCallable => .error .jacobianNotCallable

/-- The root of a weight for `m` observations. -/
def weightOf [Spectral α] (weight : Option (Nested α)) (m : Nat) :
    Except (Failure α) (Option (WeightRoot α m)) := do
  match weight with
  | none => return none
  | some w =>
    let ⟨k, root⟩ ← WeightRoot.ofNested w
    if h : k = m then return some (h ▸ root) else throw (.weightSize k m)

/-- A budget as it was given, which must be a positive number. -/
def budgetOf [Scalar α] (counted : Counted) (given : Setting α) :
    Except (Failure α) (Number α) := do
  let budget ← given.toNumber counted.budget
  if budget.isNonpositive then throw (.budgetNotPositive counted budget) else return budget

/-- The problem with the given parts. They are tested in the order in which they are listed: the
arrays, the functions, the weight, whether the budgets are positive, the checker, and last whether
the budgets are integers. -/
def create [Spectral α] (parts : ProblemParts σ α) : Except (Failure α) (AnyProblem σ α) := do
  let target ← parts.target.checkVector "target" true
  let start ← parts.start.checkVector "start" true
  let model ← modelOf parts.model start.length
  let weight ← weightOf parts.weight target.length
  let evaluations ← budgetOf .evaluations parts.maxEvaluations
  let iterations ← budgetOf .iterations parts.maxIterations
  let checker ← match parts.checker with
    | .none => pure none
    | .checker c => pure (some c)
    | .other kind => throw (.checkerKind kind)
  let maxEvaluations ← evaluations.toCount
  let maxIterations ← iterations.toCount
  return {
    m := target.length
    n := start.length
    problem := {
      model, weight, checker, maxEvaluations, maxIterations
      target := Vec.ofList target
      start := Vec.ofList start
      deferred := parts.deferred
      validator := parts.validator.map fun f => f start.length } }

end Problem

end LeastSquares
