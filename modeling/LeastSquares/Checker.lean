import LeastSquares.Act
import LeastSquares.Beside
import LeastSquares.Evaluation

/-!
# Convergence checkers

A checker decides from two consecutive evaluations whether an optimizer may stop at the second of
them. Three rules are built in: no coordinate of the point moved, no residual changed, the root
mean square of the residuals did not change. Any function of the iteration and the two evaluations
is a checker too.
-/

namespace LeastSquares

variable {α σ : Type}

/-- The part of an evaluation that a checker compares entry by entry. -/
inductive Subject where
  | point
  | residuals
  deriving DecidableEq, Repr

/-- A convergence checker. -/
inductive Checker (σ α : Type) where
  /-- Each entry must pass the relative or the absolute test; from iteration `limit` on, unless
  that is `-1`, nothing is compared and the answer is yes. -/
  | entries (subject : Subject) (relative absolute limit : Number α)
  | rms (relative absolute : Number α)
  | function (f : ∀ {m₁ n₁ m₂ n₂ : Nat},
      Int → Evaluation α m₁ n₁ → Evaluation α m₂ n₂ → Act σ Fault Bool)

namespace Checker

variable [Scalar α]

/-- The limit that is none. -/
def noLimit : Number α := .int (-1)

/-- Whether a limit is the one that is none. -/
def isOff : Number α → Bool
  | .int n => n == -1
  | .real x => x == -1

/-- Whether an iteration has reached a limit. -/
def reaches (iteration : Int) : Number α → Bool
  | .int n => decide (n ≤ iteration)
  | .real x => decide (x ≤ Scalar.ofInt iteration)

/-- A checker of entries. One of the thresholds must be positive, and so must a limit. -/
def ofThresholds (subject : Subject) (relative absolute limit : Number α) :
    Except (Failure α) (Checker σ α) :=
  if relative.isNonpositive && absolute.isNonpositive then .error .thresholdsNotPositive
  else if !isOff limit && limit.isNonpositive then .error (.iterationLimitNotPositive limit)
  else .ok (entries subject relative absolute limit)

/-- A checker of the root mean square. Its tolerances may not be negative. -/
def ofTolerances (relative absolute : Number α) : Except (Failure α) (Checker σ α) :=
  if relative.isNegative || absolute.isNegative then .error .negativeTolerance
  else .ok (rms relative absolute)

/-- Whether an entry fails both tests. -/
def isUnsettled (relative absolute : α) (pair : α × α) : Bool :=
  let (p, c) := pair
  let difference := Scalar.abs (p - c)
  let size := Scalar.largest (Scalar.abs p) (Scalar.abs c)
  decide (size * relative < difference) && decide (absolute < difference)

/-- Whether no entry fails both tests. -/
def settled {a b : Nat} (relative absolute : α) (p : Vec α a) (c : Vec α b) :
    Except (Failure α) Bool :=
  match beside? p.toList c.toList with
  | some pairs => .ok (!pairs.any (isUnsettled relative absolute))
  | none => .error .sizes

/-- Whether two root mean squares differ by no more than a tolerance allows. -/
def rmsSettled (relative absolute p c : α) : Bool :=
  let difference := Scalar.abs (p - c)
  decide (difference ≤ absolute) ||
    decide (difference ≤ relative * Scalar.larger (Scalar.abs p) (Scalar.abs c))

/-- The answer of a checker. -/
def converged {m₁ n₁ m₂ n₂ : Nat} (checker : Checker σ α) (iteration : Int)
    (previous : Evaluation α m₁ n₁) (current : Evaluation α m₂ n₂) : Act σ (Failure α) Bool :=
  match checker with
  | entries subject relative absolute limit =>
    if !isOff limit && reaches iteration limit then pure true
    else match subject with
      | .point => .ofExcept (settled relative.value absolute.value previous.point current.point)
      | .residuals =>
        .ofExcept (settled relative.value absolute.value previous.residuals current.residuals)
  | rms relative absolute => .ofExcept do
    let p ← previous.rms
    let c ← current.rms
    return rmsSettled relative.value absolute.value p c
  | function f => (f iteration previous current).mapError .raised

/-- The kind of a checker, by name. -/
def kind : Checker σ α → String
  | entries .point .. => "SimplePointChecker"
  | entries .residuals .. => "SimpleVectorValueChecker"
  | rms .. => "EvaluationRmsChecker"
  | function _ => "_FunctionChecker"

/-- The text of a checker; a function has none. -/
def text? (checker : Checker σ Float) : Option String :=
  match checker with
  | entries _ relative absolute limit =>
    some (s!"{checker.kind}(relative_threshold={relative.text}, " ++
      s!"absolute_threshold={absolute.text}, max_iteration_count={limit.text})")
  | rms relative absolute =>
    some (s!"{checker.kind}(relative_tolerance={relative.text}, " ++
      s!"absolute_tolerance={absolute.text})")
  | function _ => none

end Checker

end LeastSquares
