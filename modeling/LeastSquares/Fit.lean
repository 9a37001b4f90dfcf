import LeastSquares.Optimizer
import LeastSquares.Report

/-!
# Fitting a model

Builds a problem, runs an optimizer on it and reports the estimates.
-/

namespace LeastSquares

variable {α σ : Type}

/-- How the optimizer of a fit was given. -/
inductive OptimizerGiven (α : Type) where
  | name (s : String)
  | optimizer (opt : Optimizer α)

/-- A report with its sizes. -/
structure AnyReport (α : Type) where
  m : Nat
  n : Nat
  report : Report α m n

namespace Fit

/-- The optimizer of a fit. -/
def optimizerOf [Scalar α] (given : OptimizerGiven α) (options : List (String × Setting α)) :
    Except (Failure α) (Optimizer α) :=
  match given with
  | .name s => Optimizer.ofName s options
  | .optimizer opt => opt.reuse options

/-- The checker of a fit: the Gauss-Newton method has one where none is given. -/
def checkerOf [Scalar α] (opt : Optimizer α) (given : CheckerGiven σ α) : CheckerGiven σ α :=
  match opt, given with
  | .gaussNewton _, .none => .checker (.rms (.real 1e-10) (.real 1e-10))
  | _, given => given

/-- Fits a model and reports the estimates. -/
def run [Spectral α] [StudentT α] (given : OptimizerGiven α) (options : List (String × Setting α))
    (parts : ProblemParts σ α) (names : Option (List String)) (state : σ) :
    Except (Failure α) (AnyReport α) := do
  let opt ← optimizerOf given options
  let ⟨m, n, problem⟩ ← Problem.create { parts with checker := checkerOf opt parts.checker }
  let optimum ← (opt.optimize problem state).result
  return ⟨m, n, ← Report.ofOptimum optimum names opt.name Jacobian.defaultThreshold⟩

end Fit

end LeastSquares
