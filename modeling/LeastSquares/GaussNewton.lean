import LeastSquares.Optimum
import LeastSquares.Step

/-!
# The Gauss-Newton method

Full steps of the linearised problem, one per iteration, until the convergence checker agrees to
stop. The checker is the only stopping rule, so there must be one; it is asked from the second
iteration on, with the two latest evaluations.
-/

namespace LeastSquares.GaussNewton

variable {α σ : Type} {m n : Nat}

/-- An iteration as it is recorded: the evaluation before it, and how far it got itself. -/
structure Visit (α : Type) (m n : Nat) where
  iteration : Nat
  previous : Option (Evaluation α m n)
  progress : Progress (Evaluation α m n)

/-- A run: its iterations in order, how it ended, and the caller's state at the end. -/
structure Run (σ α : Type) (m n : Nat) where
  visits : List (Visit α m n)
  result : Except (Failure α) (Optimum α m n)
  state : σ

namespace Run

/-- A run that ends without another iteration. -/
def ending (result : Except (Failure α) (Optimum α m n)) (state : σ) : Run σ α m n :=
  ⟨[], result, state⟩

/-- A run with an iteration before it. -/
def after (v : Visit α m n) (r : Run σ α m n) : Run σ α m n := { r with visits := v :: r.visits }

/-- The number of iterations that were begun. -/
def iterations (r : Run σ α m n) : Nat := r.visits.length

/-- The iterations whose evaluation was begun. -/
def evaluated (r : Run σ α m n) : List (Visit α m n) :=
  r.visits.filter fun v => v.progress.isAffordable

end Run

variable [Spectral α]

/-- The checker's verdict on two consecutive evaluations, `none` at the first one. -/
def consult (checker : Checker σ α) (iteration : Nat) (previous : Option (Evaluation α m n))
    (current : Evaluation α m n) : Act σ (Failure α) (Option Bool) :=
  match previous with
  | none => pure none
  | some p => some <$> checker.converged iteration p current

/-- The iterations of a run after the first `done` ones. `iterations` and `evaluations` may still
be used. -/
def run (method : Option Method) (checker : Checker σ α) (P : Problem σ α m n) :
    (iterations evaluations done : Nat) → Option (Evaluation α m n) → Vec α n → σ → Run σ α m n
  | 0, _, _, _, _, w => Run.ending (.error (.exceeded .iterationsExceeded P.maxIterations)) w
  | _ + 1, 0, done, previous, _, w =>
    (Run.ending (.error (.exceeded .evaluationsExceeded P.maxEvaluations)) w).after
      ⟨done + 1, previous, .unaffordable⟩
  | iterations + 1, evaluations + 1, done, previous, point, w =>
    let iteration := done + 1
    match (P.evaluation point).after w with
    | (.error f, w) => (Run.ending (.error f) w).after ⟨iteration, previous, .failed⟩
    | (.ok e, w) =>
      match (consult checker iteration previous e).after w with
      | (.error f, w) => (Run.ending (.error f) w).after ⟨iteration, previous, .made e none⟩
      | (.ok verdict, w) =>
        Run.after ⟨iteration, previous, .made e verdict⟩ <|
        if verdict == some true then Run.ending (.ok ⟨e, iteration, iteration⟩) w
        else match Method.solveBy method e.jacobian e.residuals with
          | .error f => Run.ending (.error f) w
          | .ok step =>
            run method checker P iterations evaluations iteration (some e)
              (Vec.ofFn fun c => e.point c + step c) w

/-- Solves a problem. -/
def optimize (method : Option Method) (P : Problem σ α m n) (w : σ) : Run σ α m n :=
  match P.evaluationCounter, P.iterationCounter with
  | .error f, _ => Run.ending (.error f) w
  | .ok _, .error f => Run.ending (.error f) w
  | .ok evaluations, .ok iterations =>
    match P.checker with
    | none => Run.ending (.error .checkerMissing) w
    | some checker =>
      run method checker P iterations.maximum.toNat evaluations.maximum.toNat 0 none P.start w

end LeastSquares.GaussNewton
