import LeastSquares.LevenbergMarquardt.Trial
import LeastSquares.Optimum

/-!
# Runs of the trust-region method

A course evaluates the start point and then makes one trial after the other, each of which costs
one evaluation, until a tolerance is met, the checker agrees to stop, a budget is used up or
something fails. The trials are its run. A course keeps how far the evaluation of the start point
got, the evaluation that each of its outer iterations began at and each of its trials, also if it
ends in a failure.
-/

namespace LeastSquares.LevenbergMarquardt

variable {α σ : Type} {m n : Nat}

/-- A trial as it is recorded. -/
structure Trial (α : Type) (m n : Nat) where
  iteration : Nat
  search : Search α m n
  proposal : Proposal α m n
  progress : Progress (Assessment α m n)

/-- A run: the evaluations at which its outer iterations began and its trials, in order, how it
ended, and the caller's state at the end. -/
structure Run (σ α : Type) (m n : Nat) where
  bases : List (Evaluation α m n)
  trials : List (Trial α m n)
  result : Except (Failure α) (Optimum α m n)
  state : σ

namespace Run

/-- A run that ends without another trial. -/
def ending (result : Except (Failure α) (Optimum α m n)) (state : σ) : Run σ α m n :=
  ⟨[], [], result, state⟩

/-- A run with a trial before it. -/
def after (t : Trial α m n) (r : Run σ α m n) : Run σ α m n := { r with trials := t :: r.trials }

/-- A run with the beginning of an outer iteration before it. -/
def begunAt (e : Evaluation α m n) (r : Run σ α m n) : Run σ α m n :=
  { r with bases := e :: r.bases }

/-- The number of outer iterations that were begun. -/
def iterations (r : Run σ α m n) : Nat := r.bases.length

/-- The trials whose evaluation was begun. -/
def evaluated (r : Run σ α m n) : List (Trial α m n) :=
  r.trials.filter fun t => t.progress.isAffordable

end Run

/-- A run together with the evaluation of the start point that came before it. -/
structure Course (σ α : Type) (m n : Nat) extends Run σ α m n where
  start : Progress (Evaluation α m n)

/-- The number of evaluations that were begun. -/
def Course.evaluations (c : Course σ α m n) : Nat :=
  (if c.start.isAffordable then 1 else 0) + c.evaluated.length

variable [Scalar α]

/-- The trials of a run from a search on. `left` evaluations may still be made, `used` have been
made, and the outer iteration is the `iteration`-th. -/
def run (o : Options α) (P : Problem σ α m n) :
    (left used iteration : Nat) → Search α m n → σ → Run σ α m n
  | 0, _, iteration, s, w =>
    (Run.ending (.error (.exceeded .evaluationsExceeded P.maxEvaluations)) w).after
      ⟨iteration, s, s.propose, .unaffordable⟩
  | left + 1, used, iteration, s, w =>
    let p := s.propose
    match (P.evaluation p.point).after w with
    | (.error f, w) => (Run.ending (.error f) w).after ⟨iteration, s, p, .failed⟩
    | (.ok e, w) =>
      let a := s.assess p e
      let used := used + 1
      let asked : Act σ (Failure α) (Option Bool) :=
        if a.isAccepted then P.consult iteration s.base e else pure none
      match asked.after w with
      | (.error f, w) => (Run.ending (.error f) w).after ⟨iteration, s, p, .made a none⟩
      | (.ok verdict, w) =>
        Run.after ⟨iteration, s, p, .made a verdict⟩ <|
        match s.next o p a verdict with
        | .stop e => Run.ending (.ok ⟨e, used, iteration⟩) w
        | .fail f => Run.ending (.error f) w
        | .retry s => run o P left used iteration s w
        | .renew standing region =>
          if P.maxIterations ≤ iteration then
            Run.ending (.error (.exceeded .iterationsExceeded P.maxIterations)) w
          else
            Run.begunAt standing.evaluation <|
            match Search.start o standing region with
            | .error f => Run.ending (.error f) w
            | .ok s =>
              if s.maxCosine ≤ o.orthogonalityTolerance then
                Run.ending (.ok ⟨standing.evaluation, used, iteration + 1⟩) w
              else run o P left used (iteration + 1) s w

/-- The run from an evaluation of the start point on. The cost there must be finite. -/
def runFrom (o : Options α) (P : Problem σ α m n) (left : Nat) (e : Evaluation α m n) (w : σ) :
    Run σ α m n :=
  let standing := Standing.ofEvaluation e
  if isFinite standing.cost = false then Run.ending (.error (.costNotFinite standing.cost)) w
  else
    Run.begunAt e <|
    match Search.start o standing Region.initial with
    | .error f => Run.ending (.error f) w
    | .ok s =>
      if s.maxCosine ≤ o.orthogonalityTolerance then Run.ending (.ok ⟨e, 1, 1⟩) w
      else run o P left 1 1 s w

/-- Solves a problem. -/
def optimize (o : Options (Number α)) (P : Problem σ α m n) (w : σ) : Course σ α m n :=
  match P.iterationCounter, P.evaluationCounter with
  | .error f, _ => ⟨Run.ending (.error f) w, .unaffordable⟩
  | .ok _, .error f => ⟨Run.ending (.error f) w, .unaffordable⟩
  | .ok _, .ok evaluations =>
    match evaluations.maximum.toNat with
    | 0 => ⟨Run.ending (.error (.exceeded .evaluationsExceeded P.maxEvaluations)) w, .unaffordable⟩
    | left + 1 =>
      match (P.evaluation P.start).after w with
      | (.error f, w) => ⟨Run.ending (.error f) w, .failed⟩
      | (.ok e, w) => ⟨runFrom o.values P left e w, .made e none⟩

end LeastSquares.LevenbergMarquardt
