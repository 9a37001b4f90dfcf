import LeastSquares.Optimizer
import LeastSquares.Proofs.Runs
import LeastSquares.Proofs.FullSteps

/-!
# What an optimizer asks its caller for

Model, validator and checker belong to the caller and may remember their calls. So a run shows
itself to the caller as a list of calls: the points at which it has the problem evaluated and the
questions to the checker, in order. They are read off the record of the run: a trial has its point
evaluated if there is budget for it, and asks about the evaluation if it is accepted; an iteration
of the Gauss-Newton method asks from the second one on.

`P.replay calls w` is the state of the caller after these calls, whatever they answer.

Results:
* `LevenbergMarquardt.Courses.state_eq`, `GaussNewton.optimize_state`: a run leaves the caller in
  the state that its calls lead to, so it makes each of them once and no others;
* `Optimizer.optimize_state`: the same of both optimizers.
-/

namespace LeastSquares

variable {α σ : Type} {m n : Nat}

/-- A question to the checker. -/
structure Question (α : Type) (m n : Nat) where
  iteration : Nat
  previous : Evaluation α m n
  current : Evaluation α m n

/-- A call of an optimizer to its caller. -/
inductive Call (α : Type) (m n : Nat) where
  | evaluate (point : Vec α n)
  | ask (q : Question α m n)

/-! ## The caller -/

namespace Problem

variable [Scalar α] (P : Problem σ α m n)

/-- The state of the caller after a call. -/
def stateAfter (w : σ) : Call α m n → σ
  | .evaluate p => ((P.evaluation p).after w).2
  | .ask q => ((P.consult q.iteration q.previous q.current).after w).2

/-- The state of the caller after a list of calls. -/
def replay (calls : List (Call α m n)) (w : σ) : σ := calls.foldl P.stateAfter w

theorem replay_append (calls calls' : List (Call α m n)) (w : σ) :
    P.replay (calls ++ calls') w = P.replay calls' (P.replay calls w) :=
  List.foldl_append

end Problem

/-! ## The trust-region method -/

namespace LevenbergMarquardt

section Record

variable [Scalar α]

/-- The question about a trial: only an accepted one is asked about, if there is a checker. -/
def Trial.question? (P : Problem σ α m n) (t : Trial α m n) : Option (Question α m n) :=
  match t.progress with
  | .made a _ =>
    if a.isAccepted && P.checker.isSome then some ⟨t.iteration, t.search.base, a.evaluation⟩
    else none
  | _ => none

/-- The calls of a trial. -/
def Trial.calls (P : Problem σ α m n) (t : Trial α m n) : List (Call α m n) :=
  (if t.progress.isAffordable then [.evaluate t.proposal.point] else []) ++
    (t.question? P).toList.map .ask

/-- The questions of a run. -/
def Run.questions (P : Problem σ α m n) (r : Run σ α m n) : List (Question α m n) :=
  r.trials.filterMap (Trial.question? P)

/-- The calls of a course: the evaluation of the start point and those of its trials. -/
def Course.calls (P : Problem σ α m n) (c : Course σ α m n) : List (Call α m n) :=
  (if c.start.isAffordable then [.evaluate P.start] else []) ++ c.trials.flatMap (Trial.calls P)

end Record

variable [Scalar α] {P : Problem σ α m n} {left used iteration : Nat} {s : Search α m n} {w : σ}

/-- The calls of a trial whose evaluation was made. -/
theorem Search.replay_trial {e : Evaluation α m n} {w₁ : σ}
    (he : (P.evaluation s.propose.point).after w = (.ok e, w₁)) (v : Option Bool) :
    P.replay ((s.trial iteration e v).calls P) w = ((s.consult P iteration e).after w₁).2 := by
  have hcalls : (s.trial iteration e v).calls P =
      .evaluate s.propose.point :: ((s.trial iteration e v).question? P).toList.map .ask := rfl
  have hstate : P.stateAfter w (.evaluate s.propose.point) = w₁ := congrArg Prod.snd he
  have hquestion : (s.trial iteration e v).question? P =
      if (s.assess s.propose e).isAccepted && P.checker.isSome
      then some ⟨iteration, s.base, e⟩ else none := rfl
  rw [hcalls, hquestion, Problem.replay, List.foldl_cons, hstate, Search.consult]
  cases ha : (s.assess s.propose e).isAccepted with
  | false => rfl
  | true =>
    cases hc : P.checker with
    | none =>
      unfold Problem.consult
      rw [hc]
      rfl
    | some c => rfl

/-- **A run leaves the caller in the state that its calls lead to**. -/
theorem Runs.state_eq {o : Options α} {r : Run σ α m n}
    (h : Runs o P left used iteration s w r) :
    r.state = P.replay (r.trials.flatMap (Trial.calls P)) w := by
  -- a rule adds one trial in front, so what is to be shown is what the calls of that trial do
  have hone {s : Search α m n} {iteration : Nat} {w w' : σ} {e : Evaluation α m n}
      {v : Option Bool} (hj : Judges P iteration s w e v w') :
      P.replay ((s.trial iteration e v).calls P) w = w' := by
    obtain ⟨w₁, he, hc⟩ := hj
    rw [Search.replay_trial he, hc]
  have hlast {s : Search α m n} {iteration : Nat} {w w' : σ} {e : Evaluation α m n}
      {v : Option Bool} (hj : Judges P iteration s w e v w') :
      w' = P.replay ([s.trial iteration e v].flatMap (Trial.calls P)) w := by
    rw [List.flatMap_singleton, hone hj]
  induction h with
  | exhausted used iteration s w => rfl
  | failed he => exact (congrArg Prod.snd he).symm
  | @unanswered left used iteration s w e w₁ f w' he hc =>
    change w' = P.replay ([s.trial iteration e none].flatMap (Trial.calls P)) w
    rw [List.flatMap_singleton, Search.replay_trial he, hc]
  | stopped hj _ | stuck hj _ | overdue hj _ _ | undecomposed hj _ _ _ | orthogonal hj _ _ _ _ =>
    exact hlast hj
  | @retried left used iteration s w e v w' s' r hj hn hr ih =>
    change r.state = P.replay ((s.trial iteration e v :: r.trials).flatMap (Trial.calls P)) w
    rw [List.flatMap_cons, Problem.replay_append, hone hj, ih]
  | @renewed left used iteration s w e v w' st rg s' r hj hn hi hs hc hr ih =>
    change r.state = P.replay ((s.trial iteration e v :: r.trials).flatMap (Trial.calls P)) w
    rw [List.flatMap_cons, Problem.replay_append, hone hj, ih]

/-- **A course leaves the caller in the state that its calls lead to**. -/
theorem Courses.state_eq {o : Options (Number α)} {c : Course σ α m n} (h : Courses o P w c) :
    c.state = P.replay (c.calls P) w := by
  have hstart {e : Except (Failure α) (Evaluation α m n)} {w' : σ}
      (he : (P.evaluation P.start).after w = (e, w')) (calls : List (Call α m n)) :
      P.replay (.evaluate P.start :: calls) w = P.replay calls w' := by
    have hstate : P.stateAfter w (.evaluate P.start) = w' := congrArg Prod.snd he
    rw [Problem.replay, List.foldl_cons, hstate]
    rfl
  cases h with
  | refused => rfl
  | failed _ _ he | infinite _ _ he _ | undecomposed _ _ he _ _ | orthogonal _ _ he _ _ _ =>
    exact (hstart he []).symm
  | begun _ _ he _ _ _ hr => exact hr.state_eq.trans (hstart he _).symm

end LevenbergMarquardt

/-! ## The Gauss-Newton method -/

namespace GaussNewton

/-- The question of an iteration: none at the first one. -/
def Visit.question? (v : Visit α m n) : Option (Question α m n) :=
  match v.progress with
  | .made e _ => v.previous.map fun p => ⟨v.iteration, p, e⟩
  | _ => none

/-- The questions of a run. -/
def Run.questions (r : Run σ α m n) : List (Question α m n) := r.visits.filterMap Visit.question?

variable [Spectral α]

/-- The point that follows an evaluation: the start point, or a step further. -/
def pointAfter (method : Option Method) (P : Problem σ α m n) :
    Option (Evaluation α m n) → Vec α n
  | none => P.start
  | some e =>
    match Method.solveBy method e.jacobian e.residuals with
    | .ok step => Vec.ofFn fun i => e.point i + step i
    | .error _ => e.point

/-- The calls of an iteration. -/
def Visit.calls (method : Option Method) (P : Problem σ α m n) (v : Visit α m n) :
    List (Call α m n) :=
  (if v.progress.isAffordable then [.evaluate (pointAfter method P v.previous)] else []) ++
    v.question?.toList.map .ask

/-- The calls of a run. -/
def Run.calls (method : Option Method) (P : Problem σ α m n) (r : Run σ α m n) :
    List (Call α m n) :=
  r.visits.flatMap (Visit.calls method P)

variable {method : Option Method} {c : Checker σ α} {P : Problem σ α m n}
  {iterations evaluations done : Nat} {previous : Option (Evaluation α m n)} {point : Vec α n}
  {w : σ} {r : Run σ α m n}

/-- The calls of an iteration whose evaluation was made. -/
theorem replay_visit (hc : P.checker = some c) {e : Evaluation α m n} {w₁ : σ}
    (he : (P.evaluation (pointAfter method P previous)).after w = (.ok e, w₁)) (iteration : Nat)
    (v : Option Bool) :
    P.replay (Visit.calls method P ⟨iteration, previous, .made e v⟩) w =
      ((consult c iteration previous e).after w₁).2 := by
  have hcalls : Visit.calls method P ⟨iteration, previous, .made e v⟩ =
      .evaluate (pointAfter method P previous) ::
        (Visit.question? ⟨iteration, previous, .made e v⟩).toList.map .ask := rfl
  have hstate : P.stateAfter w (.evaluate (pointAfter method P previous)) = w₁ :=
    congrArg Prod.snd he
  rw [hcalls, Problem.replay, List.foldl_cons, hstate]
  cases previous with
  | none => rfl
  | some p =>
    change ((P.consult iteration p e).after w₁).2 = _
    unfold Problem.consult
    rw [hc]
    rfl

/-- **A run leaves the caller in the state that its calls lead to**. -/
theorem Runs.state_eq (h : Runs method c P iterations evaluations done previous point w r)
    (hc : P.checker = some c) (hp : point = pointAfter method P previous) :
    r.state = P.replay (r.calls method P) w := by
  induction h with
  | overdue => rfl
  | exhausted => rfl
  | failed he =>
    subst hp
    exact (congrArg Prod.snd he).symm
  | @unanswered _ _ done previous _ w e w₁ f w' he hv =>
    subst hp
    change w' = P.replay ([(⟨done + 1, previous, .made e none⟩ : Visit α m n)].flatMap _) w
    rw [List.flatMap_singleton, replay_visit hc he, hv]
  | @stopped _ _ done previous _ w e w₁ w' he hv =>
    subst hp
    change w' = P.replay ([(⟨done + 1, previous, .made e _⟩ : Visit α m n)].flatMap _) w
    rw [List.flatMap_singleton, replay_visit hc he, hv]
  | @unsolved _ _ done previous _ w e w₁ v w' f he hv _ _ =>
    subst hp
    change w' = P.replay ([(⟨done + 1, previous, .made e v⟩ : Visit α m n)].flatMap _) w
    rw [List.flatMap_singleton, replay_visit hc he, hv]
  | @stepped _ _ done previous _ w e w₁ v w' step r he hv _ hs _ ih =>
    subst hp
    have hnext : (Vec.ofFn fun i => e.point i + step i) = pointAfter method P (some e) := by
      simp only [pointAfter, hs]
    change r.state = P.replay
      ((⟨done + 1, previous, .made e v⟩ :: r.visits).flatMap (Visit.calls method P)) w
    rw [List.flatMap_cons, Problem.replay_append, replay_visit hc he, hv, ih hnext]
    rfl

/-- Without budgets nothing is done. -/
theorem optimize_of_no_budget (h : P.maxEvaluations < 1 ∨ P.maxIterations < 1)
    (method : Option Method) (w : σ) : ∃ f, optimize method P w = Run.ending (.error f) w := by
  unfold optimize Problem.evaluationCounter Problem.iterationCounter
  by_cases hE : P.maxEvaluations < 1
  · rw [LevenbergMarquardt.create_int_of_lt_one _ hE]
    exact ⟨_, rfl⟩
  · rw [Counter.create_int_of_pos _ (by omega),
      LevenbergMarquardt.create_int_of_lt_one _ (h.resolve_left hE)]
    exact ⟨_, rfl⟩

/-- **Solving a problem leaves the caller in the state that its calls lead to**. -/
theorem optimize_state (method : Option Method) (P : Problem σ α m n) (w : σ) :
    (optimize method P w).state = P.replay ((optimize method P w).calls method P) w := by
  by_cases hb : 1 ≤ P.maxEvaluations ∧ 1 ≤ P.maxIterations
  · rw [optimize_eq hb.1 hb.2]
    cases hc : P.checker with
    | none => rfl
    | some c => exact (runs_run method c P _ _ 0 none P.start w).state_eq hc rfl
  · obtain ⟨f, hf⟩ := optimize_of_no_budget (P := P) (by omega) method w
    rw [hf]
    rfl

end GaussNewton

/-! ## Both optimizers -/

namespace Optimizer

variable [Spectral α]

/-- The calls of an optimizer to its caller. -/
def calls (opt : Optimizer α) (P : Problem σ α m n) (w : σ) : List (Call α m n) :=
  match opt with
  | levenbergMarquardt o => (LevenbergMarquardt.optimize o P w).calls P
  | gaussNewton method => (GaussNewton.optimize method P w).calls method P

/-- **An optimizer leaves its caller in the state that its calls lead to**. -/
theorem optimize_state (opt : Optimizer α) (P : Problem σ α m n) (w : σ) :
    (opt.optimize P w).state = P.replay (opt.calls P w) w := by
  cases opt with
  | levenbergMarquardt o => exact (LevenbergMarquardt.courses_optimize o P w).state_eq
  | gaussNewton method => exact GaussNewton.optimize_state method P w

end Optimizer

end LeastSquares
