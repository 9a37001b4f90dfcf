import LeastSquares.Proofs.Projection

/-!
# Deferred evaluations in a run

A problem makes its model calls when it is asked for an evaluation, or it defers them until
residuals or Jacobian are read. `runReading` and `optimizeReading` are the optimizers with the
evaluations held as the problem gives them and read wherever something of them is needed: the cost
of every evaluation, both evaluations that a checker is asked about, residuals and Jacobian of the
one that is linearised, and the one that is returned. The cost is read first. So an outstanding
call is made there, or fails there, and no later read makes it again.

`P.journaled` is the problem for a caller who keeps a journal of the calls to model, Jacobian,
validator and checker with their arguments.

Results:
* `LevenbergMarquardt.runReading_eq`, `GaussNewton.runReading_eq`: a run that reads is the run;
* `Problem.journaled_projects`: but for the journal, `P.journaled` is `P`;
* `optimizers_deferral`: the optimizers make the same calls in the same order, and come to the same
  end, whether model calls are deferred or not.
-/

namespace LeastSquares

variable {α β ε σ : Type} {m n : Nat}

/-! ## Reading -/

namespace Deferred

variable {compute : Compute σ α m n}

/-- A read of what the model call finds: the evaluation, and the same with its values kept. -/
def read (compute : Compute σ α m n) (d : Deferred α m n) :
    Act σ (Failure α) (Evaluation α m n × Deferred α m n) := do
  let e ← d.force compute
  return (e, .ofEvaluation e)

theorem read_ofEvaluation (e : Evaluation α m n) (w : σ) :
    ((ofEvaluation e).read compute).after w = (.ok (e, ofEvaluation e), w) := rfl

end Deferred

namespace Problem

variable [Scalar α] (P : Problem σ α m n)

/-- The problem with its model calls deferred or not. -/
def withDeferral (deferred : Bool) : Problem σ α m n := { P with deferred }

/-- A deferred evaluation asks the validator and nobody else. -/
theorem evaluate_withDeferral_true (p : Vec α n) (w : σ) :
    ((P.withDeferral true).evaluate p).after w =
      (((P.validate p).after w).1.map fun q => ⟨q, none⟩, ((P.validate p).after w).2) := by
  have hvalidate : (P.withDeferral true).validate p = P.validate p := rfl
  have hdeferred : (P.withDeferral true).deferred = true := rfl
  unfold evaluate
  rw [hvalidate, hdeferred, Act.after_bind]
  rcases (P.validate p).after w with ⟨f | q, w₁⟩ <;> rfl

theorem withDeferral_projects (deferred : Bool) : (P.withDeferral deferred).Projects id P where
  evaluation p w := ((P.withDeferral deferred).evaluation_after p w).symm ▸ P.evaluation_after p w
  checker := by
    change Option.Rel _ P.checker P.checker
    cases P.checker with
    | none => exact .none
    | some c => exact .some fun _ _ _ _ => rfl
  start_eq := rfl
  maxEvaluations_eq := rfl
  maxIterations_eq := rfl

/-- An evaluation whose cost is read at once. -/
def evaluateCosted (p : Vec α n) : Act σ (Failure α) (Evaluation α m n × Deferred α m n) := do
  (← P.evaluate p).read P.compute

/-- After that read nothing is outstanding. -/
theorem evaluateCosted_after (p : Vec α n) (w : σ) :
    (P.evaluateCosted p).after w =
      (((P.evaluation p).after w).1.map fun e => (e, .ofEvaluation e),
        ((P.evaluation p).after w).2) := by
  unfold evaluateCosted evaluation Deferred.read
  rw [Act.after_bind, Act.after_bind]
  rcases (P.evaluate p).after w with ⟨f | d, w₁⟩
  · rfl
  simp only
  rw [Act.after_bind]
  rcases (d.force P.compute).after w₁ with ⟨f | e, w₂⟩ <;> rfl

/-- The checker's verdict on two evaluations, which are read for it. -/
def consultReading (iteration : Nat) (previous current : Deferred α m n) :
    Act σ (Failure α) (Option Bool) :=
  match P.checker with
  | none => pure none
  | some c => do
    let p ← previous.force P.compute
    let e ← current.force P.compute
    some <$> c.converged iteration p e

theorem consultReading_ofEvaluation (iteration : Nat) (previous current : Evaluation α m n) :
    P.consultReading iteration (.ofEvaluation previous) (.ofEvaluation current) =
      P.consult iteration previous current := by
  unfold consultReading consult
  cases P.checker <;> rfl

end Problem

/-! ## Runs that read -/

namespace LevenbergMarquardt

variable [Scalar α]

/-- The end of a run that returns an evaluation, which is read there. -/
def returning (P : Problem σ α m n) (evaluations iterations : Nat) (d : Deferred α m n) (w : σ) :
    Run σ α m n :=
  match (d.force P.compute).after w with
  | (.error f, w) => Run.ending (.error f) w
  | (.ok e, w) => Run.ending (.ok ⟨e, evaluations, iterations⟩) w

/-- The trials of a run that reads its evaluations. `base` is the one at which its outer iteration
began. -/
def runReading (o : Options α) (P : Problem σ α m n) :
    (left used iteration : Nat) → Search α m n → (base : Deferred α m n) → σ → Run σ α m n
  | 0, _, iteration, s, _, w =>
    (Run.ending (.error (.exceeded .evaluationsExceeded P.maxEvaluations)) w).after
      ⟨iteration, s, s.propose, .unaffordable⟩
  | left + 1, used, iteration, s, base, w =>
    let p := s.propose
    match (P.evaluateCosted p.point).after w with
    | (.error f, w) => (Run.ending (.error f) w).after ⟨iteration, s, p, .failed⟩
    | (.ok (e, current), w) =>
      let a := s.assess p e
      let used := used + 1
      let asked : Act σ (Failure α) (Option Bool) :=
        if a.isAccepted then P.consultReading iteration base current else pure none
      match asked.after w with
      | (.error f, w) => (Run.ending (.error f) w).after ⟨iteration, s, p, .made a none⟩
      | (.ok verdict, w) =>
        let current := if a.isAccepted then current else base
        Run.after ⟨iteration, s, p, .made a verdict⟩ <|
        match s.next o p a verdict with
        | .stop _ => returning P used iteration current w
        | .fail f => Run.ending (.error f) w
        | .retry s => runReading o P left used iteration s base w
        | .renew standing region =>
          if P.maxIterations ≤ iteration then
            Run.ending (.error (.exceeded .iterationsExceeded P.maxIterations)) w
          else
            match (current.read P.compute).after w with
            | (.error f, w) => Run.ending (.error f) w
            | (.ok (e, current), w) =>
              Run.begunAt e <|
              match Search.start o { standing with evaluation := e } region with
              | .error f => Run.ending (.error f) w
              | .ok s =>
                if s.maxCosine ≤ o.orthogonalityTolerance then
                  returning P used (iteration + 1) current w
                else runReading o P left used (iteration + 1) s current w

theorem returning_ofEvaluation (P : Problem σ α m n) (evaluations iterations : Nat)
    (e : Evaluation α m n) (w : σ) : returning P evaluations iterations (.ofEvaluation e) w =
      Run.ending (.ok ⟨e, evaluations, iterations⟩) w := rfl

/-- **A run that reads is the run**: what it reads later has been read with its cost. -/
theorem runReading_eq (o : Options α) (P : Problem σ α m n) (left used iteration : Nat)
    (s : Search α m n) (w : σ) :
    runReading o P left used iteration s (.ofEvaluation s.base) w =
      run o P left used iteration s w := by
  -- the evaluation that an outer iteration began at stays the one that is held
  induction left generalizing used iteration s w with
  | zero => rfl
  | succ left ih =>
    unfold runReading run
    simp only [P.evaluateCosted_after]
    rcases (P.evaluation s.propose.point).after w with ⟨f | e, w₁⟩
    · rfl
    simp only [Except.map, P.consultReading_ofEvaluation]
    rcases (if (s.assess s.propose e).isAccepted then P.consult iteration s.base e
      else pure none : Act σ (Failure α) (Option Bool)).after w₁ with ⟨f | v, w'⟩
    · rfl
    have hcurrent : (if (s.assess s.propose e).isAccepted then Deferred.ofEvaluation e
        else .ofEvaluation s.base) =
          .ofEvaluation (s.standingAfter (s.assess s.propose e)).evaluation := by
      unfold Search.standingAfter
      split_ifs <;> rfl
    simp only [hcurrent]
    congr 1
    cases hn : s.next o s.propose (s.assess s.propose e) v with
    | stop e' =>
      obtain rfl := Search.of_outcome_eq_stop hn
      rfl
    | fail f => rfl
    | retry s' =>
      obtain ⟨-, -, rfl⟩ := Search.of_outcome_eq_retry hn
      exact ih (used + 1) iteration _ w'
    | renew st rg =>
      obtain ⟨-, -, rfl, rfl⟩ := Search.of_outcome_eq_renew hn
      simp only [Deferred.read_ofEvaluation]
      split
      · rfl
      congr 1
      cases hs : Search.start o (s.standingAfter (s.assess s.propose e))
          (s.regionAfter s.propose (s.assess s.propose e)) with
      | error f => rfl
      | ok s' =>
        obtain ⟨d, -, rfl⟩ := Search.of_start_eq_ok hs
        simp only [returning_ofEvaluation]
        split
        · rfl
        · exact ih (used + 1) (iteration + 1) _ w'

/-- The run of a course that reads its evaluations, after that of the start point. -/
def runFromReading (o : Options α) (P : Problem σ α m n) (left : Nat) (e : Evaluation α m n)
    (current : Deferred α m n) (w : σ) : Run σ α m n :=
  let standing := Standing.ofEvaluation e
  if isFinite standing.cost = false then Run.ending (.error (.costNotFinite standing.cost)) w
  else
    match (current.read P.compute).after w with
    | (.error f, w) => Run.ending (.error f) w
    | (.ok (e, current), w) =>
      Run.begunAt e <|
      match Search.start o { standing with evaluation := e } Region.initial with
      | .error f => Run.ending (.error f) w
      | .ok s =>
        if s.maxCosine ≤ o.orthogonalityTolerance then returning P 1 1 current w
        else runReading o P left 1 1 s current w

/-- Solves a problem, reading its evaluations. -/
def optimizeReading (o : Options (Number α)) (P : Problem σ α m n) (w : σ) : Course σ α m n :=
  match P.iterationCounter, P.evaluationCounter with
  | .error f, _ => ⟨Run.ending (.error f) w, .unaffordable⟩
  | .ok _, .error f => ⟨Run.ending (.error f) w, .unaffordable⟩
  | .ok _, .ok evaluations =>
    match evaluations.maximum.toNat with
    | 0 => ⟨Run.ending (.error (.exceeded .evaluationsExceeded P.maxEvaluations)) w, .unaffordable⟩
    | left + 1 =>
      match (P.evaluateCosted P.start).after w with
      | (.error f, w) => ⟨Run.ending (.error f) w, .failed⟩
      | (.ok (e, current), w) => ⟨runFromReading o.values P left e current w, .made e none⟩

theorem runFromReading_eq (o : Options α) (P : Problem σ α m n) (left : Nat)
    (e : Evaluation α m n) (w : σ) :
    runFromReading o P left e (.ofEvaluation e) w = runFrom o P left e w := by
  unfold runFromReading runFrom
  simp only [Deferred.read_ofEvaluation]
  split
  · rfl
  have hst : ({ Standing.ofEvaluation e with evaluation := e } : Standing α m n) =
    .ofEvaluation e := rfl
  rw [hst]
  congr 1
  cases hs : Search.start o (.ofEvaluation e) Region.initial with
  | error f => rfl
  | ok s =>
    obtain ⟨d, -, rfl⟩ := Search.of_start_eq_ok hs
    simp only [returning_ofEvaluation]
    split
    · rfl
    · exact runReading_eq o P left 1 1 _ w

/-- **A course that reads is the course.** -/
theorem optimizeReading_eq (o : Options (Number α)) (P : Problem σ α m n) (w : σ) :
    optimizeReading o P w = optimize o P w := by
  unfold optimizeReading optimize
  cases P.iterationCounter with
  | error f => rfl
  | ok iterations =>
    cases P.evaluationCounter with
    | error f => rfl
    | ok evaluations =>
      simp only
      cases evaluations.maximum.toNat with
      | zero => rfl
      | succ left =>
        simp only [P.evaluateCosted_after]
        rcases (P.evaluation P.start).after w with ⟨f | e, w'⟩
        · rfl
        · simp only [Except.map, runFromReading_eq]

end LevenbergMarquardt

namespace GaussNewton

variable [Spectral α]

/-- The checker's verdict on two consecutive evaluations, which are read for it. -/
def consultReading (checker : Checker σ α) (P : Problem σ α m n) (iteration : Nat)
    (previous : Option (Evaluation α m n × Deferred α m n)) (current : Deferred α m n) :
    Act σ (Failure α) (Option Bool) :=
  match previous with
  | none => pure none
  | some (_, d) => do
    let p ← d.force P.compute
    let e ← current.force P.compute
    some <$> checker.converged iteration p e

/-- The iterations of a run that reads its evaluations. The previous one is held with what was
recorded of it. -/
def runReading (method : Option Method) (checker : Checker σ α) (P : Problem σ α m n) :
    (iterations evaluations done : Nat) → Option (Evaluation α m n × Deferred α m n) →
      Vec α n → σ → Run σ α m n
  | 0, _, _, _, _, w => Run.ending (.error (.exceeded .iterationsExceeded P.maxIterations)) w
  | _ + 1, 0, done, previous, _, w =>
    (Run.ending (.error (.exceeded .evaluationsExceeded P.maxEvaluations)) w).after
      ⟨done + 1, previous.map Prod.fst, .unaffordable⟩
  | iterations + 1, evaluations + 1, done, previous, point, w =>
    let iteration := done + 1
    let before := previous.map Prod.fst
    -- the message about the iteration names the cost
    match (P.evaluateCosted point).after w with
    | (.error f, w) => (Run.ending (.error f) w).after ⟨iteration, before, .failed⟩
    | (.ok (e, current), w) =>
      match (consultReading checker P iteration previous current).after w with
      | (.error f, w) => (Run.ending (.error f) w).after ⟨iteration, before, .made e none⟩
      | (.ok verdict, w) =>
        Run.after ⟨iteration, before, .made e verdict⟩ <|
        match (current.read P.compute).after w with
        | (.error f, w) => Run.ending (.error f) w
        | (.ok (e, current), w) =>
          if verdict == some true then Run.ending (.ok ⟨e, iteration, iteration⟩) w
          else match Method.solveBy method e.jacobian e.residuals with
            | .error f => Run.ending (.error f) w
            | .ok step =>
              runReading method checker P iterations evaluations iteration (some (e, current))
                (Vec.ofFn fun c => current.point c + step c) w

/-- **A run that reads is the run**. -/
theorem runReading_eq (method : Option Method) (c : Checker σ α) (P : Problem σ α m n)
    (iterations evaluations done : Nat) (previous : Option (Evaluation α m n)) (point : Vec α n)
    (w : σ) :
    runReading method c P iterations evaluations done
        (previous.map fun e => (e, .ofEvaluation e)) point w =
      run method c P iterations evaluations done previous point w := by
  induction iterations generalizing evaluations done previous point w with
  | zero => rfl
  | succ iterations ih =>
    have hbefore : (previous.map fun e => (e, Deferred.ofEvaluation e)).map Prod.fst =
        previous := by cases previous <;> rfl
    cases evaluations with
    | zero =>
      unfold runReading run
      rw [hbefore]
    | succ evaluations =>
      unfold runReading run
      simp only [P.evaluateCosted_after, hbefore]
      rcases (P.evaluation point).after w with ⟨f | e, w₁⟩
      · rfl
      have hconsult : consultReading c P (done + 1)
          (previous.map fun e => (e, Deferred.ofEvaluation e)) (.ofEvaluation e) =
            consult c (done + 1) previous e := by cases previous <;> rfl
      simp only [Except.map, hconsult]
      rcases (consult c (done + 1) previous e).after w₁ with ⟨f | v, w'⟩
      · rfl
      simp only [Deferred.read_ofEvaluation]
      congr 1
      split
      · rfl
      · cases Method.solveBy method e.jacobian e.residuals with
        | error f => rfl
        | ok step => exact ih evaluations (done + 1) (some e) _ w'

/-- Solves a problem, reading its evaluations. -/
def optimizeReading (method : Option Method) (P : Problem σ α m n) (w : σ) : Run σ α m n :=
  match P.evaluationCounter, P.iterationCounter with
  | .error f, _ => Run.ending (.error f) w
  | .ok _, .error f => Run.ending (.error f) w
  | .ok evaluations, .ok iterations =>
    match P.checker with
    | none => Run.ending (.error .checkerMissing) w
    | some checker =>
      runReading method checker P iterations.maximum.toNat evaluations.maximum.toNat 0 none
        P.start w

theorem optimizeReading_eq (method : Option Method) (P : Problem σ α m n) (w : σ) :
    optimizeReading method P w = optimize method P w := by
  unfold optimizeReading optimize
  cases P.evaluationCounter with
  | error f => rfl
  | ok evaluations =>
    cases P.iterationCounter with
    | error f => rfl
    | ok iterations =>
      cases P.checker with
      | none => rfl
      | some c => exact runReading_eq method c P _ _ 0 none P.start w

end GaussNewton

/-! ## Journals -/

/-- An evaluation as a checker is shown it. -/
structure Shown (α : Type) where
  observations : Nat
  parameters : Nat
  evaluation : Evaluation α observations parameters

/-- A call to model, Jacobian, validator or checker, with its arguments. -/
inductive Entry (α : Type) (n : Nat) where
  | validate (p : Vec α n)
  /-- One call for value and Jacobian. -/
  | both (p : Vec α n)
  | value (p : Vec α n)
  | jacobian (p : Vec α n)
  | check (iteration : Int) (previous current : Shown α)

/-- The action with an entry for it in the journal beside the state, also if it fails. -/
def Act.entered {ι : Type} (x : ι) (a : Act σ ε β) : Act (σ × List ι) ε β :=
  .ofFn fun s => ((a.after s.1).1, (a.after s.1).2, s.2 ++ [x])

theorem Act.entered_projects {ι : Type} (x : ι) (a : Act σ ε β) :
    (a.entered x).Projects Prod.fst a := fun _ => rfl

/-- The model with a journal of its calls. -/
def Model.journaled : Model σ α n → Model (σ × List (Entry α n)) α n
  | joint f => joint fun p => (f p).entered (.both p)
  | split value jacobian =>
    split (fun p => (value p).entered (.value p)) fun p => (jacobian p).entered (.jacobian p)

/-- The checker with a journal of its calls. The built-in ones call nobody. -/
def Checker.journaled (n : Nat) : Checker σ α → Checker (σ × List (Entry α n)) α
  | entries subject relative absolute limit => entries subject relative absolute limit
  | rms relative absolute => rms relative absolute
  | function f => function fun i e e' => (f i e e').entered (.check i ⟨_, _, e⟩ ⟨_, _, e'⟩)

theorem Checker.journaled_projects [Scalar α] (c : Checker σ α) :
    (c.journaled n).Projects m n Prod.fst c := by
  intro iteration previous current
  unfold converged journaled
  cases c with
  | entries subject relative absolute limit =>
    simp only
    split
    · exact Act.pure_projects _ _
    · cases subject <;> exact Act.ofExcept_projects _ _
  | rms relative absolute => exact Act.ofExcept_projects _ _
  | function f => exact (Act.entered_projects _ _).mapError _

namespace Problem

/-- The problem for a caller who keeps a journal. -/
def journaled (P : Problem σ α m n) : Problem (σ × List (Entry α n)) α m n where
  model := P.model.journaled
  target := P.target
  start := P.start
  weight := P.weight
  checker := P.checker.map (Checker.journaled n)
  maxEvaluations := P.maxEvaluations
  maxIterations := P.maxIterations
  deferred := P.deferred
  validator := P.validator.map fun validator p => (validator p).entered (.validate p)

variable (P : Problem σ α m n)

theorem journaled_call_projects (p : Vec α n) :
    (P.journaled.model.call p).Projects Prod.fst (P.model.call p) := by
  unfold journaled
  cases P.model with
  | joint f => exact Act.entered_projects _ _
  | split value jacobian =>
    exact (Act.entered_projects _ _).bind fun v => (Act.entered_projects _ _).bind fun J =>
      Act.pure_projects _ _

theorem journaled_validate_projects (p : Vec α n) :
    (P.journaled.validate p).Projects Prod.fst (P.validate p) := by
  unfold validate journaled
  cases P.validator with
  | none => exact Act.pure_projects _ _
  | some validator =>
    exact ((Act.entered_projects _ _).mapError _).bind fun q => Act.ofExcept_projects _ _

variable [Scalar α]

theorem journaled_compute_projects (p : Vec α n) :
    (P.journaled.compute p).Projects Prod.fst (P.compute p) :=
  ((P.journaled_call_projects p).mapError _).bind fun _ =>
    (Act.ofExcept_projects _ _).bind fun _ => (Act.ofExcept_projects _ _).bind fun _ =>
      Act.pure_projects _ _

/-- **But for the journal**, the journaled problem is the problem. -/
theorem journaled_projects : P.journaled.Projects Prod.fst P where
  evaluation p w := by
    rw [evaluation_after, evaluation_after, P.journaled_validate_projects p w]
    rcases (P.journaled.validate p).after w with ⟨f | q, w₁⟩
    · rfl
    · simp only [P.journaled_compute_projects q w₁]
  checker := by
    change Option.Rel _ (P.checker.map (Checker.journaled n)) P.checker
    cases P.checker with
    | none => exact .none
    | some c => exact .some c.journaled_projects
  start_eq := rfl
  maxEvaluations_eq := rfl
  maxIterations_eq := rfl

end Problem

/-! ## Both optimizers -/

/-- What a run leaves, with the image of the caller's state. -/
def Outcome.project {τ : Type} (π : τ → σ) (o : Outcome τ α m n) : Outcome σ α m n :=
  ⟨o.result, o.searches, o.consultations, π o.state⟩

namespace Optimizer

variable [Spectral α]

/-- What a course leaves. -/
def outcomeOfCourse (c : LevenbergMarquardt.Course σ α m n) : Outcome σ α m n where
  result := c.result
  searches := c.trials.map fun t => ⟨t.search.region.radius, t.search.region.lambda,
    t.proposal.lambda⟩
  consultations := c.trials.filterMap fun t => t.progress.found?.bind fun a =>
    consultationOf t.iteration t.search.base a.evaluation t.progress.verdict?
  state := c.state

/-- What a run of full steps leaves. -/
def outcomeOfRun (r : GaussNewton.Run σ α m n) : Outcome σ α m n where
  result := r.result
  searches := []
  consultations := r.visits.filterMap fun v => v.progress.found?.bind fun e =>
    v.previous.bind fun p => consultationOf v.iteration p e v.progress.verdict?
  state := r.state

/-- Solves a problem, reading its evaluations. -/
def optimizeReading (opt : Optimizer α) (P : Problem σ α m n) (w : σ) : Outcome σ α m n :=
  match opt with
  | levenbergMarquardt o => outcomeOfCourse (LevenbergMarquardt.optimizeReading o P w)
  | gaussNewton method => outcomeOfRun (GaussNewton.optimizeReading method P w)

/-- **An optimizer reads what it reads without another call.** -/
theorem optimizeReading_eq (opt : Optimizer α) (P : Problem σ α m n) (w : σ) :
    opt.optimizeReading P w = opt.optimize P w := by
  cases opt with
  | levenbergMarquardt o =>
    exact congrArg outcomeOfCourse (LevenbergMarquardt.optimizeReading_eq o P w)
  | gaussNewton method =>
    exact congrArg outcomeOfRun (GaussNewton.optimizeReading_eq method P w)

theorem optimize_project {τ : Type} {π : τ → σ} {Q : Problem τ α m n} {P : Problem σ α m n}
    (h : Q.Projects π P) (opt : Optimizer α) (w : τ) :
    (opt.optimize Q w).project π = opt.optimize P (π w) := by
  cases opt with
  | levenbergMarquardt o =>
    exact congrArg outcomeOfCourse (LevenbergMarquardt.optimize_project h o w)
  | gaussNewton method =>
    exact congrArg outcomeOfRun (GaussNewton.optimize_project h method w)

theorem calls_withDeferral (opt : Optimizer α) (P : Problem σ α m n) (deferred : Bool) (w : σ) :
    opt.calls (P.withDeferral deferred) w = opt.calls P w := by
  have h := P.withDeferral_projects deferred
  cases opt with
  | levenbergMarquardt o =>
    exact congrArg (LevenbergMarquardt.Course.calls P)
      (LevenbergMarquardt.optimize_project h o w)
  | gaussNewton method =>
    exact congrArg (GaussNewton.Run.calls method P) (GaussNewton.optimize_project h method w)

end Optimizer

/-- **Headline.** Whatever the arithmetic, the problem and its budgets: with the model calls
deferred and with the model calls made at once, both optimizers make the same calls to model,
Jacobian, validator and checker in the same order, ask the same questions about the same
evaluations, and come to the same end. What is compared are runs that read their evaluations where
they need them, and these are the runs of the optimizers. -/
theorem optimizers_deferral [Spectral α] (opt : Optimizer α) (P : Problem σ α m n) (w : σ) :
    opt.optimizeReading (P.withDeferral true).journaled (w, []) =
        opt.optimizeReading (P.withDeferral false).journaled (w, []) ∧
      (∀ deferred, (opt.optimizeReading (P.withDeferral deferred).journaled (w, [])).project
        Prod.fst = opt.optimize (P.withDeferral deferred) w) ∧
      opt.calls (P.withDeferral true) w = opt.calls (P.withDeferral false) w := by
  have hread (deferred : Bool) :
      opt.optimizeReading (P.withDeferral deferred).journaled (w, []) =
        opt.optimize P.journaled (w, []) :=
    (opt.optimizeReading_eq _ _).trans
      (Optimizer.optimize_project (P.journaled.withDeferral_projects deferred) opt (w, []))
  refine ⟨(hread true).trans (hread false).symm, fun deferred => ?_, ?_⟩
  · rw [Optimizer.optimizeReading_eq]
    exact Optimizer.optimize_project (P.withDeferral deferred).journaled_projects opt (w, [])
  · rw [opt.calls_withDeferral, opt.calls_withDeferral]

end LeastSquares
