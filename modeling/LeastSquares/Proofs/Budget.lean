import LeastSquares.Linear.Rotations
import LeastSquares.Proofs.FullSteps
import LeastSquares.Proofs.InnerFailures
import LeastSquares.Proofs.Tally

/-!
# Budgets are exact

What the optimizers spend. Their loops are recursions on the evaluations (Gauss-Newton: on the
iterations) that are left, so they come to an end with every model, checker and arithmetic; what is
to be shown is that the two counters tell what was spent, wherever a run ends.

`Budgeted E I calls iterations result` is the account of a finished run. It is kept by every rule of
the runs: the evaluations counted so far and those still left make up the budget. A counter is
exceeded at two places of a run only, because nothing that fails within it does so for a counter.

Results:
* `LevenbergMarquardt.Runs.budgeted`, `GaussNewton.Runs.budgeted`: every run keeps the account;
* `optimizers_budgeted`: both optimizers do so, with the evaluations counted by the caller.
-/

namespace LeastSquares

variable {α σ : Type} {m n : Nat}

/-! ## Accounts -/

/-- An account of `calls` evaluations and `iterations` outer iterations that ended in `result`, with
the budgets `E` and `I`. -/
structure Budgeted (E I : Int) (calls iterations : Nat)
    (result : Except (Failure α) (Optimum α m n)) : Prop where
  calls_le : calls ≤ E
  iterations_le : iterations ≤ I
  /-- An optimum tells both numbers. -/
  optimum : ∀ found, result = .ok found → found.evaluations = calls ∧
    found.iterations = iterations ∧ 1 ≤ found.iterations ∧ found.iterations ≤ found.evaluations
  /-- A counter is exceeded only once its budget is used up, and the failure tells the budget. -/
  exceeded : ∀ category k, result = .error (.exceeded category k) →
    (category = .evaluationsExceeded ∧ k = E ∧ calls = E) ∨
      (category = .iterationsExceeded ∧ k = I ∧ iterations = I)

section Budgeted

variable {E I : Int} (calls iterations : Nat)

/-- A failure that is not of a budget says nothing about the numbers. -/
theorem budgeted_error (hE : calls ≤ E) (hI : iterations ≤ I) {f : Failure α}
    (hf : ∀ category k, f ≠ .exceeded category k) :
    Budgeted E I calls iterations (.error f : Except (Failure α) (Optimum α m n)) :=
  ⟨hE, hI, nofun, fun category k h => absurd (Except.error.inj h) (hf category k)⟩

theorem budgeted_of_isInner (hE : calls ≤ E) (hI : iterations ≤ I) {f : Failure α}
    (hf : f.isInner) :
    Budgeted E I calls iterations (.error f : Except (Failure α) (Optimum α m n)) :=
  budgeted_error calls iterations hE hI (Failure.ne_exceeded_of_isInner hf)

theorem budgeted_ok (hE : calls ≤ E) (hI : iterations ≤ I) (h1 : 1 ≤ iterations)
    (hle : iterations ≤ calls) (e : Evaluation α m n) :
    Budgeted E I calls iterations (.ok ⟨e, calls, iterations⟩) := by
  refine ⟨hE, hI, ?_, nofun⟩
  intro found h
  cases h
  exact ⟨rfl, rfl, h1, hle⟩

theorem budgeted_evaluationsExceeded (hE : calls = E) (hI : iterations ≤ I) :
    Budgeted E I calls iterations
      (.error (.exceeded .evaluationsExceeded E) : Except (Failure α) (Optimum α m n)) := by
  refine ⟨Int.le_of_eq hE, hI, nofun, ?_⟩
  intro category k h
  cases h
  exact .inl ⟨rfl, rfl, hE⟩

theorem budgeted_iterationsExceeded (hE : calls ≤ E) (hI : iterations = I) :
    Budgeted E I calls iterations
      (.error (.exceeded .iterationsExceeded I) : Except (Failure α) (Optimum α m n)) := by
  refine ⟨hE, Int.le_of_eq hI, nofun, ?_⟩
  intro category k h
  cases h
  exact .inr ⟨rfl, rfl, hI⟩

end Budgeted

/-! ## The trust-region method -/

namespace LevenbergMarquardt

section Scalar

variable [Scalar α] {P : Problem σ α m n} {o : Options α} {left used iteration : Nat}
  {s : Search α m n} {w : σ} {r : Run σ α m n}

/-- **Every run keeps the account**: `used` evaluations and `iteration` outer iterations are on it
before the run, and the evaluations that are left are those that the budget still allows. -/
theorem Runs.budgeted (h : Runs o P left used iteration s w r)
    (hE : P.maxEvaluations = (used + left : Nat)) (hI : iteration ≤ P.maxIterations)
    (h1 : 1 ≤ iteration) (hle : iteration ≤ used) :
    Budgeted P.maxEvaluations P.maxIterations (used + r.evaluated.length)
      (iteration + r.bases.length) r.result := by
  induction h with
  | exhausted used iteration s w => exact budgeted_evaluationsExceeded used iteration hE.symm hI
  | @failed left used iteration s w f w' he =>
    exact budgeted_of_isInner (used + 1) iteration (by omega) hI
      ((P.inner_evaluation s.propose.point).of_after_eq he)
  | @unanswered left used iteration s w e w₁ f w' he hc =>
    exact budgeted_of_isInner (used + 1) iteration (by omega) hI
      ((s.inner_consult P iteration e).of_after_eq hc)
  | @stopped left used iteration s w e v w' e' hj hn =>
    exact budgeted_ok (used + 1) iteration (by omega) hI h1 (by omega) e'
  | @stuck left used iteration s w e v w' f hj hn =>
    obtain ⟨tolerance, x, rfl⟩ := Search.of_outcome_eq_fail hn
    exact budgeted_error (used + 1) iteration (by omega) hI nofun
  | @retried left used iteration s w e v w' s' r hj hn hr ih =>
    have hnext := ih (by omega) hI h1 (by omega)
    rw [Nat.add_right_comm] at hnext
    exact hnext
  | @overdue left used iteration s w e v w' st rg hj hn hi =>
    exact budgeted_iterationsExceeded (used + 1) iteration (by omega) (by omega)
  | @undecomposed left used iteration s w e v w' st rg f hj hn hi hs =>
    exact budgeted_of_isInner (used + 1) (iteration + 1) (by omega) (by omega)
      ((Search.inner_start o st rg).of_error f hs)
  | @orthogonal left used iteration s w e v w' st rg s' hj hn hi hs hc =>
    exact budgeted_ok (used + 1) (iteration + 1) (by omega) (by omega)
      (by omega) (by omega) st.evaluation
  | @renewed left used iteration s w e v w' st rg s' r hj hn hi hs hc hr ih =>
    have hnext := ih (by omega) (by omega) (by omega) (by omega)
    rw [Nat.add_right_comm, Nat.add_right_comm iteration] at hnext
    exact hnext

/-- Every trial but the last costs an evaluation. -/
theorem Runs.length_trials_le (h : Runs o P left used iteration s w r) :
    r.trials.length ≤ left + 1 := by
  induction h with
  | exhausted => exact Nat.le_refl 1
  | failed | unanswered | stopped | stuck | overdue | undecomposed | orthogonal =>
    exact Nat.le_add_left 1 _
  | retried _ _ _ ih => exact Nat.succ_le_succ ih
  | renewed _ _ _ _ _ _ ih => exact Nat.succ_le_succ ih

end Scalar

section Course

variable [Scalar α] {P : Problem σ α m n} {o : Options (Number α)} {w : σ} {c : Course σ α m n}

/-- **Every course keeps the account**. -/
theorem Courses.budgeted (h : Courses o P w c) (hE : 1 ≤ P.maxEvaluations)
    (hI : 1 ≤ P.maxIterations) :
    Budgeted P.maxEvaluations P.maxIterations c.evaluations c.iterations c.result := by
  cases h with
  | refused hb f => omega
  | failed _ _ he =>
    exact budgeted_of_isInner 1 0 hE (by omega) ((P.inner_evaluation P.start).of_after_eq he)
  | infinite => exact budgeted_error 1 0 hE (by omega) nofun
  | @undecomposed left e w' f _ _ _ _ hs =>
    exact budgeted_of_isInner 1 1 hE hI
      ((Search.inner_start o.values (.ofEvaluation e) Region.initial).of_error f hs)
  | orthogonal => exact budgeted_ok 1 1 hE hI (Nat.le_refl 1) (Nat.le_refl 1) _
  | @begun left e w' s r hleft _ _ _ _ _ hr =>
    have hrun := hr.budgeted (by omega) hI (Nat.le_refl 1) (Nat.le_refl 1)
    rw [Nat.add_comm 1 r.bases.length] at hrun
    exact hrun

/-- A course has no more trials than its budget allows evaluations. -/
theorem Courses.length_trials_le (h : Courses o P w c) (hE : 1 ≤ P.maxEvaluations) :
    c.trials.length ≤ P.maxEvaluations := by
  cases h with
  | @begun left e w' s r hleft _ _ _ _ _ hr =>
    have hlen := hr.length_trials_le
    change (r.trials.length : Int) ≤ _
    omega
  | _ => exact Int.le_trans Int.one_nonneg hE

end Course

end LevenbergMarquardt

/-! ## The Gauss-Newton method -/

namespace GaussNewton

variable [Spectral α]

variable {method : Option Method} {c : Checker σ α} {P : Problem σ α m n}
  {iterations evaluations done : Nat} {previous : Option (Evaluation α m n)} {point : Vec α n}
  {w : σ} {r : Run σ α m n}

/-- **Every run keeps the account**: the first `done` iterations made one evaluation each. -/
theorem Runs.budgeted (h : Runs method c P iterations evaluations done previous point w r)
    (hE : P.maxEvaluations = (done + evaluations : Nat))
    (hI : P.maxIterations = (done + iterations : Nat)) :
    Budgeted P.maxEvaluations P.maxIterations (done + r.evaluated.length) (done + r.iterations)
      r.result := by
  induction h with
  | overdue evaluations done => exact budgeted_iterationsExceeded done done (by omega) hI.symm
  | exhausted iterations done =>
    exact budgeted_evaluationsExceeded done (done + 1) hE.symm (by omega)
  | @failed iterations evaluations done previous point w f w' he =>
    exact budgeted_of_isInner (done + 1) (done + 1) (by omega) (by omega)
      ((P.inner_evaluation point).of_after_eq he)
  | @unanswered iterations evaluations done previous point w e w₁ f w' he hc =>
    exact budgeted_of_isInner (done + 1) (done + 1) (by omega) (by omega)
      ((inner_consult c (done + 1) previous e).of_after_eq hc)
  | @stopped iterations evaluations done previous point w e w₁ w' he hc =>
    exact budgeted_ok (done + 1) (done + 1) (by omega) (by omega) (by omega) (Nat.le_refl _) e
  | @unsolved iterations evaluations done previous point w e w₁ v w' f he hc hv hs =>
    exact budgeted_of_isInner (done + 1) (done + 1) (by omega) (by omega)
      ((Method.inner_solveBy method e.jacobian e.residuals).of_error f hs)
  | @stepped iterations evaluations done previous point w e w₁ v w' step r he hc hv hs hr ih =>
    have hnext := ih (by omega) (by omega)
    rw [Nat.add_right_comm, Nat.add_right_comm done 1] at hnext
    exact hnext

/-- An optimum is found in as many iterations as evaluations. -/
theorem Runs.iterations_eq (h : Runs method c P iterations evaluations done previous point w r)
    {found : Optimum α m n} (hr : r.result = .ok found) :
    found.iterations = found.evaluations := by
  induction h with
  | stopped =>
    cases hr
    rfl
  | stepped _ _ _ _ _ ih => exact ih hr
  | _ => cases hr

/-- **Solving a problem keeps the account**. -/
theorem optimize_budgeted (method : Option Method) (w : σ) (hE : 1 ≤ P.maxEvaluations)
    (hI : 1 ≤ P.maxIterations) :
    Budgeted P.maxEvaluations P.maxIterations (optimize method P w).evaluated.length
      (optimize method P w).iterations (optimize method P w).result := by
  rw [optimize_eq hE hI]
  cases P.checker with
  | none => exact budgeted_error 0 0 (by omega) (by omega) nofun
  | some c =>
    have hrun := (runs_run method c P P.maxIterations.toNat P.maxEvaluations.toNat 0 none P.start
      w).budgeted (by omega) (by omega)
    rw [Nat.zero_add, Nat.zero_add] at hrun
    exact hrun

/-- An optimum is found in as many iterations as evaluations. -/
theorem optimize_iterations_eq (method : Option Method) (w : σ) (hE : 1 ≤ P.maxEvaluations)
    (hI : 1 ≤ P.maxIterations) {found : Optimum α m n}
    (h : (optimize method P w).result = .ok found) : found.iterations = found.evaluations := by
  rw [optimize_eq hE hI] at h
  cases hc : P.checker with
  | none =>
    rw [hc] at h
    cases h
  | some c =>
    rw [hc] at h
    exact (runs_run method c P _ _ 0 none P.start w).iterations_eq h

end GaussNewton

/-! ## Both optimizers -/

/-- **Budgets are exact.** An optimizer does the same for a caller who counts, and the evaluations
counted and the outer iterations begun make an account within the budgets, for every model,
validator and checker and whatever the arithmetic is. -/
theorem optimizers_budgeted [Spectral α] (o : LevenbergMarquardt.Options (Number α))
    (method : Option Method) (P : Problem σ α m n) (w : σ) (hE : 1 ≤ P.maxEvaluations)
    (hI : 1 ≤ P.maxIterations) :
    (LevenbergMarquardt.optimize o P.tallied (w, 0) =
        (LevenbergMarquardt.optimize o P w).withTally ∧
      Budgeted P.maxEvaluations P.maxIterations
        (LevenbergMarquardt.optimize o P.tallied (w, 0)).state.2
        (LevenbergMarquardt.optimize o P w).iterations
        (LevenbergMarquardt.optimize o P w).result ∧
      (LevenbergMarquardt.optimize o P w).trials.length ≤ P.maxEvaluations) ∧
    (GaussNewton.optimize method P.tallied (w, 0) =
        (GaussNewton.optimize method P w).withTally 0 ∧
      Budgeted P.maxEvaluations P.maxIterations
        (GaussNewton.optimize method P.tallied (w, 0)).state.2
        (GaussNewton.optimize method P w).iterations
        (GaussNewton.optimize method P w).result ∧
      ∀ found, (GaussNewton.optimize method P w).result = .ok found →
        found.iterations = found.evaluations) := by
  have hcourse := LevenbergMarquardt.courses_optimize o P w
  have hLM := LevenbergMarquardt.optimize_tallied o P w
  have hGN := GaussNewton.optimize_tallied method P w
  have hcalls : ((GaussNewton.optimize method P w).withTally 0).state.2 =
      (GaussNewton.optimize method P w).evaluated.length := Nat.zero_add _
  refine ⟨⟨hLM, ?_, hcourse.length_trials_le hE⟩, hGN, ?_, fun found =>
    GaussNewton.optimize_iterations_eq method w hE hI⟩
  · rw [hLM]
    exact hcourse.budgeted hE hI
  · rw [hGN, hcalls]
    exact GaussNewton.optimize_budgeted method w hE hI

/-- The accounts of the line through the origin, with two evaluations and one outer iteration. -/
theorem optimizers_budgeted_line :
    let P : Problem Unit Float 1 1 :=
      { LevenbergMarquardt.lineProblem Float with checker := some (.rms (.int 0) (.int 0)) }
    1 ≤ P.maxEvaluations ∧ 1 ≤ P.maxIterations ∧
      Budgeted 2 1
        (LevenbergMarquardt.optimize (LevenbergMarquardt.exactOptions Float) P.tallied
          ((), 0)).state.2
        (LevenbergMarquardt.optimize (LevenbergMarquardt.exactOptions Float) P ()).iterations
        (LevenbergMarquardt.optimize (LevenbergMarquardt.exactOptions Float) P ()).result ∧
      Budgeted 2 1 (GaussNewton.optimize (some .qr) P.tallied ((), 0)).state.2
        (GaussNewton.optimize (some .qr) P ()).iterations
        (GaussNewton.optimize (some .qr) P ()).result := by
  intro P
  have hE : 1 ≤ P.maxEvaluations := by decide
  have hI : 1 ≤ P.maxIterations := by decide
  obtain ⟨⟨-, hLM, -⟩, -, hGN, -⟩ :=
    optimizers_budgeted (LevenbergMarquardt.exactOptions Float) (some .qr) P () hE hI
  exact ⟨hE, hI, hLM, hGN⟩

end LeastSquares
