import LeastSquares.GaussNewton

/-!
# How a run of the Gauss-Newton method goes

The runs of the library as a relation, for every arithmetic. `Runs method c P iterations evaluations
done previous point w r` says that `r` is the run from `point` on, with `c` as the checker and one
rule for each way an iteration can end.

Results:
* `runs_run`, `Runs.eq_run`: the runs of the library are such, and there are no others;
* `optimize_eq`: with budgets and a checker, a problem is solved by a run from its start point.
-/

namespace LeastSquares.GaussNewton

variable {α σ : Type} {m n : Nat} [Spectral α]

/-! ## Runs -/

/-- The runs from a point on, by what comes of its iteration. -/
inductive Runs (method : Option Method) (c : Checker σ α) (P : Problem σ α m n) :
    (iterations evaluations done : Nat) → Option (Evaluation α m n) → Vec α n → σ →
      Run σ α m n → Prop
  /-- No iteration is left. -/
  | overdue (evaluations done previous point w) :
      Runs method c P 0 evaluations done previous point w
        (Run.ending (.error (.exceeded .iterationsExceeded P.maxIterations)) w)
  /-- No evaluation is left for the iteration. -/
  | exhausted (iterations done previous point w) :
      Runs method c P (iterations + 1) 0 done previous point w
        ((Run.ending (.error (.exceeded .evaluationsExceeded P.maxEvaluations)) w).after
          ⟨done + 1, previous, .unaffordable⟩)
  /-- The evaluation fails. -/
  | failed {iterations evaluations done previous point w f w'}
      (he : (P.evaluation point).after w = (.error f, w')) :
      Runs method c P (iterations + 1) (evaluations + 1) done previous point w
        ((Run.ending (.error f) w').after ⟨done + 1, previous, .failed⟩)
  /-- The checker fails. -/
  | unanswered {iterations evaluations done previous point w e w₁ f w'}
      (he : (P.evaluation point).after w = (.ok e, w₁))
      (hc : (consult c (done + 1) previous e).after w₁ = (.error f, w')) :
      Runs method c P (iterations + 1) (evaluations + 1) done previous point w
        ((Run.ending (.error f) w').after ⟨done + 1, previous, .made e none⟩)
  /-- The checker agrees to stop. -/
  | stopped {iterations evaluations done previous point w e w₁ w'}
      (he : (P.evaluation point).after w = (.ok e, w₁))
      (hc : (consult c (done + 1) previous e).after w₁ = (.ok (some true), w')) :
      Runs method c P (iterations + 1) (evaluations + 1) done previous point w
        ((Run.ending (.ok ⟨e, done + 1, done + 1⟩) w').after
          ⟨done + 1, previous, .made e (some true)⟩)
  /-- The solver finds no step. -/
  | unsolved {iterations evaluations done previous point w e w₁ v w' f}
      (he : (P.evaluation point).after w = (.ok e, w₁))
      (hc : (consult c (done + 1) previous e).after w₁ = (.ok v, w')) (hv : v ≠ some true)
      (hs : Method.solveBy method e.jacobian e.residuals = .error f) :
      Runs method c P (iterations + 1) (evaluations + 1) done previous point w
        ((Run.ending (.error f) w').after ⟨done + 1, previous, .made e v⟩)
  /-- Another iteration follows, a step further. -/
  | stepped {iterations evaluations done previous point w e w₁ v w' step r}
      (he : (P.evaluation point).after w = (.ok e, w₁))
      (hc : (consult c (done + 1) previous e).after w₁ = (.ok v, w')) (hv : v ≠ some true)
      (hs : Method.solveBy method e.jacobian e.residuals = .ok step)
      (hr : Runs method c P iterations evaluations (done + 1) (some e)
        (Vec.ofFn fun i => e.point i + step i) w' r) :
      Runs method c P (iterations + 1) (evaluations + 1) done previous point w
        (r.after ⟨done + 1, previous, .made e v⟩)

/-- **The runs of the library** follow the rules. -/
theorem runs_run (method : Option Method) (c : Checker σ α) (P : Problem σ α m n)
    (iterations evaluations done : Nat) (previous : Option (Evaluation α m n)) (point : Vec α n)
    (w : σ) :
    Runs method c P iterations evaluations done previous point w
      (run method c P iterations evaluations done previous point w) := by
  induction iterations generalizing evaluations done previous point w with
  | zero => exact .overdue evaluations done previous point w
  | succ iterations ih =>
    cases evaluations with
    | zero => exact .exhausted iterations done previous point w
    | succ evaluations =>
      unfold run
      rcases he : (P.evaluation point).after w with ⟨f | e, w₁⟩
      · exact .failed he
      simp only
      rcases hc : (consult c (done + 1) previous e).after w₁ with ⟨f | v, w'⟩
      · exact .unanswered he hc
      simp only
      by_cases hv : v = some true
      · subst hv
        exact .stopped he hc
      have hv' : ¬ (v == some true) = true := fun h => hv (beq_iff_eq.mp h)
      rw [if_neg hv']
      cases hs : Method.solveBy method e.jacobian e.residuals with
      | error f => exact .unsolved he hc hv hs
      | ok step =>
        exact .stepped he hc hv hs (ih evaluations (done + 1) (some e)
          (Vec.ofFn fun i => e.point i + step i) w')

/-- A run follows its rules in one way only. -/
theorem Runs.eq_run {method : Option Method} {c : Checker σ α} {P : Problem σ α m n}
    {iterations evaluations done : Nat} {previous : Option (Evaluation α m n)} {point : Vec α n}
    {w : σ} {r : Run σ α m n}
    (h : Runs method c P iterations evaluations done previous point w r) :
    r = run method c P iterations evaluations done previous point w := by
  induction h with
  | overdue => rfl
  | exhausted => rfl
  | failed he => rw [run, he]
  | unanswered he hc =>
    rw [run, he]
    simp only [hc]
  | stopped he hc =>
    rw [run, he]
    simp only [hc]
    rfl
  | unsolved he hc hv hs =>
    rw [run, he]
    simp only [hc, hs]
    rw [if_neg fun h => hv (beq_iff_eq.mp h)]
  | stepped he hc hv hs _ ih =>
    rw [run, he]
    simp only [hc, hs]
    rw [if_neg fun h => hv (beq_iff_eq.mp h), ih]

/-! ## Solving a problem -/

/-- Where the budgets are budgets and there is a checker, a run from the start point solves the
problem. Without a checker nothing is evaluated. -/
theorem optimize_eq {P : Problem σ α m n} (hE : 1 ≤ P.maxEvaluations) (hI : 1 ≤ P.maxIterations)
    (method : Option Method) (w : σ) :
    optimize method P w = P.checker.elim (Run.ending (.error .checkerMissing) w) fun c =>
      run method c P P.maxIterations.toNat P.maxEvaluations.toNat 0 none P.start w := by
  unfold optimize Problem.evaluationCounter Problem.iterationCounter
  rw [Counter.create_int_of_pos _ hE, Counter.create_int_of_pos _ hI]
  cases P.checker with
  | none => rfl
  | some c => rfl

/-- With budgets and a checker, a problem is solved by the run that follows the rules. -/
theorem Runs.eq_optimize {method : Option Method} {c : Checker σ α} {P : Problem σ α m n} {w : σ}
    {r : Run σ α m n} (hc : P.checker = some c) (hE : 1 ≤ P.maxEvaluations)
    (hI : 1 ≤ P.maxIterations)
    (h : Runs method c P P.maxIterations.toNat P.maxEvaluations.toNat 0 none P.start w r) :
    r = optimize method P w := by
  rw [optimize_eq hE hI, hc]
  exact h.eq_run

/-- **A second iteration** is made and asked about, if the first one finds a step and the budgets
allow it. -/
theorem exists_second {method : Option Method} {c : Checker σ α} {P : Problem σ α m n}
    {w w₁ w₂ : σ} {e e' : Evaluation α m n} {step : Vec α n} (hc : P.checker = some c)
    (hE : 2 ≤ P.maxEvaluations) (hI : 2 ≤ P.maxIterations)
    (he : (P.evaluation P.start).after w = (.ok e, w₁))
    (hs : Method.solveBy method e.jacobian e.residuals = .ok step)
    (he' : (P.evaluation (Vec.ofFn fun i => e.point i + step i)).after w₁ = (.ok e', w₂)) :
    ∃ v rest, (optimize method P w).visits =
      ⟨1, none, .made e none⟩ :: ⟨2, some e, .made e' v⟩ :: rest := by
  obtain ⟨E, hE'⟩ : ∃ E, P.maxEvaluations.toNat = E + 2 := ⟨P.maxEvaluations.toNat - 2, by omega⟩
  obtain ⟨I, hI'⟩ : ∃ I, P.maxIterations.toNat = I + 2 := ⟨P.maxIterations.toNat - 2, by omega⟩
  have hfirst : (consult c 1 none e).after w₁ = (.ok none, w₁) := rfl
  have hrun := runs_run method c P P.maxIterations.toNat P.maxEvaluations.toNat 0 none P.start w
  rw [optimize_eq (by omega) (by omega), hc, Option.elim_some]
  generalize run method c P _ _ 0 none P.start w = r at hrun ⊢
  rw [hE', hI'] at hrun
  cases hrun with
  | failed he₁ => cases he.symm.trans he₁
  | unanswered he₁ hc₁ | stopped he₁ hc₁ =>
    cases he.symm.trans he₁
    cases hfirst.symm.trans hc₁
  | unsolved he₁ _ _ hs₁ =>
    cases he.symm.trans he₁
    cases hs.symm.trans hs₁
  | stepped he₁ hc₁ _ hs₁ hr =>
    cases he.symm.trans he₁
    cases hfirst.symm.trans hc₁
    cases hs.symm.trans hs₁
    cases hr with
    | failed he₂ => cases he'.symm.trans he₂
    | unanswered he₂ _ | stopped he₂ _ | unsolved he₂ _ _ _ | stepped he₂ _ _ _ _ =>
      cases he'.symm.trans he₂
      exact ⟨_, _, rfl⟩

end LeastSquares.GaussNewton
