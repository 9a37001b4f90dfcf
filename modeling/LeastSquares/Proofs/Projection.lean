import LeastSquares.Proofs.Cut

/-!
# Callers that remember more

Model, validator and checker act on a state of the caller. `Q.Projects π P` says that `Q` does to a
state what `P` does to its image under `π`, and returns the same. Then an optimizer does with `Q`
what it does with `P`: the caller of `Q` only remembers more, which no optimizer looks at.

Results:
* `Act.Projects.bind`, `Act.Projects.mapError`, `Act.Projects.map`: chains of such actions;
* `LevenbergMarquardt.Runs.project`, `GaussNewton.Runs.project`: a run, rule by rule;
* `LevenbergMarquardt.optimize_project`, `GaussNewton.optimize_project`: what the optimizers do.
-/

namespace LeastSquares

variable {α β γ ε σ τ : Type} {m n : Nat} {π : τ → σ}

namespace Act

/-- The first action does to a state what the second one does to its image. -/
def Projects (π : τ → σ) (a : Act τ ε β) (b : Act σ ε β) : Prop :=
  ∀ w, b.after (π w) = ((a.after w).1, π (a.after w).2)

theorem pure_projects (π : τ → σ) (b : β) :
    (pure b : Act τ ε β).Projects π (pure b) := fun _ => rfl

theorem ofExcept_projects (π : τ → σ) (e : Except ε β) :
    (ofExcept e : Act τ ε β).Projects π (ofExcept e) := fun _ => rfl

variable {a : Act τ ε β} {b : Act σ ε β}

theorem Projects.mapError {ε' : Type} (h : a.Projects π b) (f : ε → ε') :
    (a.mapError f).Projects π (b.mapError f) := fun w => by
  rw [after_mapError, after_mapError, h w]

theorem Projects.bind (h : a.Projects π b) {f : β → Act τ ε γ} {g : β → Act σ ε γ}
    (hf : ∀ x, (f x).Projects π (g x)) : (a >>= f).Projects π (b >>= g) := fun w => by
  rw [after_bind, after_bind, h w]
  rcases a.after w with ⟨e | x, w'⟩
  · rfl
  · exact hf x w'

theorem Projects.map (h : a.Projects π b) (f : β → γ) : (f <$> a).Projects π (f <$> b) := by
  rw [map_eq_pure_bind, map_eq_pure_bind]
  exact h.bind fun _ => pure_projects π _

/-- What the first action ends with, the second one ends with. -/
theorem Projects.after_eq (h : a.Projects π b) {w w' : τ} {e : Except ε β}
    (ha : a.after w = (e, w')) : b.after (π w) = (e, π w') := by rw [h w, ha]

end Act

/-- The first checker does to a state what the second one does to its image. -/
def Checker.Projects [Scalar α] (m n : Nat) (π : τ → σ) (c : Checker τ α) (c' : Checker σ α) :
    Prop :=
  ∀ (iteration : Int) (previous current : Evaluation α m n),
    (c.converged iteration previous current).Projects π (c'.converged iteration previous current)

/-- **The first problem does to a state what the second one does to its image.** -/
structure Problem.Projects [Scalar α] (π : τ → σ) (Q : Problem τ α m n) (P : Problem σ α m n) :
    Prop where
  evaluation : ∀ p, (Q.evaluation p).Projects π (P.evaluation p)
  checker : Option.Rel (Checker.Projects m n π) Q.checker P.checker
  start_eq : Q.start = P.start
  maxEvaluations_eq : Q.maxEvaluations = P.maxEvaluations
  maxIterations_eq : Q.maxIterations = P.maxIterations

/-! ## The trust-region method -/

namespace LevenbergMarquardt

/-- A run with the image of the caller's state. -/
def Run.project (π : τ → σ) (r : Run τ α m n) : Run σ α m n := ⟨r.bases, r.trials, r.result, π r.state⟩

/-- A course with the image of the caller's state. -/
def Course.project (π : τ → σ) (c : Course τ α m n) : Course σ α m n :=
  ⟨c.toRun.project π, c.start⟩

variable [Scalar α] {Q : Problem τ α m n} {P : Problem σ α m n} (h : Q.Projects π P)

include h

theorem consult_projects (iteration : Nat) (previous current : Evaluation α m n) :
    (Q.consult iteration previous current).Projects π (P.consult iteration previous current) := by
  unfold Problem.consult
  have hc := h.checker
  generalize Q.checker = c at hc
  generalize P.checker = c' at hc
  cases hc with
  | none => exact Act.pure_projects π none
  | some hc => exact (hc iteration previous current).map some

/-- The question that follows an evaluation. -/
theorem Search.consult_projects (s : Search α m n) (iteration : Nat) (e : Evaluation α m n) :
    (s.consult Q iteration e).Projects π (s.consult P iteration e) := by
  unfold Search.consult
  split
  · exact LevenbergMarquardt.consult_projects h iteration s.base e
  · exact Act.pure_projects π none

theorem Judges.project {iteration : Nat} {s : Search α m n} {w w' : τ} {e : Evaluation α m n}
    {v : Option Bool} (hj : Judges Q iteration s w e v w') :
    Judges P iteration s (π w) e v (π w') := by
  obtain ⟨w₁, he, hc⟩ := hj
  exact ⟨π w₁, (h.evaluation _).after_eq he, (s.consult_projects h iteration e).after_eq hc⟩

/-- **A run for the caller that remembers more** is one for the other. -/
theorem Runs.project {o : Options α} {left used iteration : Nat} {s : Search α m n} {w : τ}
    {r : Run τ α m n} (hr : Runs o Q left used iteration s w r) :
    Runs o P left used iteration s (π w) (r.project π) := by
  have hI := h.maxIterations_eq
  induction hr with
  | exhausted used iteration s w =>
    rw [h.maxEvaluations_eq]
    exact .exhausted used iteration s (π w)
  | failed he => exact .failed ((h.evaluation _).after_eq he)
  | @unanswered _ _ iteration s _ e _ _ _ he hc =>
    exact .unanswered ((h.evaluation _).after_eq he)
      ((s.consult_projects h iteration e).after_eq hc)
  | stopped hj hn => exact .stopped (hj.project h) hn
  | stuck hj hn => exact .stuck (hj.project h) hn
  | retried hj hn _ ih => exact .retried (hj.project h) hn ih
  | overdue hj hn hi =>
    rw [hI] at hi ⊢
    exact .overdue (hj.project h) hn hi
  | undecomposed hj hn hi hs => exact .undecomposed (hj.project h) hn (hI ▸ hi) hs
  | orthogonal hj hn hi hs hc => exact .orthogonal (hj.project h) hn (hI ▸ hi) hs hc
  | renewed hj hn hi hs hc _ ih => exact .renewed (hj.project h) hn (hI ▸ hi) hs hc ih

theorem runFrom_project (o : Options α) (left : Nat) (e : Evaluation α m n) (w : τ) :
    (runFrom o Q left e w).project π = runFrom o P left e (π w) := by
  unfold runFrom
  simp only
  split
  · rfl
  cases Search.start o (.ofEvaluation e) Region.initial with
  | error f => rfl
  | ok s =>
    simp only
    split
    · rfl
    · exact congrArg (Run.begunAt e) ((runs_run o Q left 1 1 s w).project h).eq_run

/-- **What the caller that remembers more sees of a course** is what the other one sees. -/
theorem optimize_project (o : Options (Number α)) (w : τ) :
    (optimize o Q w).project π = optimize o P (π w) := by
  unfold optimize Problem.iterationCounter Problem.evaluationCounter
  rw [h.maxIterations_eq, h.maxEvaluations_eq, h.start_eq]
  cases (Counter.create .iterationsExceeded (.int P.maxIterations) : Except (Failure α) Counter) with
  | error f => rfl
  | ok iterations =>
    cases (Counter.create .evaluationsExceeded (.int P.maxEvaluations) :
      Except (Failure α) Counter) with
    | error f => rfl
    | ok evaluations =>
      simp only
      cases evaluations.maximum.toNat with
      | zero => rfl
      | succ left =>
        simp only [h.evaluation P.start w]
        rcases (Q.evaluation P.start).after w with ⟨f | e, w'⟩
        · rfl
        · exact congrArg (fun r : Run σ α m n => (⟨r, .made e none⟩ : Course σ α m n))
            (runFrom_project h o.values left e w')

end LevenbergMarquardt

/-! ## The Gauss-Newton method -/

namespace GaussNewton

/-- A run with the image of the caller's state. -/
def Run.project (π : τ → σ) (r : Run τ α m n) : Run σ α m n := ⟨r.visits, r.result, π r.state⟩

variable [Spectral α]

theorem consult_projects {c : Checker τ α} {c' : Checker σ α} (hc : c.Projects m n π c')
    (iteration : Nat) (previous : Option (Evaluation α m n)) (current : Evaluation α m n) :
    (consult c iteration previous current).Projects π (consult c' iteration previous current) := by
  cases previous with
  | none => exact Act.pure_projects π none
  | some p => exact (hc iteration p current).map some

variable {Q : Problem τ α m n} {P : Problem σ α m n} (h : Q.Projects π P)

include h

/-- **A run for the caller that remembers more** is one for the other. -/
theorem Runs.project {method : Option Method} {c : Checker τ α} {c' : Checker σ α}
    (hc : c.Projects m n π c') {iterations evaluations done : Nat}
    {previous : Option (Evaluation α m n)} {point : Vec α n} {w : τ} {r : Run τ α m n}
    (hr : Runs method c Q iterations evaluations done previous point w r) :
    Runs method c' P iterations evaluations done previous point (π w) (r.project π) := by
  induction hr with
  | overdue evaluations done previous point w =>
    rw [h.maxIterations_eq]
    exact .overdue evaluations done previous point (π w)
  | exhausted iterations done previous point w =>
    rw [h.maxEvaluations_eq]
    exact .exhausted iterations done previous point (π w)
  | failed he => exact .failed ((h.evaluation _).after_eq he)
  | unanswered he hv =>
    exact .unanswered ((h.evaluation _).after_eq he) ((consult_projects hc _ _ _).after_eq hv)
  | stopped he hv =>
    exact .stopped ((h.evaluation _).after_eq he) ((consult_projects hc _ _ _).after_eq hv)
  | unsolved he hv hstop hs =>
    exact .unsolved ((h.evaluation _).after_eq he) ((consult_projects hc _ _ _).after_eq hv) hstop
      hs
  | stepped he hv hstop hs _ ih =>
    exact .stepped ((h.evaluation _).after_eq he) ((consult_projects hc _ _ _).after_eq hv) hstop
      hs ih

/-- **What the caller that remembers more sees of a run** is what the other one sees. -/
theorem optimize_project (method : Option Method) (w : τ) :
    (optimize method Q w).project π = optimize method P (π w) := by
  have hc := h.checker
  unfold optimize Problem.iterationCounter Problem.evaluationCounter
  rw [h.maxIterations_eq, h.maxEvaluations_eq, h.start_eq]
  cases (Counter.create .evaluationsExceeded (.int P.maxEvaluations) :
    Except (Failure α) Counter) with
  | error f => rfl
  | ok evaluations =>
    cases (Counter.create .iterationsExceeded (.int P.maxIterations) :
      Except (Failure α) Counter) with
    | error f => rfl
    | ok iterations =>
      simp only
      generalize Q.checker = c at hc
      generalize P.checker = c' at hc
      cases hc with
      | none => rfl
      | some hc => exact ((runs_run method _ Q _ _ 0 none P.start w).project h hc).eq_run

end GaussNewton

end LeastSquares
