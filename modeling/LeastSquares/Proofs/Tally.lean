import LeastSquares.GaussNewton
import LeastSquares.LevenbergMarquardt.Run

/-!
# Counting the evaluations that a problem is asked for

`P.tallied` is the problem `P` for a caller who counts: beside the caller's state stands a number,
which every call of `Problem.evaluate` raises by one, also a call that fails, and which the model,
the validator and the checker leave alone. An optimizer does with it what it does with `P`, so the
number tells how many evaluations the optimizer asks `P` for.

Results:
* `evaluation_tallies`, `consult_tallies`: an evaluation raises the number by one, a question to the
  checker does not change it, and both do what they do without the number;
* `LevenbergMarquardt.optimize_tallied`, `GaussNewton.optimize_tallied`: with the number the
  optimizers do what they do without it, and raise it by the evaluations that they record.
-/

namespace LeastSquares

variable {α σ ε β γ : Type} {m n : Nat}

/-! ## Actions with a number beside the state -/

namespace Act

/-- The action on a state with a number beside it, which it leaves alone. -/
def withTally (a : Act σ ε β) : Act (σ × Nat) ε β :=
  ofFn fun s => ((a.after s.1).1, (a.after s.1).2, s.2)

/-- The first action does what the second one does and raises the number by `j`. -/
def Tallies (j : Nat) (a : Act (σ × Nat) ε β) (b : Act σ ε β) : Prop :=
  ∀ s k, a.after (s, k) = ((b.after s).1, (b.after s).2, k + j)

theorem withTally_tallies (a : Act σ ε β) : Tallies 0 a.withTally a := fun _ _ => rfl

theorem pure_tallies (b : β) : Tallies 0 (pure b : Act (σ × Nat) ε β) (pure b) := fun _ _ => rfl

theorem ofExcept_tallies (e : Except ε β) :
    Tallies 0 (ofExcept e : Act (σ × Nat) ε β) (ofExcept e) := fun _ _ => rfl

variable {j : Nat} {a : Act (σ × Nat) ε β} {b : Act σ ε β}

theorem Tallies.mapError {ε' : Type} (h : Tallies j a b) (f : ε → ε') :
    Tallies j (a.mapError f) (b.mapError f) := fun s k => by
  rw [after_mapError, after_mapError, h s k]

/-- Only the first action of a chain raises the number. -/
theorem Tallies.bind (h : Tallies j a b) {f : β → Act (σ × Nat) ε γ} {g : β → Act σ ε γ}
    (hf : ∀ x, Tallies 0 (f x) (g x)) : Tallies j (a >>= f) (b >>= g) := fun s k => by
  rw [after_bind, after_bind, h s k]
  rcases b.after s with ⟨e | x, s'⟩
  · rfl
  · exact hf x s' (k + j)

theorem Tallies.map (h : Tallies j a b) (f : β → γ) : Tallies j (f <$> a) (f <$> b) := by
  rw [map_eq_pure_bind, map_eq_pure_bind]
  exact h.bind fun _ => pure_tallies _

end Act

open Act

/-! ## Problems -/

/-- The model for a state with a number beside it. -/
def Model.withTally : Model σ α n → Model (σ × Nat) α n
  | joint f => joint fun p => (f p).withTally
  | split value jacobian => split (fun p => (value p).withTally) fun p => (jacobian p).withTally

/-- The checker for a state with a number beside it. -/
def Checker.withTally : Checker σ α → Checker (σ × Nat) α
  | entries subject relative absolute limit => entries subject relative absolute limit
  | rms relative absolute => rms relative absolute
  | function f => function fun i e e' => (f i e e').withTally

theorem Checker.converged_tallies [Scalar α] {m₁ n₁ m₂ n₂ : Nat} (c : Checker σ α)
    (iteration : Int) (previous : Evaluation α m₁ n₁) (current : Evaluation α m₂ n₂) :
    Tallies 0 (c.withTally.converged iteration previous current)
      (c.converged iteration previous current) := by
  unfold converged withTally
  cases c with
  | entries subject relative absolute limit =>
    simp only
    split
    · exact pure_tallies _
    · cases subject <;> exact ofExcept_tallies _
  | rms relative absolute => exact ofExcept_tallies _
  | function f => exact (withTally_tallies _).mapError _

namespace Problem

/-- The problem for a caller who counts: every evaluation begins with its validator, so that is
where the number is raised. -/
def tallied (P : Problem σ α m n) : Problem (σ × Nat) α m n where
  model := P.model.withTally
  target := P.target
  start := P.start
  weight := P.weight
  checker := P.checker.map Checker.withTally
  maxEvaluations := P.maxEvaluations
  maxIterations := P.maxIterations
  deferred := P.deferred
  validator := some fun p =>
    let valid : Act σ Fault (Nested α) := match P.validator with
      | none => pure (.ofList p.toList)
      | some validator => validator p
    .ofFn fun s => ((valid.after s.1).1, (valid.after s.1).2, s.2 + 1)

variable (P : Problem σ α m n)

theorem call_tallies (p : Vec α n) : Tallies 0 (P.tallied.model.call p) (P.model.call p) := by
  unfold tallied
  cases P.model with
  | joint f => exact withTally_tallies _
  | split value jacobian =>
    exact (withTally_tallies _).bind fun v => (withTally_tallies _).bind fun J => pure_tallies _

theorem validate_tallies (p : Vec α n) : Tallies 1 (P.tallied.validate p) (P.validate p) := by
  unfold validate tallied
  cases P.validator with
  | none =>
    intro s k
    rw [after_bind, after_mapError, after_ofFn, after_pure]
    change (Act.ofExcept ((Nested.ofList p.toList).vector _ _ n) :
      Act (σ × Nat) (Failure α) (Vec α n)).after (s, k + 1) = _
    rw [Nested.vector_ofList, after_ofExcept, after_pure]
  | some validator =>
    have hvalidator : Tallies 1
        (.ofFn fun s => (((validator p).after s.1).1, ((validator p).after s.1).2, s.2 + 1))
        (validator p) := fun _ _ => rfl
    exact (hvalidator.mapError _).bind fun _ => ofExcept_tallies _

variable [Scalar α]

theorem compute_tallies (p : Vec α n) : Tallies 0 (P.tallied.compute p) (P.compute p) :=
  ((P.call_tallies p).mapError _).bind fun _ => (ofExcept_tallies _).bind fun _ =>
    (ofExcept_tallies _).bind fun _ => pure_tallies _

theorem evaluate_tallies (p : Vec α n) : Tallies 1 (P.tallied.evaluate p) (P.evaluate p) := by
  refine (P.validate_tallies p).bind fun q => ?_
  change Tallies 0 (if P.deferred then _ else _) (if P.deferred then _ else _)
  split
  · exact pure_tallies _
  · exact (P.compute_tallies q).bind fun _ => pure_tallies _

/-- **An evaluation raises the number by one**. -/
theorem evaluation_tallies (p : Vec α n) :
    Tallies 1 (P.tallied.evaluation p) (P.evaluation p) := by
  refine (P.evaluate_tallies p).bind fun d => ?_
  unfold Deferred.force
  cases d.values with
  | some rJ => exact pure_tallies _
  | none => exact (P.compute_tallies d.point).bind fun _ => pure_tallies _

/-- A question to the checker does not change the number. -/
theorem consult_tallies (iteration : Nat) (previous current : Evaluation α m n) :
    Tallies 0 (P.tallied.consult iteration previous current)
      (P.consult iteration previous current) := by
  unfold consult tallied
  cases P.checker with
  | none => exact pure_tallies _
  | some c => exact (c.converged_tallies iteration previous current).map _

end Problem

/-! ## Optimizers -/

namespace LevenbergMarquardt

/-- A run for a caller who counts, with the number `k` before it. -/
def Run.withTally (r : Run σ α m n) (k : Nat) : Run (σ × Nat) α m n :=
  ⟨r.bases, r.trials, r.result, r.state, k + r.evaluated.length⟩

theorem Run.withTally_begunAt (r : Run σ α m n) (e : Evaluation α m n) (k : Nat) :
    (r.begunAt e).withTally k = (r.withTally k).begunAt e := rfl

theorem Run.withTally_after (r : Run σ α m n) {t : Trial α m n}
    (ht : t.progress.isAffordable = true) (k : Nat) :
    (r.after t).withTally k = (r.withTally (k + 1)).after t := by
  have he : (r.after t).evaluated = t :: r.evaluated := List.filter_cons_of_pos ht
  unfold Run.withTally
  rw [he, List.length_cons, Nat.add_assoc, Nat.add_comm 1]
  rfl

variable [Scalar α]

/-- A run does with the number what it does without it, and raises it by its evaluations. -/
theorem run_tallied (o : Options α) (P : Problem σ α m n) (left used iteration : Nat)
    (s : Search α m n) (w : σ) (k : Nat) :
    run o P.tallied left used iteration s (w, k) =
      (run o P left used iteration s w).withTally k := by
  induction left generalizing used iteration s w k with
  | zero => rfl
  | succ left ih =>
    unfold run
    simp only [P.evaluation_tallies s.propose.point w k]
    rcases (P.evaluation s.propose.point).after w with ⟨f | e, w₁⟩
    · rfl
    simp only
    have hasked : Tallies 0
        (if (s.assess s.propose e).isAccepted then P.tallied.consult iteration s.base e
          else pure none)
        (if (s.assess s.propose e).isAccepted then P.consult iteration s.base e
          else pure none) := by
      split
      · exact P.consult_tallies iteration s.base e
      · exact pure_tallies _
    simp only [hasked w₁ (k + 1)]
    rcases (if (s.assess s.propose e).isAccepted then P.consult iteration s.base e
      else pure none : Act σ (Failure α) (Option Bool)).after w₁ with ⟨f | v, w'⟩
    · rfl
    simp only
    rw [Run.withTally_after _ rfl]
    congr 1
    cases s.next o s.propose (s.assess s.propose e) v with
    | stop e' => rfl
    | fail f => rfl
    | retry s' => exact ih (used + 1) iteration s' w' (k + 1)
    | renew st rg =>
      simp only
      by_cases hi : P.maxIterations ≤ iteration
      · rw [if_pos hi, if_pos (show P.tallied.maxIterations ≤ iteration from hi)]
        rfl
      rw [if_neg hi, if_neg (show ¬ P.tallied.maxIterations ≤ iteration from hi),
        Run.withTally_begunAt]
      congr 1
      cases Search.start o st rg with
      | error f => rfl
      | ok s' =>
        simp only
        split
        · rfl
        · exact ih (used + 1) (iteration + 1) s' w' (k + 1)

theorem runFrom_tallied (o : Options α) (P : Problem σ α m n) (left : Nat)
    (e : Evaluation α m n) (w : σ) (k : Nat) :
    runFrom o P.tallied left e (w, k) = (runFrom o P left e w).withTally k := by
  unfold runFrom
  simp only
  split
  · rfl
  rw [Run.withTally_begunAt]
  congr 1
  cases Search.start o (.ofEvaluation e) Region.initial with
  | error f => rfl
  | ok s =>
    simp only
    split
    · rfl
    · exact run_tallied o P left 1 1 s w k

/-- A course for a caller who counts. -/
def Course.withTally (c : Course σ α m n) : Course (σ × Nat) α m n :=
  { start := c.start, bases := c.bases, trials := c.trials, result := c.result
    state := (c.state, c.evaluations) }

/-- **A course does with the number what it does without it**, and raises it by its
evaluations. -/
theorem optimize_tallied (o : Options (Number α)) (P : Problem σ α m n) (w : σ) :
    optimize o P.tallied (w, 0) = (optimize o P w).withTally := by
  have hI : P.tallied.iterationCounter = P.iterationCounter := rfl
  have hE : P.tallied.evaluationCounter = P.evaluationCounter := rfl
  have hs : P.tallied.start = P.start := rfl
  unfold optimize
  rw [hI, hE, hs]
  cases P.iterationCounter with
  | error f => rfl
  | ok iterations =>
    cases P.evaluationCounter with
    | error f => rfl
    | ok evaluations =>
      simp only
      cases evaluations.maximum.toNat with
      | zero => rfl
      | succ left =>
        simp only [P.evaluation_tallies P.start w 0]
        rcases (P.evaluation P.start).after w with ⟨f | e, w'⟩
        · rfl
        simp only
        rw [runFrom_tallied]
        rfl

end LevenbergMarquardt

namespace GaussNewton

/-- A run for a caller who counts, with the number `k` before it. -/
def Run.withTally (r : Run σ α m n) (k : Nat) : Run (σ × Nat) α m n :=
  ⟨r.visits, r.result, r.state, k + r.evaluated.length⟩

theorem Run.withTally_after (r : Run σ α m n) {v : Visit α m n}
    (hv : v.progress.isAffordable = true) (k : Nat) :
    (r.after v).withTally k = (r.withTally (k + 1)).after v := by
  have he : (r.after v).evaluated = v :: r.evaluated := List.filter_cons_of_pos hv
  unfold Run.withTally
  rw [he, List.length_cons, Nat.add_assoc, Nat.add_comm 1]
  rfl

variable [Spectral α]

theorem consult_tallies (c : Checker σ α) (iteration : Nat) (previous : Option (Evaluation α m n))
    (current : Evaluation α m n) :
    Tallies 0 (consult c.withTally iteration previous current)
      (consult c iteration previous current) := by
  unfold consult
  cases previous with
  | none => exact pure_tallies _
  | some p => exact (c.converged_tallies iteration p current).map _

theorem run_tallied (method : Option Method) (c : Checker σ α) (P : Problem σ α m n)
    (iterations evaluations done : Nat) (previous : Option (Evaluation α m n)) (point : Vec α n)
    (w : σ) (k : Nat) :
    run method c.withTally P.tallied iterations evaluations done previous point (w, k) =
      (run method c P iterations evaluations done previous point w).withTally k := by
  induction iterations generalizing evaluations done previous point w k with
  | zero => rfl
  | succ iterations ih =>
    cases evaluations with
    | zero => rfl
    | succ evaluations =>
      unfold run
      simp only [P.evaluation_tallies point w k]
      rcases (P.evaluation point).after w with ⟨f | e, w₁⟩
      · rfl
      simp only [consult_tallies c (done + 1) previous e w₁ (k + 1)]
      rcases (consult c (done + 1) previous e).after w₁ with ⟨f | v, w'⟩
      · rfl
      simp only
      rw [Run.withTally_after _ rfl]
      congr 1
      split
      · rfl
      · cases Method.solveBy method e.jacobian e.residuals with
        | error f => rfl
        | ok step => exact ih evaluations (done + 1) (some e) _ w' (k + 1)

/-- **A run does with the number what it does without it**, and raises it by its evaluations. -/
theorem optimize_tallied (method : Option Method) (P : Problem σ α m n) (w : σ) :
    optimize method P.tallied (w, 0) = (optimize method P w).withTally 0 := by
  have hI : P.tallied.iterationCounter = P.iterationCounter := rfl
  have hE : P.tallied.evaluationCounter = P.evaluationCounter := rfl
  have hs : P.tallied.start = P.start := rfl
  have hc : P.tallied.checker = P.checker.map Checker.withTally := rfl
  unfold optimize
  rw [hI, hE, hs, hc]
  cases P.evaluationCounter with
  | error f => rfl
  | ok evaluations =>
    cases P.iterationCounter with
    | error f => rfl
    | ok iterations =>
      cases P.checker with
      | none => rfl
      | some c => exact run_tallied method c P _ _ 0 none P.start w 0

end GaussNewton

end LeastSquares
