import LeastSquares.LevenbergMarquardt.Run

/-!
# How a run of the trust-region method goes

The runs of the library as relations, for every arithmetic. `Runs o P left used iteration s w r`
says that `r` is the run from the search `s` on, with one rule for each way a trial can end;
`Courses o P w c` says the same of a whole course. What is proved of every run is proved by
induction on these rules and not on the recursion of `run`.

A trial knows only what happened before it: `Reached o e₀ bases s` says that `s` is a search of some
run that began at `e₀` and whose outer iterations began at `bases`.

Results:
* `runs_run`, `courses_optimize`: the runs and the courses of the library are such;
* `exists_run`: when a course begins its first outer iteration;
* `Runs.reached`, `Courses.reached`: every trial is at a `Reached` search, proposes what that search
  proposes and was judged by it, and its number is that of its outer iteration.
-/

namespace LeastSquares

/-- A chain that succeeds does so at its first step. -/
theorem of_bind_eq_ok {ε β γ : Type} {x : Except ε β} {f : β → Except ε γ} {c : γ}
    (h : (x >>= f) = .ok c) : ∃ b, x = .ok b ∧ f b = .ok c := by
  cases x with
  | error e => cases h
  | ok b => exact ⟨b, rfl, h⟩

namespace LevenbergMarquardt

variable {α σ : Type} {m n : Nat} [Scalar α]

/-! ## What the parts of a trial do -/

namespace Search

/-- The region of an outer iteration before its scaling is widened. -/
def startRegion (o : Options α) (st : Standing α m n) (rg : Region α n) (columnNorm : Vec α n) :
    Region α n :=
  if rg.fresh then
    { Region.ofColumnNorms o.initialStepFactor columnNorm st.point with lambda := rg.lambda }
  else rg

/-- The search that begins an outer iteration with a decomposition. -/
def ofDecomposition (o : Options α) (st : Standing α m n) (rg : Region α n)
    (d : Decomposition α m n) : Search α m n where
  base := st.evaluation
  standing := st
  region := (startRegion o st rg d.columnNorm).widenScaling d.columnNorm
  decomposition := d.writeDiagonal (min m n)
  projected := d.transposeApply st.evaluation.residuals
  maxCosine := largestCosine (d.writeDiagonal (min m n))
    (d.transposeApply st.evaluation.residuals) st.cost

/-- An outer iteration begins with a decomposition, and fails only if there is none. -/
theorem start_eq (o : Options α) (st : Standing α m n) (rg : Region α n) :
    start o st rg = (Decomposition.ofJacobian st.evaluation.jacobian o.rankingThreshold).map
      (ofDecomposition o st rg) := by
  unfold start
  cases Decomposition.ofJacobian st.evaluation.jacobian o.rankingThreshold <;> rfl

theorem of_start_eq_ok {o : Options α} {st : Standing α m n} {rg : Region α n}
    {s : Search α m n} (h : start o st rg = .ok s) :
    ∃ d, Decomposition.ofJacobian st.evaluation.jacobian o.rankingThreshold = .ok d ∧
      s = ofDecomposition o st rg d := by
  obtain ⟨d, hd, hs⟩ := of_bind_eq_ok h
  exact ⟨d, hd, (Except.ok.inj hs).symm⟩

/-- The search for the next trial of the same outer iteration. -/
def retryAfter (s : Search α m n) (p : Proposal α m n) (a : Assessment α m n) : Search α m n :=
  { s with
    standing := s.standingAfter a, region := s.regionAfter p a, decomposition := p.decomposition }

/-- **What can follow a trial.** The run stops where it stands then, fails for a tolerance,
retries below the accepting ratio, or begins another outer iteration where it stands then, with a
radius that is not negligible. -/
theorem next_cases (o : Options α) (s : Search α m n) (p : Proposal α m n) (a : Assessment α m n)
    (verdict : Option Bool) :
    s.next o p a verdict = .stop (s.standingAfter a).evaluation ∨
      (∃ tolerance x, s.next o p a verdict = .fail (.tolerance tolerance x)) ∨
      (¬ (s.regionAfter p a).radius ≤ o.parameterTolerance * (s.regionAfter p a).length ∧
        ((a.ratio < acceptRatio ∧ s.next o p a verdict = .retry (s.retryAfter p a)) ∨
          (¬ a.ratio < acceptRatio ∧
            s.next o p a verdict = .renew (s.standingAfter a) (s.regionAfter p a)))) := by
  unfold next
  simp only
  by_cases hv : (a.isAccepted && verdict == some true) = true
  · rw [if_pos hv]
    exact .inl rfl
  rw [if_neg hv]
  by_cases hw : (reductionsWithin a o.costTolerance ||
      decide ((s.regionAfter p a).radius ≤
        o.parameterTolerance * (s.regionAfter p a).length)) = true
  · rw [if_pos hw]
    exact .inl rfl
  rw [if_neg hw]
  have hr : ¬ (s.regionAfter p a).radius ≤ o.parameterTolerance * (s.regionAfter p a).length :=
    fun h => hw (by rw [decide_eq_true h, Bool.or_true])
  refine .inr ?_
  split
  · exact .inl ⟨_, _, rfl⟩
  split
  · exact .inl ⟨_, _, rfl⟩
  split
  · exact .inl ⟨_, _, rfl⟩
  split
  · rename_i hlt
    exact .inr ⟨hr, .inl ⟨hlt, rfl⟩⟩
  · rename_i hlt
    exact .inr ⟨hr, .inr ⟨hlt, rfl⟩⟩

end Search

/-! ## Judged trials -/

/-- The question to the checker that follows an evaluation: only about an accepted trial. -/
def Search.consult (s : Search α m n) (P : Problem σ α m n) (iteration : Nat)
    (e : Evaluation α m n) : Act σ (Failure α) (Option Bool) :=
  if (s.assess s.propose e).isAccepted then P.consult iteration s.base e else pure none

/-- The record of a trial whose evaluation was made. -/
def Search.trial (s : Search α m n) (iteration : Nat) (e : Evaluation α m n)
    (verdict : Option Bool) : Trial α m n :=
  ⟨iteration, s, s.propose, .made (s.assess s.propose e) verdict⟩

/-- How the run goes on after that trial. -/
def Search.outcome (s : Search α m n) (o : Options α) (e : Evaluation α m n)
    (verdict : Option Bool) : Next α m n :=
  s.next o s.propose (s.assess s.propose e) verdict

/-- The radius that a trial leaves is not negligible. -/
def Search.RadiusRemains (s : Search α m n) (o : Options α) (e : Evaluation α m n) : Prop :=
  ¬ (s.regionAfter s.propose (s.assess s.propose e)).radius ≤
    o.parameterTolerance * (s.regionAfter s.propose (s.assess s.propose e)).length

section Outcome

variable {s s' : Search α m n} {o : Options α} {e : Evaluation α m n} {v : Option Bool}

/-- A retry is made below the accepting ratio. -/
theorem Search.of_outcome_eq_retry (h : s.outcome o e v = .retry s') :
    s.RadiusRemains o e ∧ (s.assess s.propose e).ratio < acceptRatio ∧
      s' = s.retryAfter s.propose (s.assess s.propose e) := by
  rcases s.next_cases o s.propose (s.assess s.propose e) v with hc | ⟨_, _, hc⟩ |
    ⟨hw, ⟨hlt, hc⟩ | ⟨-, hc⟩⟩
  all_goals cases h.symm.trans hc
  exact ⟨hw, hlt, rfl⟩

/-- Another outer iteration begins where the trial left the run. -/
theorem Search.of_outcome_eq_renew {st : Standing α m n} {rg : Region α n}
    (h : s.outcome o e v = .renew st rg) :
    s.RadiusRemains o e ∧ ¬ (s.assess s.propose e).ratio < acceptRatio ∧
      st = s.standingAfter (s.assess s.propose e) ∧
      rg = s.regionAfter s.propose (s.assess s.propose e) := by
  rcases s.next_cases o s.propose (s.assess s.propose e) v with hc | ⟨_, _, hc⟩ |
    ⟨hw, ⟨-, hc⟩ | ⟨hlt, hc⟩⟩
  all_goals cases h.symm.trans hc
  exact ⟨hw, hlt, rfl, rfl⟩

/-- A run that stops does so where the trial left it. -/
theorem Search.of_outcome_eq_stop {e' : Evaluation α m n} (h : s.outcome o e v = .stop e') :
    e' = (s.standingAfter (s.assess s.propose e)).evaluation := by
  rcases s.next_cases o s.propose (s.assess s.propose e) v with hc | ⟨_, _, hc⟩ |
    ⟨-, ⟨-, hc⟩ | ⟨-, hc⟩⟩
  all_goals cases h.symm.trans hc
  rfl

/-- A trial fails for a tolerance that cannot be met. -/
theorem Search.of_outcome_eq_fail {f : Failure α} (h : s.outcome o e v = .fail f) :
    ∃ tolerance x, f = .tolerance tolerance x := by
  rcases s.next_cases o s.propose (s.assess s.propose e) v with hc | ⟨_, _, hc⟩ |
    ⟨-, ⟨-, hc⟩ | ⟨-, hc⟩⟩
  all_goals cases h.symm.trans hc
  exact ⟨_, _, rfl⟩

/-- **A run stops** at a radius that is negligible. -/
theorem Search.outcome_eq_stop (h : ¬ s.RadiusRemains o e) : s.outcome o e v =
    .stop (s.standingAfter (s.assess s.propose e)).evaluation := by
  unfold Search.RadiusRemains at h
  unfold Search.outcome Search.next
  simp only [decide_eq_true (Decidable.not_not.mp h), Bool.or_true, if_true, ite_self]

/-- **A run retries** after a trial whose reductions matter, below the accepting ratio, if neither
the radius nor the cosines are negligible. -/
theorem Search.outcome_eq_retry
    (ha : (s.assess s.propose e).isAccepted = false)
    (hlt : (s.assess s.propose e).ratio < acceptRatio)
    (hw : Search.reductionsWithin (s.assess s.propose e) o.costTolerance = false)
    (hw' : Search.reductionsWithin (s.assess s.propose e) twoEpsilon = false)
    (hr : s.RadiusRemains o e)
    (hr' : ¬ (s.regionAfter s.propose (s.assess s.propose e)).radius ≤
      twoEpsilon * (s.regionAfter s.propose (s.assess s.propose e)).length)
    (hc : ¬ s.maxCosine ≤ twoEpsilon) :
    s.outcome o e v = .retry (s.retryAfter s.propose (s.assess s.propose e)) := by
  unfold Search.RadiusRemains at hr
  unfold Search.outcome Search.next
  simp only [ha, hw, hw', hlt, hr, hr', hc, decide_false, Bool.or_self, Bool.false_and,
    Bool.false_eq_true, if_false, if_true]
  rfl

end Outcome

/-- From the caller's state `w`, the trial at `s` is evaluated to `e` and the checker's verdict is
`verdict`; then the state is `w'`. -/
def Judges (P : Problem σ α m n) (iteration : Nat) (s : Search α m n) (w : σ)
    (e : Evaluation α m n) (verdict : Option Bool) (w' : σ) : Prop :=
  ∃ w₁, (P.evaluation s.propose.point).after w = (.ok e, w₁) ∧
    (s.consult P iteration e).after w₁ = (.ok verdict, w')

section Unasked

variable {P : Problem σ α m n} (hP : P.checker = none)

include hP

/-- Without a checker nobody is asked. -/
theorem Search.consult_of_checker (s : Search α m n) (iteration : Nat) (e : Evaluation α m n) :
    s.consult P iteration e = pure none := by
  unfold consult Problem.consult
  rw [hP, ite_self]

theorem judges_iff_of_checker {iteration : Nat} {s : Search α m n} {w w' : σ}
    {e : Evaluation α m n} {verdict : Option Bool} : Judges P iteration s w e verdict w' ↔
      (P.evaluation s.propose.point).after w = (.ok e, w') ∧ verdict = none := by
  unfold Judges
  simp only [s.consult_of_checker hP, Act.after_pure]
  constructor
  · rintro ⟨w₁, he, hv⟩
    cases hv
    exact ⟨he, rfl⟩
  · rintro ⟨he, rfl⟩
    exact ⟨w', he, rfl⟩

end Unasked

/-! ## Runs -/

/-- The runs from a search on, by what comes of its first trial. -/
inductive Runs (o : Options α) (P : Problem σ α m n) :
    (left used iteration : Nat) → Search α m n → σ → Run σ α m n → Prop
  /-- No evaluation is left for the trial. -/
  | exhausted (used iteration s w) : Runs o P 0 used iteration s w
      ((Run.ending (.error (.exceeded .evaluationsExceeded P.maxEvaluations)) w).after
        ⟨iteration, s, s.propose, .unaffordable⟩)
  /-- The evaluation fails. -/
  | failed {left used iteration s w f w'}
      (he : (P.evaluation s.propose.point).after w = (.error f, w')) :
      Runs o P (left + 1) used iteration s w
        ((Run.ending (.error f) w').after ⟨iteration, s, s.propose, .failed⟩)
  /-- The checker fails. -/
  | unanswered {left used iteration s w e w₁ f w'}
      (he : (P.evaluation s.propose.point).after w = (.ok e, w₁))
      (hc : (s.consult P iteration e).after w₁ = (.error f, w')) :
      Runs o P (left + 1) used iteration s w
        ((Run.ending (.error f) w').after (s.trial iteration e none))
  /-- The run ends at an evaluation. -/
  | stopped {left used iteration s w e v w' e'} (hj : Judges P iteration s w e v w')
      (hn : s.outcome o e v = .stop e') :
      Runs o P (left + 1) used iteration s w
        ((Run.ending (.ok ⟨e', used + 1, iteration⟩) w').after (s.trial iteration e v))
  /-- No tolerance can be met any more. -/
  | stuck {left used iteration s w e v w' f} (hj : Judges P iteration s w e v w')
      (hn : s.outcome o e v = .fail f) :
      Runs o P (left + 1) used iteration s w
        ((Run.ending (.error f) w').after (s.trial iteration e v))
  /-- Another trial follows in the same outer iteration. -/
  | retried {left used iteration s w e v w' s' r} (hj : Judges P iteration s w e v w')
      (hn : s.outcome o e v = .retry s') (hr : Runs o P left (used + 1) iteration s' w' r) :
      Runs o P (left + 1) used iteration s w (r.after (s.trial iteration e v))
  /-- No outer iteration is left. -/
  | overdue {left used iteration s w e v w' st rg} (hj : Judges P iteration s w e v w')
      (hn : s.outcome o e v = .renew st rg) (hi : P.maxIterations ≤ iteration) :
      Runs o P (left + 1) used iteration s w
        ((Run.ending (.error (.exceeded .iterationsExceeded P.maxIterations)) w').after
          (s.trial iteration e v))
  /-- The Jacobian of the next outer iteration cannot be decomposed. -/
  | undecomposed {left used iteration s w e v w' st rg f} (hj : Judges P iteration s w e v w')
      (hn : s.outcome o e v = .renew st rg) (hi : ¬ P.maxIterations ≤ iteration)
      (hs : Search.start o st rg = .error f) :
      Runs o P (left + 1) used iteration s w
        (((Run.ending (.error f) w').begunAt st.evaluation).after (s.trial iteration e v))
  /-- The residuals of the next outer iteration are orthogonal to the columns. -/
  | orthogonal {left used iteration s w e v w' st rg s'} (hj : Judges P iteration s w e v w')
      (hn : s.outcome o e v = .renew st rg) (hi : ¬ P.maxIterations ≤ iteration)
      (hs : Search.start o st rg = .ok s') (hc : s'.maxCosine ≤ o.orthogonalityTolerance) :
      Runs o P (left + 1) used iteration s w
        (((Run.ending (.ok ⟨st.evaluation, used + 1, iteration + 1⟩) w').begunAt
          st.evaluation).after (s.trial iteration e v))
  /-- Another outer iteration follows. -/
  | renewed {left used iteration s w e v w' st rg s' r} (hj : Judges P iteration s w e v w')
      (hn : s.outcome o e v = .renew st rg) (hi : ¬ P.maxIterations ≤ iteration)
      (hs : Search.start o st rg = .ok s') (hc : ¬ s'.maxCosine ≤ o.orthogonalityTolerance)
      (hr : Runs o P left (used + 1) (iteration + 1) s' w' r) :
      Runs o P (left + 1) used iteration s w
        ((r.begunAt st.evaluation).after (s.trial iteration e v))

/-- **The runs of the library** follow the rules. -/
theorem runs_run (o : Options α) (P : Problem σ α m n) (left used iteration : Nat)
    (s : Search α m n) (w : σ) :
    Runs o P left used iteration s w (run o P left used iteration s w) := by
  induction left generalizing used iteration s w with
  | zero => exact .exhausted used iteration s w
  | succ left ih =>
    unfold run
    simp only
    rcases he : (P.evaluation s.propose.point).after w with ⟨f | e, w₁⟩
    · exact .failed he
    have hasked : (if (s.assess s.propose e).isAccepted = true then P.consult iteration s.base e
        else pure none) = s.consult P iteration e := rfl
    simp only [hasked]
    rcases hc : (s.consult P iteration e).after w₁ with ⟨f | v, w'⟩
    · exact .unanswered he hc
    have hj : Judges P iteration s w e v w' := ⟨w₁, he, hc⟩
    simp only
    cases hn : s.next o s.propose (s.assess s.propose e) v with
    | stop e' => exact .stopped hj hn
    | fail f => exact .stuck hj hn
    | retry s' => exact .retried hj hn (ih (used + 1) iteration s' w')
    | renew st rg =>
      simp only
      by_cases hi : P.maxIterations ≤ iteration
      · rw [if_pos hi]
        exact .overdue hj hn hi
      rw [if_neg hi]
      cases hs : Search.start o st rg with
      | error f => exact .undecomposed hj hn hi hs
      | ok s' =>
        simp only
        by_cases hc : s'.maxCosine ≤ o.orthogonalityTolerance
        · rw [if_pos hc]
          exact .orthogonal hj hn hi hs hc
        · rw [if_neg hc]
          exact .renewed hj hn hi hs hc (ih (used + 1) (iteration + 1) s' w')

/-! ## Courses -/

/-- The courses from a state of the caller, by how far they get. -/
inductive Courses (o : Options (Number α)) (P : Problem σ α m n) (w : σ) : Course σ α m n → Prop
  /-- One of the budgets is no budget. -/
  | refused (hb : P.maxEvaluations < 1 ∨ P.maxIterations < 1) (f) :
      Courses o P w ⟨Run.ending (.error f) w, .unaffordable⟩
  /-- The evaluation of the start point fails. -/
  | failed {left f w'} (hE : P.maxEvaluations = (left : Nat) + 1) (hI : 1 ≤ P.maxIterations)
      (he : (P.evaluation P.start).after w = (.error f, w')) :
      Courses o P w ⟨Run.ending (.error f) w', .failed⟩
  /-- The cost at the start point is not finite. -/
  | infinite {left e w'} (hE : P.maxEvaluations = (left : Nat) + 1) (hI : 1 ≤ P.maxIterations)
      (he : (P.evaluation P.start).after w = (.ok e, w')) (hf : isFinite e.cost = false) :
      Courses o P w ⟨Run.ending (.error (.costNotFinite e.cost)) w', .made e none⟩
  /-- The Jacobian at the start point cannot be decomposed. -/
  | undecomposed {left e w' f} (hE : P.maxEvaluations = (left : Nat) + 1)
      (hI : 1 ≤ P.maxIterations) (he : (P.evaluation P.start).after w = (.ok e, w'))
      (hf : isFinite e.cost = true)
      (hs : Search.start o.values (.ofEvaluation e) Region.initial = .error f) :
      Courses o P w ⟨(Run.ending (.error f) w').begunAt e, .made e none⟩
  /-- The residuals at the start point are orthogonal to the columns. -/
  | orthogonal {left e w' s} (hE : P.maxEvaluations = (left : Nat) + 1)
      (hI : 1 ≤ P.maxIterations) (he : (P.evaluation P.start).after w = (.ok e, w'))
      (hf : isFinite e.cost = true)
      (hs : Search.start o.values (.ofEvaluation e) Region.initial = .ok s)
      (hc : s.maxCosine ≤ o.values.orthogonalityTolerance) :
      Courses o P w ⟨(Run.ending (.ok ⟨e, 1, 1⟩) w').begunAt e, .made e none⟩
  /-- The first outer iteration begins. -/
  | begun {left e w' s r} (hE : P.maxEvaluations = (left : Nat) + 1)
      (hI : 1 ≤ P.maxIterations) (he : (P.evaluation P.start).after w = (.ok e, w'))
      (hf : isFinite e.cost = true)
      (hs : Search.start o.values (.ofEvaluation e) Region.initial = .ok s)
      (hc : ¬ s.maxCosine ≤ o.values.orthogonalityTolerance)
      (hr : Runs o.values P left 1 1 s w' r) :
      Courses o P w ⟨r.begunAt e, .made e none⟩

/-- There is no counter up to less than one. -/
theorem create_int_of_lt_one (category : Category) {k : Int} (h : k < 1) :
    (Counter.create category (.int k) : Except (Failure α) Counter) =
      .error (.countNotPositive (.int k)) := by
  have hk : (Number.int k : Number α).isNonpositive = true :=
    decide_eq_true (Int.lt_add_one_iff.mp h)
  unfold Counter.create
  rw [hk]
  rfl

/-- **The courses of the library** are such. -/
theorem courses_optimize (o : Options (Number α)) (P : Problem σ α m n) (w : σ) :
    Courses o P w (optimize o P w) := by
  unfold optimize Problem.iterationCounter Problem.evaluationCounter
  by_cases hI : P.maxIterations < 1
  · rw [create_int_of_lt_one _ hI]
    exact .refused (.inr hI) _
  rw [Counter.create_int_of_pos _ (by omega)]
  by_cases hE : P.maxEvaluations < 1
  · rw [create_int_of_lt_one _ hE]
    exact .refused (.inl hE) _
  rw [Counter.create_int_of_pos _ (by omega)]
  obtain ⟨left, hleft⟩ : ∃ left : Nat, P.maxEvaluations = (left : Int) + 1 :=
    ⟨P.maxEvaluations.toNat - 1, by omega⟩
  have hto : P.maxEvaluations.toNat = left + 1 := by omega
  have hI' : 1 ≤ P.maxIterations := by omega
  simp only [hto]
  rcases he : (P.evaluation P.start).after w with ⟨f | e, w'⟩
  · exact .failed hleft hI' he
  simp only
  unfold runFrom
  by_cases hf : isFinite (Standing.ofEvaluation e).cost = false
  · rw [if_pos hf]
    exact .infinite hleft hI' he hf
  rw [if_neg hf]
  have hf' : isFinite e.cost = true := (Bool.not_eq_false _).mp hf
  cases hs : Search.start o.values (.ofEvaluation e) Region.initial with
  | error f => exact .undecomposed hleft hI' he hf' hs
  | ok s =>
    simp only
    by_cases hc : s.maxCosine ≤ o.values.orthogonalityTolerance
    · rw [if_pos hc]
      exact .orthogonal hleft hI' he hf' hs hc
    · rw [if_neg hc]
      exact .begun hleft hI' he hf' hs hc (runs_run o.values P left 1 1 s w')

section Head

variable {o : Options α} {P : Problem σ α m n} {left used iteration : Nat} {s : Search α m n} {w : σ}
  {r : Run σ α m n}

/-- The first trial of a run is at its search. -/
theorem Runs.head_eq (h : Runs o P left used iteration s w r) :
    ∃ t, r.trials.head? = some t ∧ t.iteration = iteration ∧ t.search = s := by
  cases h <;> exact ⟨_, rfl, rfl, rfl⟩

/-- It is judged by its evaluation, if one is left and does not fail. -/
theorem Runs.head_trial (h : Runs o P (left + 1) used iteration s w r) {e : Evaluation α m n}
    {w' : σ} (he : (P.evaluation s.propose.point).after w = (.ok e, w')) :
    ∃ v, r.trials.head? = some (s.trial iteration e v) := by
  cases h with
  | failed he' => cases he.symm.trans he'
  | unanswered he' _ =>
    cases he.symm.trans he'
    exact ⟨none, rfl⟩
  | stopped hj _ | stuck hj _ | retried hj _ _ | overdue hj _ _ | undecomposed hj _ _ _
  | orthogonal hj _ _ _ _ | renewed hj _ _ _ _ _ =>
    obtain ⟨w₁, he', -⟩ := hj
    cases he.symm.trans he'
    exact ⟨_, rfl⟩

/-- A run has a trial. -/
theorem Runs.exists_trial (h : Runs o P left used iteration s w r) : ∃ t, t ∈ r.trials := by
  obtain ⟨t, ht, -, -⟩ := h.head_eq
  exact ⟨t, List.mem_of_head? ht⟩

end Head

section Begun

variable {o : Options (Number α)} {P : Problem σ α m n} {w w' : σ} {e : Evaluation α m n}
  {s : Search α m n}

/-- A course begins its first outer iteration if its start is evaluated to a finite cost and its
first cosine is beyond the tolerance. -/
theorem exists_run (hE : 1 ≤ P.maxEvaluations) (hI : 1 ≤ P.maxIterations)
    (he : (P.evaluation P.start).after w = (.ok e, w')) (hf : isFinite e.cost = true)
    (hs : Search.start o.values (.ofEvaluation e) Region.initial = .ok s)
    (hc : ¬ s.maxCosine ≤ o.values.orthogonalityTolerance) :
    ∃ left r, P.maxEvaluations = (left : Nat) + 1 ∧ Runs o.values P left 1 1 s w' r ∧
      (optimize o P w).toRun = r.begunAt e := by
  have hco := courses_optimize o P w
  generalize optimize o P w = c at hco
  cases hco with
  | refused hb _ => omega
  | failed _ _ he' => cases he.symm.trans he'
  | infinite _ _ he' hf' =>
    cases he.symm.trans he'
    exact absurd hf (hf' ▸ Bool.false_ne_true)
  | undecomposed _ _ he' _ hs' =>
    cases he.symm.trans he'
    cases hs.symm.trans hs'
  | orthogonal _ _ he' _ hs' hc' =>
    cases he.symm.trans he'
    cases hs.symm.trans hs'
    exact absurd hc' hc
  | begun hE' _ he' _ hs' _ hr =>
    cases he.symm.trans he'
    cases hs.symm.trans hs'
    exact ⟨_, _, hE', hr, rfl⟩

/-- So it makes a trial. -/
theorem exists_trial (hE : 1 ≤ P.maxEvaluations) (hI : 1 ≤ P.maxIterations)
    (he : (P.evaluation P.start).after w = (.ok e, w')) (hf : isFinite e.cost = true)
    (hs : Search.start o.values (.ofEvaluation e) Region.initial = .ok s)
    (hc : ¬ s.maxCosine ≤ o.values.orthogonalityTolerance) :
    ∃ t, t ∈ (optimize o P w).trials := by
  obtain ⟨left, r, -, hr, heq⟩ := exists_run hE hI he hf hs hc
  rw [heq]
  exact hr.exists_trial

/-- With a budget for one more evaluation it judges the trial. -/
theorem exists_first_trial {e' : Evaluation α m n} {w'' : σ} (hE : 2 ≤ P.maxEvaluations)
    (hI : 1 ≤ P.maxIterations) (he : (P.evaluation P.start).after w = (.ok e, w'))
    (hf : isFinite e.cost = true)
    (hs : Search.start o.values (.ofEvaluation e) Region.initial = .ok s)
    (hc : ¬ s.maxCosine ≤ o.values.orthogonalityTolerance)
    (he' : (P.evaluation s.propose.point).after w' = (.ok e', w'')) :
    ∃ v, (optimize o P w).trials.head? = some (s.trial 1 e' v) := by
  obtain ⟨left, r, hleft, hr, heq⟩ := exists_run (by omega) hI he hf hs hc
  cases left with
  | zero => omega
  | succ left =>
    rw [heq]
    exact hr.head_trial he'

end Begun

/-! ## What a trial knows -/

/-- The searches of the runs that begin at `e₀`, each with the evaluations at which the outer
iterations up to its own began. -/
inductive Reached (o : Options α) (e₀ : Evaluation α m n) :
    List (Evaluation α m n) → Search α m n → Prop
  | first {s} (hs : Search.start o (.ofEvaluation e₀) Region.initial = .ok s) :
      Reached o e₀ [e₀] s
  | retried {bs s s' e v} (h : Reached o e₀ bs s) (hn : s.outcome o e v = .retry s') :
      Reached o e₀ bs s'
  | renewed {bs s s' e v st rg} (h : Reached o e₀ bs s) (hn : s.outcome o e v = .renew st rg)
      (hs : Search.start o st rg = .ok s') : Reached o e₀ (bs ++ [st.evaluation]) s'

/-- A trial at a search of a run: it proposes what the search proposes, its evaluation is one of
the problem at the proposed point, and it is judged by it. -/
structure Trial.At (o : Options α) (P : Problem σ α m n) (e₀ : Evaluation α m n)
    (bases : List (Evaluation α m n)) (t : Trial α m n) : Prop where
  reached : Reached o e₀ bases t.search
  iteration_eq : t.iteration = bases.length
  proposal_eq : t.proposal = t.search.propose
  made : ∀ a v, t.progress = .made a v → ∃ e w w',
    (P.evaluation t.proposal.point).after w = (.ok e, w') ∧ a = t.search.assess t.proposal e
  failed : t.progress = .failed → ∃ f w w',
    (P.evaluation t.proposal.point).after w = (.error f, w')

variable {o : Options α} {P : Problem σ α m n} {left used iteration : Nat} {s : Search α m n}
  {w : σ} {r : Run σ α m n} {e₀ : Evaluation α m n}

/-- The trial that a rule records itself. -/
theorem Search.trial_at {bs : List (Evaluation α m n)} (hs : Reached o e₀ bs s)
    (hi : iteration = bs.length) {e : Evaluation α m n} {w₁ : σ}
    (he : (P.evaluation s.propose.point).after w = (.ok e, w₁)) (v : Option Bool) :
    (s.trial iteration e v).At o P e₀ bs where
  reached := hs
  iteration_eq := hi
  proposal_eq := rfl
  made a v' ha := by
    cases ha
    exact ⟨e, w, w₁, he, rfl⟩
  failed := nofun

/-- **Every trial of a run** is at a search of it, and its outer iterations are the first of those
of the run. -/
theorem Runs.reached (h : Runs o P left used iteration s w r) {bs : List (Evaluation α m n)}
    (hs : Reached o e₀ bs s) (hi : iteration = bs.length) :
    ∀ t ∈ r.trials, ∃ bases, bases <+: bs ++ r.bases ∧ t.At o P e₀ bases := by
  induction h generalizing bs with
  | exhausted used iteration s w =>
    intro t ht
    obtain rfl := List.mem_singleton.mp ht
    exact ⟨bs, List.prefix_append bs _, hs, hi, rfl, nofun, nofun⟩
  | failed he =>
    intro t ht
    obtain rfl := List.mem_singleton.mp ht
    exact ⟨bs, List.prefix_append bs _, hs, hi, rfl, nofun, fun _ => ⟨_, _, _, he⟩⟩
  | unanswered he _ =>
    intro t ht
    obtain rfl := List.mem_singleton.mp ht
    exact ⟨bs, List.prefix_append bs _, Search.trial_at hs hi he _⟩
  | stopped hj _ | stuck hj _ | overdue hj _ _ | undecomposed hj _ _ _ | orthogonal hj _ _ _ _ =>
    intro t ht
    obtain rfl := List.mem_singleton.mp ht
    obtain ⟨_, he, -⟩ := hj
    exact ⟨bs, List.prefix_append bs _, Search.trial_at hs hi he _⟩
  | retried hj hn hr ih =>
    intro t ht
    rcases List.mem_cons.mp ht with rfl | ht
    · obtain ⟨_, he, -⟩ := hj
      exact ⟨bs, List.prefix_append bs _, Search.trial_at hs hi he _⟩
    · exact ih (hs.retried hn) hi t ht
  | @renewed left used iteration s w e v w' st rg s' r hj hn _ hs' _ hr ih =>
    intro t ht
    rcases List.mem_cons.mp ht with rfl | ht
    · obtain ⟨_, he, -⟩ := hj
      exact ⟨bs, List.prefix_append bs _, Search.trial_at hs hi he _⟩
    · have happ : bs ++ (r.begunAt st.evaluation).bases = bs ++ [st.evaluation] ++ r.bases := by
        rw [List.append_assoc]
        rfl
      change ∃ bases, bases <+: bs ++ (r.begunAt st.evaluation).bases ∧ _
      rw [happ]
      exact ih (hs.renewed hn hs') (by rw [List.length_append, hi]; rfl) t ht

/-- **Every trial of a course** is at a search of the run that began at its start, where the cost
was finite, and its outer iterations are the first of those of the course. -/
theorem Courses.reached {o : Options (Number α)} {c : Course σ α m n} (h : Courses o P w c)
    {t : Trial α m n} (ht : t ∈ c.trials) :
    ∃ e₀ bases, isFinite e₀.cost = true ∧ bases <+: c.bases ∧ t.At o.values P e₀ bases := by
  cases h with
  | begun _ _ _ hf hs _ hr =>
    obtain ⟨bases, hb, hat⟩ := hr.reached (.first hs) rfl t ht
    exact ⟨_, bases, hf, hb, hat⟩
  | _ => exact absurd ht List.not_mem_nil

/-! ## An example

The line through the origin: the model `p ↦ p` with the one observation `1`, from `0` on. -/

/-- The problem of the line. Two evaluations and one outer iteration are allowed. -/
def lineProblem (α : Type) [Scalar α] : Problem Unit α 1 1 where
  model := .joint fun p => pure (.ofList p.toList, .ofLists [[1]])
  target := Vec.replicate 1 1
  start := Vec.replicate 1 0
  weight := none
  checker := none
  maxEvaluations := 2
  maxIterations := 1
  deferred := false
  validator := none

/-- Options without any tolerance. -/
def exactOptions (α : Type) : Options (Number α) := ⟨.int 100, .int 0, .int 0, .int 0, .int 0⟩

omit [Scalar α] in
theorem matrix_singleton (x : α) (name : String) :
    (Nested.ofLists [[x]]).matrix name 1 1 = .ok (Mat.ofFn fun _ _ => x) := by
  have hshape : (Nested.ofLists [[x]]).shape? = some [1, 1] := by
    simp [Nested.ofLists, Nested.ofList, Nested.shape?]
  have hs : (Nested.ofLists [[x]]).shapeOf = .ok [1, 1] := by
    unfold Nested.shapeOf
    rw [hshape]
    rfl
  unfold Nested.matrix Nested.matrixRows
  rw [hs]
  simp only [Nested.ofLists, Nested.items, List.map_cons, List.map_nil, Nested.flatten_ofList [x]]
  rfl

/-- The line at a point. -/
def lineAt (p : Vec α 1) : Evaluation α 1 1 :=
  ⟨p, Vec.ofFn fun i => 1 - p i, Mat.ofFn fun _ _ => 1⟩

theorem line_evaluation (p : Vec α 1) :
    ((lineProblem α).evaluation p).after () = (.ok (lineAt p), ()) := by
  have hresiduals (p : Vec α 1) : (lineProblem α).residuals p = (lineAt p).residuals := by
    refine Vec.ext fun i => ?_
    simp [Problem.residuals, lineProblem, lineAt, Vec.replicate_apply]
  have hcompute (p : Vec α 1) : ((lineProblem α).compute p).after () =
      (.ok ((lineAt p).residuals, (lineAt p).jacobian), ()) := by
    have hcall : (((lineProblem α).model.call p).mapError (Failure.raised (α := α))).after () =
        (.ok (.ofList p.toList, .ofLists [[1]]), ()) := rfl
    unfold Problem.compute
    rw [Act.after_bind, hcall]
    simp only [Act.after_bind, Act.after_ofExcept, Nested.vector_ofList, matrix_singleton,
      Act.after_pure, hresiduals]
    rfl
  have hvalidate : (lineProblem α).validate p = pure p := rfl
  have hdeferred : (lineProblem α).deferred = false := rfl
  unfold Problem.evaluation Problem.evaluate
  rw [hvalidate, hdeferred]
  simp only [Act.after_bind, Act.after_pure, Bool.false_eq_true, if_false, hcompute]
  rfl

end LevenbergMarquardt

end LeastSquares
