import LeastSquares.Proofs.ChartTrials
import LeastSquares.Proofs.Cut

/-!
# Parallel runs

Two runs of the trust-region method are parallel if they make the same trials as far as the method
can tell: with the same radius and damping parameter, at points that a map `f` takes to each other,
judged by the same numbers, from evaluations that are related by `R`, and with the same end.

The problems are two in two charts of the parameters (`LeastSquares.Proofs.Charts`), without
checkers, that are evaluated alike at all points. The callers' states need not be the same; `I` says
which of them go together. What one trial preserves is `Chart.Searches.outcome`.

Results:
* `Chart.Problems.parallel`: the runs from two searches, by induction on the rules of the first;
* `Chart.Problems.runFrom_parallel`, `Chart.Problems.optimize_parallel`: all that an optimizer does.
-/

namespace LeastSquares

variable {β γ ε σ σ' : Type} {m m' n : Nat}

/-- The ends of two actions: the same failure, or results that are related. -/
inductive Act.Parallel (R : β → γ → Prop) (I : σ → σ' → Prop) :
    Except ε β × σ → Except ε γ × σ' → Prop
  | error (f) {w w'} (hw : I w w') : Parallel R I (.error f, w) (.error f, w')
  | ok {b c w w'} (h : R b c) (hw : I w w') : Parallel R I (.ok b, w) (.ok c, w')

/-- Two attempts at an evaluation that got equally far. -/
inductive Progress.Parallel (R : β → γ → Prop) : Progress β → Progress γ → Prop
  | unaffordable : Parallel R .unaffordable .unaffordable
  | failed : Parallel R .failed .failed
  | made {b c} (h : R b c) (verdict) : Parallel R (.made b verdict) (.made c verdict)

/-- Two ends of an optimizer: the same failure, or the same counts at evaluations that are
related. -/
inductive Optimum.Parallel (R : Evaluation ℝ m n → Evaluation ℝ m' n → Prop) :
    Except (Failure ℝ) (Optimum ℝ m n) → Except (Failure ℝ) (Optimum ℝ m' n) → Prop
  | error (f) : Parallel R (.error f) (.error f)
  | ok {e e'} (h : R e e') (evaluations iterations) :
      Parallel R (.ok ⟨e, evaluations, iterations⟩) (.ok ⟨e', evaluations, iterations⟩)

namespace LevenbergMarquardt

variable (f : Vec ℝ n → Vec ℝ n) (R : Evaluation ℝ m n → Evaluation ℝ m' n → Prop)
  (I : σ → σ' → Prop)

/-- Two trials with the same radius and the same damping parameters, before and after the search
for it, at points that correspond. -/
structure Trial.Parallel (t : Trial ℝ m n) (t' : Trial ℝ m' n) : Prop where
  iteration_eq : t'.iteration = t.iteration
  radius_eq : t'.search.region.radius = t.search.region.radius
  before_eq : t'.search.region.lambda = t.search.region.lambda
  lambda_eq : t'.proposal.lambda = t.proposal.lambda
  point_eq : t.proposal.point = f t'.proposal.point
  progress : Progress.Parallel
    (fun a a' => R a.evaluation a'.evaluation ∧ a'.reductions = a.reductions) t.progress t'.progress

/-- **Parallel runs**. -/
structure Run.Parallel (r : Run σ ℝ m n) (r' : Run σ' ℝ m' n) : Prop where
  bases : List.Forall₂ R r.bases r'.bases
  trials : List.Forall₂ (Trial.Parallel f R) r.trials r'.trials
  result : Optimum.Parallel R r.result r'.result
  state : I r.state r'.state

/-- **Parallel courses**. -/
structure Course.Parallel (c : Course σ ℝ m n) (c' : Course σ' ℝ m' n) : Prop where
  toRun : Run.Parallel f R I c.toRun c'.toRun
  start : Progress.Parallel R c.start c'.start

variable {f R I}

section Parts

variable {r : Run σ ℝ m n} {r' : Run σ' ℝ m' n}

theorem Run.parallel_error (x : Failure ℝ) {w : σ} {w' : σ'} (hw : I w w') :
    Run.Parallel f R I (Run.ending (.error x) w) (Run.ending (.error x) w') :=
  ⟨.nil, .nil, .error x, hw⟩

theorem Run.parallel_ok {e : Evaluation ℝ m n} {e' : Evaluation ℝ m' n} (h : R e e')
    (evaluations iterations : Nat) {w : σ} {w' : σ'} (hw : I w w') :
    Run.Parallel f R I (Run.ending (.ok ⟨e, evaluations, iterations⟩) w)
      (Run.ending (.ok ⟨e', evaluations, iterations⟩) w') :=
  ⟨.nil, .nil, .ok h _ _, hw⟩

theorem Run.Parallel.after (h : Run.Parallel f R I r r') {t : Trial ℝ m n} {t' : Trial ℝ m' n}
    (ht : Trial.Parallel f R t t') : Run.Parallel f R I (r.after t) (r'.after t') :=
  ⟨h.bases, .cons ht h.trials, h.result, h.state⟩

theorem Run.Parallel.begunAt (h : Run.Parallel f R I r r') {e : Evaluation ℝ m n}
    {e' : Evaluation ℝ m' n} (he : R e e') :
    Run.Parallel f R I (r.begunAt e) (r'.begunAt e') :=
  ⟨.cons he h.bases, h.trials, h.result, h.state⟩

end Parts

end LevenbergMarquardt

open LevenbergMarquardt

/-! ## Problems in two charts -/

/-- **Two problems in two charts**, without checkers, that are evaluated alike everywhere. -/
structure Chart.Problems (χ : Chart n) (R : Evaluation ℝ m n → Evaluation ℝ m' n → Prop)
    (I : σ → σ' → Prop) (P : Problem σ ℝ m n) (P' : Problem σ' ℝ m' n) : Prop where
  start_eq : P.start = χ.point P'.start
  maxEvaluations_eq : P'.maxEvaluations = P.maxEvaluations
  maxIterations_eq : P'.maxIterations = P.maxIterations
  checker_eq : P.checker = none
  checker_eq' : P'.checker = none
  evaluation : ∀ p w w', I w w' →
    Act.Parallel R I ((P.evaluation (χ.point p)).after w) ((P'.evaluation p).after w')
  /-- What is related matches. -/
  matches_of : ∀ e e', R e e' → χ.Matches e e'

variable {χ : Chart n} {R : Evaluation ℝ m n → Evaluation ℝ m' n → Prop} {I : σ → σ' → Prop}
  {P : Problem σ ℝ m n} {P' : Problem σ' ℝ m' n} {s : Search ℝ m n} {s' : Search ℝ m' n}
  {o : Options ℝ} {iteration : Nat}

/-- The records of two trials at which evaluations were made. -/
theorem Chart.Searches.trial (h : χ.Searches s s') (hs : s.Poised) (hs' : s'.Poised) (hn : n ≤ m)
    (hn' : n ≤ m') {progress : Progress (Assessment ℝ m n)}
    {progress' : Progress (Assessment ℝ m' n)} (hp : Progress.Parallel
      (fun a a' => R a.evaluation a'.evaluation ∧ a'.reductions = a.reductions) progress progress')
    (iteration : Nat) : Trial.Parallel χ.point R ⟨iteration, s, s.propose, progress⟩
      ⟨iteration, s', s'.propose, progress'⟩ :=
  have hpropose := h.propose hs hs' hn hn'
  ⟨rfl, h.region.radius_eq, h.region.lambda_eq, hpropose.lambda_eq, hpropose.point_eq, hp⟩

/-- An outer iteration can always begin. -/
theorem LevenbergMarquardt.Search.exists_start (ho : o.rankingThreshold = 0)
    (st : Standing ℝ m n) (r : Region ℝ n) : ∃ s, Search.start o st r = .ok s := by
  obtain ⟨d, hd, -⟩ := Decomposition.exists_ofJacobian st.evaluation.jacobian ho.ge
  rw [Search.start_eq, hd]
  exact ⟨_, rfl⟩

section Problems

variable (hP : χ.Problems R I P P') (ho : o.Regular) (hn : n ≤ m) (hn' : n ≤ m')

include hP ho hn hn'

/-- **An outer iteration that begins** has one beside it. -/
theorem Chart.Problems.begun {e : Evaluation ℝ m n} {e' : Evaluation ℝ m' n} (hR : R e e')
    (ht : χ.Tame e e') {r r' : Region ℝ n} (hr : χ.Regions r r')
    (hs : Search.start o (.ofEvaluation e) r = .ok s) :
    ∃ s', Search.start o (.ofEvaluation e') r' = .ok s' ∧ χ.Searches s s' ∧ R s.base s'.base := by
  obtain ⟨s', hs'⟩ := Search.exists_start ho.threshold_eq (.ofEvaluation e') r'
  refine ⟨s', hs', ht.searches (hP.matches_of e e' hR) hn hn' ho.threshold_eq hr hs hs', ?_⟩
  obtain ⟨d, -, rfl⟩ := Search.of_start_eq_ok hs
  obtain ⟨d', -, rfl⟩ := Search.of_start_eq_ok hs'
  exact hR

/-- **A judged trial** has one beside it, after which the other run goes on in the same way. -/
theorem Chart.Problems.judged {w w₁ : σ} {w' : σ'} {e : Evaluation ℝ m n} {v : Option Bool}
    {next : Next ℝ m n} (hj : Judges P iteration s w e v w₁) (hnext : s.outcome o e v = next)
    {e₀ : Evaluation ℝ m n} {e₀' : Evaluation ℝ m' n} {bs : List (Evaluation ℝ m n)}
    {bs' : List (Evaluation ℝ m' n)} (hs : Reached o e₀ bs s) (hs' : Reached o e₀' bs' s')
    (hb : R s.base s'.base) (h : χ.Searches s s') (hw : I w w') :
    ∃ e' w₁' next', Judges P' iteration s' w' e' v w₁' ∧ s'.outcome o e' v = next' ∧ I w₁ w₁' ∧
      Trial.Parallel χ.point R (s.trial iteration e v) (s'.trial iteration e' v) ∧
      χ.Nexts R next next' := by
  subst hnext
  have hpoised := hs.poised ho
  have hpoised' := hs'.poised ho
  obtain ⟨he, rfl⟩ := (judges_iff_of_checker hP.checker_eq).mp hj
  have hends := hP.evaluation s'.propose.point w w' hw
  rw [← (h.propose hpoised hpoised' hn hn').point_eq, he] at hends
  generalize he' : (P'.evaluation s'.propose.point).after w' = x at hends
  cases hends with
  | @ok _ e' _ w₁' hR hw₁ =>
    have hmatch := hP.matches_of e e' hR
    have hassess := h.assess hpoised hpoised' hn hn' hmatch
    exact ⟨e', w₁', _, (judges_iff_of_checker hP.checker_eq').mpr ⟨he', rfl⟩, rfl, hw₁,
      h.trial hpoised hpoised' hn hn' (.made ⟨hR, hassess.reductions_eq⟩ none) iteration,
      h.outcome hpoised hpoised' hn hn' hmatch hb hR o none⟩

/-- **The runs from two searches** are parallel if the chart is tame wherever an outer iteration
begins. -/
theorem Chart.Problems.parallel {left used : Nat} {w : σ} {w' : σ'} {r : Run σ ℝ m n}
    (hr : Runs o P left used iteration s w r)
    (htame : ∀ e ∈ r.bases, ∀ e', R e e' → χ.Tame e e') {e₀ : Evaluation ℝ m n}
    {e₀' : Evaluation ℝ m' n} {bs : List (Evaluation ℝ m n)} {bs' : List (Evaluation ℝ m' n)}
    (hs : Reached o e₀ bs s) (hs' : Reached o e₀' bs' s') (hb : R s.base s'.base)
    (h : χ.Searches s s') (hw : I w w') :
    ∃ r', Runs o P' left used iteration s' w' r' ∧ Run.Parallel χ.point R I r r' := by
  induction hr generalizing s' w' bs bs' with
  | exhausted used iteration s w =>
    refine ⟨_, .exhausted used iteration s' w', ?_⟩
    rw [hP.maxEvaluations_eq]
    exact (Run.parallel_error _ hw).after
      (h.trial (hs.poised ho) (hs'.poised ho) hn hn' .unaffordable iteration)
  | @failed left used iteration s w f w₁ he =>
    have hends := hP.evaluation s'.propose.point w w' hw
    rw [← (h.propose (hs.poised ho) (hs'.poised ho) hn hn').point_eq, he] at hends
    generalize he' : (P'.evaluation s'.propose.point).after w' = x at hends
    cases hends with
    | error _ hw₁ =>
      exact ⟨_, .failed he', (Run.parallel_error _ hw₁).after
        (h.trial (hs.poised ho) (hs'.poised ho) hn hn' .failed iteration)⟩
  | unanswered _ hc =>
    rw [Search.consult_of_checker hP.checker_eq, Act.after_pure] at hc
    cases hc
  | stopped hj hnext =>
    obtain ⟨e', w₁', _, hj', hnext', hw₁, htrial, hnexts⟩ :=
      hP.judged ho hn hn' hj hnext hs hs' hb h hw
    cases hnexts with
    | stop hR => exact ⟨_, .stopped hj' hnext', (Run.parallel_ok hR _ _ hw₁).after htrial⟩
  | stuck hj hnext =>
    obtain ⟨e', w₁', _, hj', hnext', hw₁, htrial, hnexts⟩ :=
      hP.judged ho hn hn' hj hnext hs hs' hb h hw
    cases hnexts with
    | fail _ => exact ⟨_, .stuck hj' hnext', (Run.parallel_error _ hw₁).after htrial⟩
  | retried hj hnext hr ih =>
    obtain ⟨e', w₁', _, hj', hnext', hw₁, htrial, hnexts⟩ :=
      hP.judged ho hn hn' hj hnext hs hs' hb h hw
    cases hnexts with
    | retry hb₁ hs₁ =>
      obtain ⟨r', hr', hparallel⟩ :=
        ih htame (hs.retried hnext) (hs'.retried hnext') hb₁ hs₁ hw₁
      exact ⟨_, .retried hj' hnext' hr', hparallel.after htrial⟩
  | overdue hj hnext hi =>
    obtain ⟨e', w₁', _, hj', hnext', hw₁, htrial, hnexts⟩ :=
      hP.judged ho hn hn' hj hnext hs hs' hb h hw
    cases hnexts with
    | renew _ _ =>
      refine ⟨_, .overdue hj' hnext' (hP.maxIterations_eq ▸ hi), ?_⟩
      rw [hP.maxIterations_eq]
      exact (Run.parallel_error _ hw₁).after htrial
  | @undecomposed left used iteration s w e v w₁ st rg f hj hnext hi hstart =>
    obtain ⟨s₁, hs₁⟩ := Search.exists_start ho.threshold_eq st rg
    cases hs₁.symm.trans hstart
  | @orthogonal left used iteration s w e v w₁ st rg s₁ hj hnext hi hstart hc =>
    obtain ⟨e', w₁', _, hj', hnext', hw₁, htrial, hnexts⟩ :=
      hP.judged ho hn hn' hj hnext hs hs' hb h hw
    cases hnexts with
    | renew hR hregion =>
      obtain ⟨s₁', hstart', hs₁, -⟩ :=
        hP.begun ho hn hn' hR (htame _ List.mem_cons_self _ hR) hregion hstart
      exact ⟨_, .orthogonal hj' hnext' (hP.maxIterations_eq ▸ hi) hstart'
        (hs₁.maxCosine_eq ▸ hc), ((Run.parallel_ok hR _ _ hw₁).begunAt hR).after htrial⟩
  | @renewed left used iteration s w e v w₁ st rg s₁ r hj hnext hi hstart hc hr ih =>
    obtain ⟨e', w₁', _, hj', hnext', hw₁, htrial, hnexts⟩ :=
      hP.judged ho hn hn' hj hnext hs hs' hb h hw
    cases hnexts with
    | renew hR hregion =>
      obtain ⟨s₁', hstart', hs₁, hb₁⟩ :=
        hP.begun ho hn hn' hR (htame _ List.mem_cons_self _ hR) hregion hstart
      obtain ⟨r', hr', hparallel⟩ := ih (fun b hb => htame b (List.mem_cons_of_mem _ hb))
        (hs.renewed hnext hstart) (hs'.renewed hnext' hstart') hb₁ hs₁ hw₁
      exact ⟨_, .renewed hj' hnext' (hP.maxIterations_eq ▸ hi) hstart'
        (hs₁.maxCosine_eq ▸ hc) hr', (hparallel.begunAt hR).after htrial⟩

/-- The runs from two evaluations of the start points. -/
theorem Chart.Problems.runFrom_parallel {left : Nat} {e : Evaluation ℝ m n}
    {e' : Evaluation ℝ m' n} {w : σ} {w' : σ'} (hR : R e e')
    (htame : ∀ b ∈ (runFrom o P left e w).bases, ∀ b', R b b' → χ.Tame b b') (hw : I w w') :
    Run.Parallel χ.point R I (runFrom o P left e w) (runFrom o P' left e' w') := by
  obtain ⟨s, hs⟩ := Search.exists_start ho.threshold_eq (.ofEvaluation e) Region.initial
  rw [runFrom_eq rfl, hs] at htame ⊢
  obtain ⟨s', hs', h, hb⟩ := hP.begun ho hn hn' hR (htame e List.mem_cons_self e' hR)
    Chart.regions_initial hs
  rw [runFrom_eq rfl, hs']
  refine Run.Parallel.begunAt ?_ hR
  simp only [h.maxCosine_eq]
  by_cases hc : s.maxCosine ≤ o.orthogonalityTolerance
  · rw [if_pos hc, if_pos hc]
    exact Run.parallel_ok hR 1 1 hw
  · simp only [if_neg hc] at htame ⊢
    obtain ⟨r', hr', hparallel⟩ := hP.parallel ho hn hn' (runs_run o P left 1 1 s w)
      (fun b hb => htame b (List.mem_cons_of_mem e hb)) (.first hs) (.first hs') hb h hw
    exact hr'.eq_run ▸ hparallel

omit ho in
/-- **What an optimizer does** in the two charts. -/
theorem Chart.Problems.optimize_parallel {o : Options (Number ℝ)} (ho : o.values.Regular)
    {w : σ} {w' : σ'}
    (htame : ∀ e ∈ (optimize o P w).bases, ∀ e', R e e' → χ.Tame e e') (hw : I w w') :
    Course.Parallel χ.point R I (optimize o P w) (optimize o P' w') := by
  unfold LevenbergMarquardt.optimize Problem.iterationCounter Problem.evaluationCounter at htame ⊢
  rw [hP.maxIterations_eq, hP.maxEvaluations_eq]
  generalize (Counter.create .iterationsExceeded (.int P.maxIterations) :
    Except (Failure ℝ) Counter) = iterations at htame ⊢
  generalize (Counter.create .evaluationsExceeded (.int P.maxEvaluations) :
    Except (Failure ℝ) Counter) = evaluations at htame ⊢
  cases iterations with
  | error f => exact ⟨Run.parallel_error f hw, .unaffordable⟩
  | ok _ =>
    cases evaluations with
    | error f => exact ⟨Run.parallel_error f hw, .unaffordable⟩
    | ok evaluations =>
      dsimp only at htame ⊢
      generalize evaluations.maximum.toNat = k at htame ⊢
      cases k with
      | zero => exact ⟨Run.parallel_error _ hw, .unaffordable⟩
      | succ left =>
        have hends := hP.evaluation P'.start w w' hw
        rw [← hP.start_eq] at hends
        dsimp only at htame ⊢
        generalize (P.evaluation P.start).after w = x at hends htame ⊢
        generalize (P'.evaluation P'.start).after w' = x' at hends ⊢
        cases hends with
        | error f hw₁ => exact ⟨Run.parallel_error f hw₁, .failed⟩
        | ok hR hw₁ => exact ⟨hP.runFrom_parallel ho hn hn' hR htame hw₁, .made hR none⟩

end Problems

end LeastSquares
