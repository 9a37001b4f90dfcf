import Mathlib.Analysis.Real.Sqrt
import Mathlib.Tactic.Linarith
import LeastSquares.Proofs.Extended

/-!
# Descent of the trust-region method

Runs in exact arithmetic with infinities, where a trial may cost infinitely much or an undefined
amount. A trial is accepted by the ratio of two reductions; as the predicted one is never negative,
a ratio of at least the accepting one means that the actual reduction is positive.

Results:
* `lt_of_isAccepted`: an accepted trial costs a finite amount, strictly less than what it replaces;
* `Runs.descends`: the costs of the accepted trials of a run decrease strictly, and a run returns
  the last of them;
* `optimize_congr`: a checker is asked about such pairs of evaluations only;
* `optimize_descends`: all of this of every course with options that are accepted.
-/

namespace LeastSquares.LevenbergMarquardt

open Extended

variable {σ : Type} {m n : Nat}

/-! ## Accepted trials -/

/-- A positive ratio to a prediction that is not negative: the reduction is positive. -/
theorem pos_of_ratio {actual predicted : Extended} {x : ℝ} (hx : 0 < x)
    (hp : predicted.NotNegative) (hne : same predicted (finite 0) = false)
    (h : AtMost (finite x) (div actual predicted)) : Below (finite 0) actual := by
  cases predicted with
  | finite p =>
    have hpos : 0 < p := lt_of_le_of_ne (notNegative_finite.mp hp) fun h0 =>
      of_decide_eq_false hne h0.symm
    cases actual with
    | finite y =>
      simp only [div, if_pos hpos.ne', AtMost] at h
      exact (div_pos_iff_of_pos_right hpos).mp (hx.trans_le h)
    | infinite s =>
      simp only [div, AtMost, decide_eq_false (not_lt.mpr hpos.le), Bool.xor_false] at h
      exact h
    | undefined => exact absurd h id
  | infinite t =>
    cases actual with
    | finite y => exact absurd hx (not_lt.mpr h)
    | infinite s => exact absurd h id
    | undefined => exact absurd h id
  | undefined => cases actual <;> exact absurd h id

/-- The actual reduction, as `Search.assess` forms it. -/
noncomputable def reduction (cost previous : Extended) : Extended :=
  if 0.1 * cost < previous then 1 - cost / previous * (cost / previous) else -1

/-- A positive reduction leads from a finite cost to a finite one strictly below it. -/
theorem lt_of_reduction {cost : Extended} {c : ℝ} (hcost : cost.NotNegative)
    (h : Below (finite 0) (reduction cost (finite c))) : ∃ x, cost = finite x ∧ x < c := by
  unfold reduction at h
  split_ifs at h with hlt
  · obtain ⟨x, rfl⟩ := hcost.exists_of_tenth hlt
    refine ⟨x, rfl, ?_⟩
    have hx := notNegative_finite.mp hcost
    change (0.1 : ℝ) * x < c at hlt
    have hc : 0 < c := lt_of_le_of_lt (mul_nonneg (by norm_num) hx) hlt
    have hq : div (finite x) (finite c) = finite (x / c) := if_pos hc.ne'
    change Below (finite 0) (Extended.add (finite 1) (neg (Extended.mul
      (div (finite x) (finite c)) (div (finite x) (finite c))))) at h
    rw [hq] at h
    have hsq : (0 : ℝ) < 1 + -(x / c * (x / c)) := h
    have hone : x / c < 1 := by
      by_contra hge
      nlinarith [not_lt.mp hge]
    exact (div_lt_one hc).mp hone
  · have hneg : (0 : ℝ) < -1 := h
    exact absurd hneg (by norm_num)

theorem cost_notNegative (e : Evaluation Extended m n) : e.cost.NotNegative :=
  signRule.sqrt _

theorem exists_of_isFinite {a : Extended} (h : isFinite a = true) : ∃ x, a = finite x := by
  cases a with
  | finite x => exact ⟨x, rfl⟩
  | infinite s => cases h
  | undefined => cases h

/-- The residuals of a finite cost are finite. -/
theorem isFinite_residual {e : Evaluation Extended m n} (h : isFinite e.cost = true) (i : Fin m) :
    isFinite (e.residuals i) = true := by
  have hsum : dot e.residuals e.residuals =
      sumOver (fun _ => True) fun i => e.residuals i * e.residuals i := by
    unfold dot sum sumOver
    simp only [if_true]
  have hdot := isFinite_of_sqrt h
  rw [hsum] at hdot
  exact isFinite_of_mul_self (isFinite_of_sumOver hdot trivial)

/-- A search at an evaluation with a finite cost, which it compares with; its radius and its
damping parameter are not negative. -/
structure Grounded (s : Search Extended m n) : Prop where
  cost_eq : s.standing.cost = s.base.cost
  finite : isFinite s.base.cost = true
  signed : s.region.Signed NotNegative

variable {o : Options Extended} {s s' : Search Extended m n} {e : Evaluation Extended m n}

/-- **An accepted trial** costs a finite amount, strictly less than the evaluation it replaces. -/
theorem Grounded.of_isAccepted (h : Grounded s)
    (ha : (s.assess s.propose e).isAccepted = true) :
    isFinite e.cost = true ∧ e.cost < s.base.cost := by
  obtain ⟨hl, hn, -⟩ := s.propose_signed signRule h.signed
  have hp := s.assess_predicted signRule hl hn e
  obtain ⟨c, hc⟩ := exists_of_isFinite h.finite
  have hratio : acceptRatio ≤ (if (s.assess s.propose e).predicted == 0 then 0
      else reduction e.cost s.standing.cost / (s.assess s.propose e).predicted) :=
    of_decide_eq_true ha
  rw [h.cost_eq, hc] at hratio
  split_ifs at hratio with h0
  · have hle : (1.0e-4 : ℝ) ≤ 0 := hratio
    exact absurd hle (by norm_num)
  · have hpos : Below (Extended.finite 0) (reduction e.cost (Extended.finite c)) :=
      pos_of_ratio (x := 1.0e-4) (by norm_num) hp ((Bool.not_eq_true _).mp h0) hratio
    obtain ⟨x, hx, hxc⟩ := lt_of_reduction (cost_notNegative e) hpos
    rw [hx, hc]
    exact ⟨rfl, hxc⟩

/-! ## Searches -/

/-- Where the run stands after a trial costs a finite amount. -/
theorem Grounded.standingAfter (h : Grounded s) (e : Evaluation Extended m n) :
    let st := s.standingAfter (s.assess s.propose e)
    st.cost = st.evaluation.cost ∧ isFinite st.evaluation.cost = true := by
  unfold Search.standingAfter
  split_ifs with ha
  · exact ⟨rfl, (h.of_isAccepted ha).1⟩
  · exact ⟨h.cost_eq, h.finite⟩

theorem start_grounded (ho : o.initialStepFactor.NotNegative) {st : Standing Extended m n}
    {rg : Region Extended n} (hcost : st.cost = st.evaluation.cost)
    (hf : isFinite st.evaluation.cost = true) (hrg : rg.Signed NotNegative)
    (hs : Search.start o st rg = .ok s) : Grounded s := by
  have hsigned := Search.start_signed signRule ho hrg hs
  obtain ⟨d, -, rfl⟩ := Search.of_start_eq_ok hs
  exact ⟨hcost, hf, hsigned⟩

theorem Grounded.retry (h : Grounded s) {v : Option Bool} (hn : s.outcome o e v = .retry s') :
    Grounded s' ∧ s'.base = s.base ∧ (s.assess s.propose e).isAccepted = false := by
  obtain ⟨-, hlt, rfl⟩ := Search.of_outcome_eq_retry hn
  have ha : (s.assess s.propose e).isAccepted = false :=
    decide_eq_false fun hle => not_lt_of_le hle hlt
  refine ⟨⟨?_, h.finite, Search.regionAfter_signed signRule h.signed _⟩, rfl, ha⟩
  change (s.standingAfter _).cost = s.base.cost
  rw [Search.standingAfter, ha]
  exact h.cost_eq

theorem Grounded.renew (h : Grounded s) (ho : o.initialStepFactor.NotNegative) {v : Option Bool}
    {st : Standing Extended m n} {rg : Region Extended n} (hn : s.outcome o e v = .renew st rg)
    (hs : Search.start o st rg = .ok s') :
    Grounded s' ∧ s'.base = st.evaluation := by
  obtain ⟨-, -, rfl, rfl⟩ := Search.of_outcome_eq_renew hn
  obtain ⟨hcost, hf⟩ := h.standingAfter e
  refine ⟨start_grounded ho hcost hf (Search.regionAfter_signed signRule h.signed _) hs, ?_⟩
  obtain ⟨d, -, rfl⟩ := Search.of_start_eq_ok hs
  rfl

/-! ## Runs -/

section Accepted

variable {α : Type} [Scalar α]

/-- The evaluation of a trial that was accepted. -/
def Trial.accepted? (t : Trial α m n) : Option (Evaluation α m n) :=
  match t.progress with
  | .made a _ => if a.isAccepted then some a.evaluation else none
  | _ => none

/-- What a trial that was accepted was evaluated to. -/
theorem Trial.made_of_accepted? {t : Trial α m n} {e : Evaluation α m n}
    (h : t.accepted? = some e) :
    ∃ a v, t.progress = .made a v ∧ a.isAccepted = true ∧ a.evaluation = e := by
  unfold Trial.accepted? at h
  cases hp : t.progress with
  | unaffordable | failed =>
    rw [hp] at h
    cases h
  | made a v =>
    rw [hp] at h
    obtain ⟨ha, he⟩ := Option.ite_none_right_eq_some.mp h
    exact ⟨a, v, rfl, ha, Option.some.inj he⟩

/-- The evaluations that a run accepts, in order. -/
def Run.accepted (r : Run σ α m n) : List (Evaluation α m n) :=
  r.trials.filterMap Trial.accepted?

end Accepted

/-- The costs of the evaluations that a run accepts decrease strictly from that of `base` on, all
of them are finite, and the run returns the last one, or `base` if there is none. -/
structure Run.Descends (base : Evaluation Extended m n) (r : Run σ Extended m n) : Prop where
  decreasing : (base :: r.accepted).Pairwise fun e e' => e'.cost < e.cost
  finite : ∀ e ∈ r.accepted, isFinite e.cost = true
  result : ∀ opt, r.result = .ok opt → (base :: r.accepted).getLast? = some opt.evaluation

section Rules

variable {base : Evaluation Extended m n} {r : Run σ Extended m n}

theorem descends_error (f : Failure Extended) (w : σ) :
    (Run.ending (.error f) w).Descends base :=
  ⟨List.pairwise_singleton _ _, fun _ he => absurd he List.not_mem_nil, nofun⟩

theorem descends_ok (used iteration : Nat) (w : σ) :
    (Run.ending (.ok ⟨base, used, iteration⟩) w).Descends base := by
  refine ⟨List.pairwise_singleton _ _, fun _ he => absurd he List.not_mem_nil, ?_⟩
  intro opt ho
  cases ho
  rfl

theorem Run.Descends.begunAt (h : r.Descends base) (e : Evaluation Extended m n) :
    (r.begunAt e).Descends base := ⟨h.decreasing, h.finite, h.result⟩

/-- A trial that was not accepted changes nothing. -/
theorem Run.Descends.after_none (h : r.Descends base) {t : Trial Extended m n}
    (ht : t.accepted? = none) : (r.after t).Descends base := by
  have he : (r.after t).accepted = r.accepted := List.filterMap_cons_none ht
  exact ⟨he ▸ h.decreasing, he ▸ h.finite, he ▸ h.result⟩

/-- **A trial leads down**, if the run goes on from where the trial left it. -/
theorem Run.Descends.after_trial {iteration : Nat} {v : Option Bool} (hs : Grounded s)
    (h : r.Descends (s.standingAfter (s.assess s.propose e)).evaluation) :
    (r.after (s.trial iteration e v)).Descends s.base := by
  by_cases ha : (s.assess s.propose e).isAccepted = true
  · obtain ⟨hf, hlt⟩ := hs.of_isAccepted ha
    have ht : (s.trial iteration e v).accepted? = some e := if_pos ha
    have he : (r.after (s.trial iteration e v)).accepted = e :: r.accepted :=
      List.filterMap_cons_some ht
    rw [Search.standingAfter, if_pos ha] at h
    obtain ⟨hbelow, hpair⟩ := List.pairwise_cons.mp h.decreasing
    refine ⟨?_, ?_, ?_⟩
    · rw [he, List.pairwise_cons]
      refine ⟨?_, h.decreasing⟩
      intro e' he'
      rcases List.mem_cons.mp he' with rfl | he'
      · exact hlt
      · exact Extended.lt_trans (hbelow e' he') hlt
    · rw [he]
      intro e' he'
      rcases List.mem_cons.mp he' with rfl | he'
      · exact hf
      · exact h.finite e' he'
    · intro opt ho
      rw [he, List.getLast?_cons_cons]
      exact h.result opt ho
  · rw [Search.standingAfter, if_neg ha] at h
    exact h.after_none (if_neg ha)

end Rules

/-- **Every run descends** from the evaluation its search is at. -/
theorem Runs.descends (ho : o.initialStepFactor.NotNegative) {P : Problem σ Extended m n}
    {left used iteration : Nat} {w : σ} {r : Run σ Extended m n}
    (h : Runs o P left used iteration s w r) (hs : Grounded s) : r.Descends s.base := by
  induction h with
  | exhausted => exact (descends_error _ _).after_none rfl
  | failed _ => exact (descends_error _ _).after_none rfl
  | unanswered _ _ => exact (descends_error _ _).after_trial hs
  | stopped _ hn =>
    obtain rfl := Search.of_outcome_eq_stop hn
    exact (descends_ok _ _ _).after_trial hs
  | stuck _ _ => exact (descends_error _ _).after_trial hs
  | retried _ hn _ ih =>
    obtain ⟨hs', hbase, ha⟩ := hs.retry hn
    have hr := ih hs'
    rw [hbase] at hr
    exact hr.after_none (if_neg (by rw [ha]; exact Bool.false_ne_true))
  | overdue _ _ _ => exact (descends_error _ _).after_trial hs
  | undecomposed _ _ _ _ => exact ((descends_error _ _).begunAt _).after_trial hs
  | orthogonal _ hn _ _ _ =>
    obtain ⟨-, -, rfl, -⟩ := Search.of_outcome_eq_renew hn
    exact ((descends_ok _ _ _).begunAt _).after_trial hs
  | renewed _ hn _ hs₁ _ _ ih =>
    obtain ⟨hs', hbase⟩ := hs.renew ho hn hs₁
    have hr := ih hs'
    obtain ⟨-, -, rfl, -⟩ := Search.of_outcome_eq_renew hn
    rw [hbase] at hr
    exact (hr.begunAt _).after_trial hs

theorem first_grounded (ho : o.initialStepFactor.NotNegative) {e₀ : Evaluation Extended m n}
    (hf : isFinite e₀.cost = true)
    (hs : Search.start o (.ofEvaluation e₀) Region.initial = .ok s) : Grounded s := by
  have hcost : (Standing.ofEvaluation e₀).cost = (Standing.ofEvaluation e₀).evaluation.cost := rfl
  have hrg : (Region.initial : Region Extended n).Signed NotNegative :=
    ⟨signRule.zero, signRule.zero⟩
  exact start_grounded ho hcost hf hrg hs

theorem Reached.grounded (ho : o.initialStepFactor.NotNegative) {e₀ : Evaluation Extended m n}
    (hf : isFinite e₀.cost = true) {bs : List (Evaluation Extended m n)} (h : Reached o e₀ bs s) :
    Grounded s := by
  induction h with
  | first hs => exact first_grounded ho hf hs
  | retried _ hn ih => exact (ih.retry hn).1
  | renewed _ hn hs ih => exact (ih.renew ho hn hs).1

/-! ## The checker -/

/-- Two problems that differ at most in the answers of their checkers to questions about a step
down between finite costs. -/
structure Alike (P P' : Problem σ Extended m n) : Prop where
  evaluation_eq : P'.evaluation = P.evaluation
  start_eq : P'.start = P.start
  maxEvaluations_eq : P'.maxEvaluations = P.maxEvaluations
  maxIterations_eq : P'.maxIterations = P.maxIterations
  consult_eq : ∀ (iteration : Nat) (e e' : Evaluation Extended m n), isFinite e.cost = true →
    isFinite e'.cost = true → e'.cost < e.cost →
      P'.consult iteration e e' = P.consult iteration e e'

variable {P P' : Problem σ Extended m n}

/-- An accepted trial is a step down between finite costs. -/
theorem Alike.asked_eq (hP : Alike P P') (hs : Grounded s) (iteration : Nat)
    (e : Evaluation Extended m n) :
    (if (s.assess s.propose e).isAccepted then P'.consult iteration s.base e else pure none) =
      if (s.assess s.propose e).isAccepted then P.consult iteration s.base e else pure none := by
  split_ifs with ha
  · obtain ⟨hf, hlt⟩ := hs.of_isAccepted ha
    exact hP.consult_eq iteration s.base e hs.finite hf hlt
  · rfl

/-- Alike problems have the same runs. -/
theorem run_congr (ho : o.initialStepFactor.NotNegative) (hP : Alike P P')
    (left used iteration : Nat) (hs : Grounded s) (w : σ) :
    run o P' left used iteration s w = run o P left used iteration s w := by
  induction left generalizing used iteration s w with
  | zero =>
    unfold run
    rw [hP.maxEvaluations_eq]
  | succ left ih =>
    unfold run
    simp only [hP.evaluation_eq, hP.maxIterations_eq]
    rcases (P.evaluation s.propose.point).after w with ⟨f | e, w₁⟩
    · rfl
    simp only [hP.asked_eq hs iteration e]
    rcases (if (s.assess s.propose e).isAccepted then P.consult iteration s.base e
      else pure none : Act σ (Failure Extended) (Option Bool)).after w₁ with ⟨f | v, w'⟩
    · rfl
    simp only
    congr 1
    cases hn : s.next o s.propose (s.assess s.propose e) v with
    | stop e' => rfl
    | fail f => rfl
    | retry s' => exact ih (used + 1) iteration (hs.retry hn).1 w'
    | renew st rg =>
      simp only
      split_ifs
      · rfl
      congr 1
      cases hs₁ : Search.start o st rg with
      | error f => rfl
      | ok s' =>
        simp only
        split_ifs
        · rfl
        · exact ih (used + 1) (iteration + 1) (hs.renew ho hn hs₁).1 w'

theorem runFrom_congr (ho : o.initialStepFactor.NotNegative) (hP : Alike P P') (left : Nat)
    (e : Evaluation Extended m n) (w : σ) : runFrom o P' left e w = runFrom o P left e w := by
  unfold runFrom
  by_cases hf : isFinite (Standing.ofEvaluation e).cost = false
  · simp only [if_pos hf]
  simp only [if_neg hf]
  congr 1
  cases hs : Search.start o (.ofEvaluation e) Region.initial with
  | error f => rfl
  | ok s =>
    simp only
    split_ifs
    · rfl
    · exact run_congr ho hP left 1 1 (first_grounded ho ((Bool.not_eq_false _).mp hf) hs) w

/-- **Alike problems have the same courses**: what else a checker would say does not matter. -/
theorem optimize_congr {o : Options (Number Extended)}
    (ho : o.values.initialStepFactor.NotNegative) (hP : Alike P P') (w : σ) :
    optimize o P' w = optimize o P w := by
  unfold optimize Problem.iterationCounter Problem.evaluationCounter
  rw [hP.maxIterations_eq, hP.maxEvaluations_eq, hP.evaluation_eq, hP.start_eq]
  cases (Counter.create .iterationsExceeded (.int P.maxIterations) :
    Except (Failure Extended) Counter) with
  | error f => rfl
  | ok _ =>
    cases (Counter.create .evaluationsExceeded (.int P.maxEvaluations) :
      Except (Failure Extended) Counter) with
    | error f => rfl
    | ok evaluations =>
      simp only
      cases evaluations.maximum.toNat with
      | zero => rfl
      | succ left =>
        simp only
        rcases (P.evaluation P.start).after w with ⟨f | e, w'⟩
        · rfl
        simp only
        congr 1
        exact runFrom_congr ho hP left e w'

/-! ## Courses -/

/-- The evaluations at which a course stands one after the other: that of its start point, and
those of the accepted trials. -/
def Course.standpoints {α : Type} [Scalar α] (c : Course σ α m n) : List (Evaluation α m n) :=
  c.start.found?.toList ++ c.accepted

/-- **Descent** of a course. -/
structure Course.Descends (c : Course σ Extended m n) : Prop where
  /-- A trial stands on an evaluation with a finite cost. -/
  base_finite : ∀ t ∈ c.trials, isFinite t.search.base.cost = true
  /-- An accepted trial costs a finite amount, strictly less than what it replaces. -/
  accepted_lt : ∀ t ∈ c.trials, ∀ a v, t.progress = .made a v → a.isAccepted = true →
    isFinite a.evaluation.cost = true ∧ a.evaluation.cost < t.search.base.cost
  decreasing : c.standpoints.Pairwise fun e e' => e'.cost < e.cost
  accepted_finite : ∀ e ∈ c.accepted, isFinite e.cost = true
  /-- The last evaluation is returned. Its cost is finite and not above that of the first. -/
  result : ∀ opt, c.result = .ok opt → c.standpoints.getLast? = some opt.evaluation ∧
    isFinite opt.evaluation.cost = true ∧
    ∃ e₀, c.start.found? = some e₀ ∧ opt.evaluation.cost ≤ e₀.cost

/-- The last of an evaluation and those that a run accepts costs a finite amount, not more than the
first. -/
theorem Run.Descends.last {base e : Evaluation Extended m n} {r : Run σ Extended m n}
    (h : r.Descends base) (hf : isFinite base.cost = true)
    (he : (base :: r.accepted).getLast? = some e) :
    isFinite e.cost = true ∧ e.cost ≤ base.cost := by
  rcases List.mem_cons.mp (List.mem_of_getLast? he) with rfl | hmem
  · obtain ⟨x, hx⟩ := exists_of_isFinite hf
    rw [hx]
    exact ⟨rfl, le_refl x⟩
  · exact ⟨h.finite e hmem, Extended.le_of_lt ((List.pairwise_cons.mp h.decreasing).1 e hmem)⟩

/-- A course with a run that descends from its start. -/
theorem Run.Descends.course {e₀ : Evaluation Extended m n} {r : Run σ Extended m n}
    (h : r.Descends e₀) (hf : isFinite e₀.cost = true)
    (ht : ∀ t ∈ r.trials, Grounded t.search)
    (ha : ∀ t ∈ r.trials, ∀ a v, t.progress = .made a v →
      ∃ e, a = t.search.assess t.search.propose e) :
    Course.Descends ⟨r, .made e₀ none⟩ where
  base_finite t hmem := (ht t hmem).finite
  accepted_lt t hmem a v hprogress hacc := by
    obtain ⟨e, rfl⟩ := ha t hmem a v hprogress
    exact (ht t hmem).of_isAccepted hacc
  decreasing := h.decreasing
  accepted_finite := h.finite
  result opt ho := by
    have hlast := h.result opt ho
    obtain ⟨hfinite, hle⟩ := h.last hf hlast
    exact ⟨hlast, hfinite, e₀, rfl, hle⟩

/-- A course that ends in a failure before its first outer iteration. -/
theorem course_descends_error (f : Failure Extended) (w : σ)
    (start : Progress (Evaluation Extended m n)) :
    Course.Descends ⟨Run.ending (.error f) w, start⟩ where
  base_finite _ ht := absurd ht List.not_mem_nil
  accepted_lt _ ht := absurd ht List.not_mem_nil
  decreasing := by
    have hs : Course.standpoints ⟨Run.ending (.error f) w, start⟩ = start.found?.toList :=
      List.append_nil _
    rw [hs]
    cases start.found? with
    | none => exact List.Pairwise.nil
    | some e => exact List.pairwise_singleton _ e
  accepted_finite _ he := absurd he List.not_mem_nil
  result _ ho := by cases ho

/-- **Every course descends**. -/
theorem Courses.descends {o : Options (Number Extended)}
    (ho : o.values.initialStepFactor.NotNegative) {w : σ} {c : Course σ Extended m n}
    (h : Courses o P w c) : c.Descends := by
  have htrials : ∀ t ∈ c.trials, Grounded t.search ∧
      ∀ a v, t.progress = .made a v → ∃ e, a = t.search.assess t.search.propose e := by
    intro t ht
    obtain ⟨e₀, bs, hf, -, hat⟩ := h.reached ht
    refine ⟨hat.reached.grounded ho hf, fun a v ha => ?_⟩
    obtain ⟨e, -, -, -, he⟩ := hat.made a v ha
    exact ⟨e, hat.proposal_eq ▸ he⟩
  cases h with
  | refused _ f => exact course_descends_error f _ _
  | failed _ _ _ => exact course_descends_error _ _ _
  | infinite _ _ _ _ => exact course_descends_error _ _ _
  | undecomposed _ _ _ hf _ =>
    exact ((descends_error _ _).begunAt _).course hf (fun _ ht => absurd ht List.not_mem_nil)
      fun _ ht => absurd ht List.not_mem_nil
  | orthogonal _ _ _ hf _ _ =>
    exact ((descends_ok _ _ _).begunAt _).course hf (fun _ ht => absurd ht List.not_mem_nil)
      fun _ ht => absurd ht List.not_mem_nil
  | begun _ _ _ hf hs _ hr =>
    have hr := hr.descends ho (first_grounded ho hf hs)
    obtain ⟨d, -, rfl⟩ := Search.of_start_eq_ok hs
    exact (hr.begunAt _).course hf (fun t ht => (htrials t ht).1) fun t ht => (htrials t ht).2

/-- **Headline.** With options that are accepted, every course descends, and its checker is asked
about steps down between finite costs only. -/
theorem optimize_descends {given : Options (Setting Extended)} {o : Options (Number Extended)}
    (hc : Options.check given = .ok o) (P : Problem σ Extended m n) (w : σ) :
    (optimize o P w).Descends ∧ ∀ P', Alike P P' → optimize o P' w = optimize o P w := by
  have ho : o.values.initialStepFactor.NotNegative := signRule.value (Options.of_check_eq_ok hc).1
  exact ⟨(courses_optimize o P w).descends ho, fun P' hP => optimize_congr ho hP w⟩

theorem optimize_descends_line :
    Options.check ((exactOptions Extended).map Setting.number) = .ok (exactOptions Extended) ∧
      (optimize (exactOptions Extended) (lineProblem Extended) ()).Descends ∧
      ∀ P', Alike (lineProblem Extended) P' →
        optimize (exactOptions Extended) P' () =
          optimize (exactOptions Extended) (lineProblem Extended) () := by
  have hc : Options.check ((exactOptions Extended).map Setting.number) =
      .ok (exactOptions Extended) := rfl
  exact ⟨hc, optimize_descends hc (lineProblem Extended) ()⟩

end LeastSquares.LevenbergMarquardt
