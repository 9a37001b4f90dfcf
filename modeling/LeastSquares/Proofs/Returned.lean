import LeastSquares.Proofs.Construction
import LeastSquares.Proofs.LineSearch
import LeastSquares.Proofs.NullColumns
import LeastSquares.Proofs.Tolerances

/-!
# What a run returns and what it found

A run need not return the least costly evaluation that it made. The trust-region method accepts a
trial by the ratio of its reduction to the predicted one, so it may reject a trial that costs less.
In exact arithmetic with infinities the predicted reduction of a step is not above one, and zero
only if the step leads nowhere; so what a rejected trial gains is below the accepting ratio.
Everything that was accepted costs no less than what is returned. The Gauss-Newton method compares
no costs at all: it returns the last evaluation.

Results:
* `Search.Safe.predicted_le`, `Search.Safe.point_eq_of_predicted`: the predicted reduction;
* `Search.Safe.sq_lt_of_rejected`: a rejected trial;
* `optimizers_return`: what the optimizers return;
* `Optimizer.not_returnsLeast`: it is not the least of what they found.
-/

namespace LeastSquares

open Matrix

variable {σ : Type} {m n : Nat}

namespace LevenbergMarquardt

open Decomposition

/-! ## The predicted reduction -/

section Predicted

variable {s : Search ℝ m n}

/-- **The predicted reduction** is what the linear model gains by the step, relative to the squared
cost. -/
theorem Search.predicted_eq (hw : s.decomposition.Written (min m n)) {x : Vec ℝ n}
    (hx : s.propose.step = x.map fun x => -x) (actual : ℝ) :
    (s.reductionsFrom s.propose actual).predicted =
      s.decomposition.gain (Nat.min_le_left m n) (Nat.min_le_right m n) s.region.scaling
        s.propose.lambda x / s.standing.cost ^ 2 := by
  have hagrees := propose_agrees hw
  have hgather (k : Fin (min m n)) : s.propose.decomposition.gather (Nat.min_le_right m n)
      s.propose.step k = -s.decomposition.gather (Nat.min_le_right m n) x k := by
    rw [hagrees.gather_eq, hx, gather, gather, Vec.ofFn_apply, Vec.ofFn_apply, Vec.map_apply]
  have hchange (i : Fin (min m n)) : Search.linearModel s.propose i =
      -∑ c, s.decomposition.block (Nat.min_le_left m n) (Nat.min_le_right m n) i c *
        s.decomposition.gather (Nat.min_le_right m n) x c := by
    rw [linearModel_apply, hagrees.block_eq, ← Finset.sum_neg_distrib]
    refine Finset.sum_congr rfl fun c _ => ?_
    rw [hgather, mul_neg]
  have hsquare : dot (Search.linearModel s.propose) (Search.linearModel s.propose) =
      s.decomposition.modelSquare (Nat.min_le_left m n) (Nat.min_le_right m n) x := by
    rw [Exact.dot_eq, modelSquare]
    refine Finset.sum_congr rfl fun i _ => ?_
    rw [hchange, neg_mul_neg, sq]
  have hlength : s.propose.length * s.propose.length =
      ∑ k, (s.decomposition.gather (Nat.min_le_right m n) s.region.scaling k *
        s.decomposition.gather (Nat.min_le_right m n) x k) ^ 2 := by
    have hnorm : s.propose.length = norm (Damped.scaled
        (s.propose.decomposition.gather (Nat.min_le_right m n) s.region.scaling)
        (s.propose.decomposition.gather (Nat.min_le_right m n) s.propose.step)) := rfl
    rw [hnorm, ← sq, Exact.norm_sq]
    refine Finset.sum_congr rfl fun k _ => ?_
    rw [Damped.scaled, Vec.ofFn_apply, hgather, hagrees.gather_eq]
    ring
  change _ / (s.standing.cost * s.standing.cost) + 2.0 * (s.propose.lambda * s.propose.length *
    s.propose.length / (s.standing.cost * s.standing.cost)) = _
  rw [hsquare, mul_assoc s.propose.lambda, hlength, gain, show (2.0 : ℝ) = 2 by norm_num]
  ring

/-- A safe search whose projected residuals are as long as the residuals. -/
theorem Search.Safe.predicted_le (hs : s.Safe)
    (hq : ∑ i, s.projected i ^ 2 = s.standing.cost ^ 2) (actual : ℝ) :
    (s.reductionsFrom s.propose actual).predicted ≤ 1 := by
  obtain ⟨x, hstep, hx⟩ := Search.exists_isDirection hs.written
    ⟨hs.region.radius_pos.le, hs.region.lambda_nonneg⟩ hs.region.scaling_pos
  have hcost : 0 < s.standing.cost ^ 2 := by
    have := hs.cost_ne
    positivity
  rw [Search.predicted_eq hs.written hstep, div_le_one hcost, ← hq]
  refine (hx.gain_le hs.written.order hs.solvable).trans ?_
  have hinjective : Function.Injective (Fin.castLE (Nat.min_le_left m n)) :=
    Fin.castLE_injective _
  rw [← Finset.sum_image (s := Finset.univ) (g := Fin.castLE (Nat.min_le_left m n))
    (f := fun i => s.projected i ^ 2) fun i _ j _ h => hinjective h]
  exact Finset.sum_le_sum_of_subset_of_nonneg (Finset.subset_univ _) fun i _ _ => sq_nonneg _

theorem Search.Safe.predicted_nonneg (hs : s.Safe) (actual : ℝ) :
    0 ≤ (s.reductionsFrom s.propose actual).predicted := by
  obtain ⟨x, hstep, hx⟩ := Search.exists_isDirection hs.written
    ⟨hs.region.radius_pos.le, hs.region.lambda_nonneg⟩ hs.region.scaling_pos
  rw [Search.predicted_eq hs.written hstep]
  exact div_nonneg (gain_nonneg hx.lambda_nonneg) (sq_nonneg _)

/-- **Nothing is predicted** only of a step that leads nowhere. -/
theorem Search.Safe.point_eq_of_predicted (hs : s.Safe) {actual : ℝ}
    (h0 : (s.reductionsFrom s.propose actual).predicted = 0) :
    s.propose.point = s.standing.point := by
  obtain ⟨x, hstep, hx⟩ := Search.exists_isDirection hs.written
    ⟨hs.region.radius_pos.le, hs.region.lambda_nonneg⟩ hs.region.scaling_pos
  rw [Search.predicted_eq hs.written hstep] at h0
  have hgain := (div_eq_zero_iff.mp h0).resolve_right (pow_ne_zero 2 hs.cost_ne)
  have hzero := hx.eq_zero_of_gain hs.written.order hs.solvable hs.region.scaling_pos hgain
  refine Vec.ext fun c => ?_
  have hentry : s.propose.point c = s.standing.point c + s.propose.step c := Vec.ofFn_apply _ c
  rw [hentry, hstep, Vec.map_apply, hzero, neg_zero, add_zero]

end Predicted

/-! ## Rejected trials -/

section Rejected

/-- The projected residuals of a search are those of the evaluation that it stands on. -/
theorem Reached.projected_eq {α : Type} [Scalar α] {o : Options α} {e₀ : Evaluation α m n}
    {bs : List (Evaluation α m n)} {s : Search α m n} (h : Reached o e₀ bs s)
    {d : Decomposition α m n} (hd : ofJacobian s.base.jacobian o.rankingThreshold = .ok d) :
    s.projected = d.transposeApply s.base.residuals := by
  induction h with
  | first hs | renewed _ _ hs =>
    obtain ⟨d', hd', rfl⟩ := Search.of_start_eq_ok hs
    obtain rfl := Except.ok.inj (hd'.symm.trans hd)
    rfl
  | retried _ hn ih =>
    obtain ⟨-, -, rfl⟩ := Search.of_outcome_eq_retry hn
    exact ih hd

variable {β : Type} [Scalar β] {ι : ℝ → β} {o : Options ℝ} {t : Trial β m n} {s : Search ℝ m n}

/-- The search that a safe trial follows has the length of the residuals as its cost. -/
theorem Trial.Safe.projected_sq (ht : t.Safe ι s) (h : Extends ι) (ho : o.Bounds)
    {e₀ : Evaluation β m n} {bs : List (Evaluation β m n)}
    (hreached : Reached (o.map ι) e₀ bs t.search)
    (hstands : t.search.standing = .ofEvaluation t.search.base) :
    s.standing.cost = s.base.cost ∧ ∑ i, s.projected i ^ 2 = s.standing.cost ^ 2 := by
  obtain ⟨d, hd, hf⟩ := exists_ofJacobian s.base.jacobian ho.threshold_nonneg
  rw [ht.search_eq] at hreached hstands
  have hprojected := (hreached.projected_eq (h.map_ofJacobian ho.threshold_nonneg hd)).trans
    (h.map_transposeApply d s.base.residuals)
  have hentry (i : Fin m) : s.projected i = d.transposeApply s.base.residuals i := by
    have hi := congrArg (fun v : Vec β m => v i) hprojected
    change (s.projected.map ι) i = ((d.transposeApply s.base.residuals).map ι) i at hi
    rwa [Vec.map_apply, Vec.map_apply, h.eq_iff] at hi
  have hcost : s.standing.cost = s.base.cost := by
    rw [← h.eq_iff, ← cost_map h]
    exact congrArg Standing.cost hstands
  refine ⟨hcost, ?_⟩
  rw [hcost, cost_eq, Real.sq_sqrt (Finset.sum_nonneg fun i _ => sq_nonneg _),
    ← hf.sum_transposeApply_sq s.base.residuals]
  exact Finset.sum_congr rfl fun i _ => congrArg (· ^ 2) (hentry i)

/-- **What a rejected trial finds** at another point costs less than the run stands at only within
what the accepting ratio allows. -/
theorem Search.Safe.sq_lt_of_rejected (hs : s.Safe) (h : Extends ι)
    (hq : ∑ i, s.projected i ^ 2 = s.standing.cost ^ 2) (hc : 0 ≤ s.standing.cost)
    (hne : s.propose.point ≠ s.standing.point) {e : Evaluation β m n} {x : ℝ} (hx : e.cost = ι x)
    (hrejected : ((s.map ι).assess (s.map ι).propose e).isAccepted = false) :
    (1 - 1.0e-4) * s.standing.cost ^ 2 < x ^ 2 := by
  set c := s.standing.cost
  have hpos : 0 < c := lt_of_le_of_ne hc (Ne.symm hs.cost_ne)
  set actual : ℝ := if 0.1 * x < c then 1 - x / c * (x / c) else -1
  set predicted := (s.reductionsFrom s.propose actual).predicted
  have hreductions : ((s.map ι).assess (s.propose.map ι) e).reductions =
      (s.reductionsFrom s.propose actual).map ι := by
    rw [Search.assess_reductions, assess_actual_eq h hs.cost_ne _ hx,
      reductionsFrom_map h hs.cost_ne]
  have hratio : ¬ acceptRatio ≤ (s.reductionsFrom s.propose actual).ratio := by
    rw [hs.propose_map h] at hrejected
    have hle := of_decide_eq_false hrejected
    rwa [show ((s.map ι).assess (s.propose.map ι) e).ratio = _ from
      congrArg Reductions.ratio hreductions,
      show (acceptRatio : β) = ι acceptRatio from (h.scientific ..).symm, Reductions.map,
      h.le_iff] at hle
  have hpredicted : 0 < predicted := lt_of_le_of_ne (hs.predicted_nonneg actual) fun h0 =>
    hne (hs.point_eq_of_predicted h0.symm)
  have hquotient : (s.reductionsFrom s.propose actual).ratio = actual / predicted :=
    if_neg fun h0 => hpredicted.ne' ((Exact.beq_zero_iff _).mp h0)
  have hactual : actual < 1.0e-4 := by
    rw [hquotient, not_le, acceptRatio, div_lt_iff₀ hpredicted] at hratio
    refine hratio.trans_le (mul_le_of_le_one_right (by norm_num) (hs.predicted_le hq actual))
  by_cases hlt : 0.1 * x < c
  · have hsquare : actual * c ^ 2 = c ^ 2 - x ^ 2 := by
      simp only [actual, if_pos hlt]
      field_simp
    have hc2 : 0 < c ^ 2 := pow_pos hpos 2
    linarith [mul_lt_mul_of_pos_right hactual hc2]
  · have hten : 10 * c ≤ x := by
      norm_num at hlt
      linarith
    nlinarith

end Rejected

/-! ## Courses -/

section Courses

variable {α : Type} [Scalar α]

/-- A run stands at an evaluation at which it began or that it accepted. -/
theorem standpoint_mem (e : Evaluation α m n) (ts : List (Trial α m n)) :
    standpoint e ts ∈ e :: ts.filterMap Trial.accepted? := by
  unfold standpoint
  cases hlast : (ts.filterMap Trial.accepted?).getLast? with
  | none => exact List.mem_cons_self
  | some e' => exact List.mem_cons_of_mem e (List.mem_of_getLast? hlast)

/-- A trial of a course stands at one of its standpoints. -/
theorem Course.Chained.base_mem {P : Problem σ α m n} {w : σ} {c : Course σ α m n}
    (h : c.Chained P w) {t : Trial α m n} (ht : t ∈ c.trials) :
    t.search.base ∈ c.standpoints ∧ t.search.standing = .ofEvaluation t.search.base := by
  cases hstart : c.start.found? with
  | none => exact absurd ((h.unbegun hstart).1 ▸ ht) List.not_mem_nil
  | some e₀ =>
    obtain ⟨w₁, -, hrun⟩ := h.begun e₀ hstart
    obtain ⟨ts, rest, heq⟩ := List.append_of_mem ht
    have hstands := hrun.stands ts t rest heq
    refine ⟨?_, hstands.base_eq ▸ hstands.standing_eq⟩
    have hstandpoints : c.standpoints = e₀ :: c.trials.filterMap Trial.accepted? :=
      congrArg (fun found : Option (Evaluation α m n) => found.toList ++ c.accepted) hstart
    rw [hstands.base_eq, hstandpoints, heq, List.filterMap_append]
    exact List.cons_subset_cons e₀ (List.subset_append_left _ _) (standpoint_mem e₀ ts)

/-- The standpoints of a course are evaluations that it makes. -/
theorem Course.standpoints_subset (c : Course σ α m n) : c.standpoints ⊆ c.found := by
  intro e he
  rcases List.mem_append.mp he with he | he
  · exact List.mem_append_left _ he
  · obtain ⟨t, ht, hacc⟩ := List.mem_filterMap.mp he
    obtain ⟨a, v, hp, -, rfl⟩ := Trial.made_of_accepted? hacc
    exact Course.mem_found ht hp

end Courses

/-- **What a course returns**, beside what it found: one of the evaluations that it made, not above
any at which it stood. A trial that it rejected at another point may have cost less, but only
within what the accepting ratio allows. -/
structure Course.Returns (o : Options Extended) (c : Course σ Extended m n)
    (e : Evaluation Extended m n) : Prop where
  found : e ∈ c.found
  finite : isFinite e.cost = true
  le_standpoints : ∀ e' ∈ c.standpoints, e.cost ≤ e'.cost
  /-- Where the run stands and its options are real; what it rejected may have been anything. -/
  rejected : ∀ o' : Options ℝ, o = o'.map .finite →
    (∀ e' ∈ c.standpoints, e'.IsReal Extended.finite) →
    ∀ t ∈ c.trials, ∀ a v, t.progress = .made a v → a.isAccepted = false →
      t.proposal.point ≠ t.search.base.point →
      ∀ x y : ℝ, e.cost = .finite x → a.evaluation.cost = .finite y →
        (1 - 1.0e-4) * x ^ 2 < y ^ 2

/-- The last of evaluations whose costs decrease has the least one. -/
theorem cost_le_of_getLast? {l : List (Evaluation Extended m n)}
    (h : l.Pairwise fun e e' => e'.cost < e.cost) {e : Evaluation Extended m n}
    (he : l.getLast? = some e) (hf : isFinite e.cost = true) : ∀ e' ∈ l, e.cost ≤ e'.cost := by
  obtain ⟨init, rfl⟩ := List.getLast?_eq_some_iff.mp he
  intro e' he'
  rcases List.mem_append.mp he' with hinit | hlast
  · exact Extended.le_of_lt
      ((List.pairwise_append.mp h).2.2 e' hinit e (List.mem_singleton_self e))
  · obtain rfl := List.mem_singleton.mp hlast
    obtain ⟨x, hx⟩ := exists_of_isFinite hf
    rw [hx]
    exact le_refl x

/-- **Every course** with options that are accepted returns such an evaluation, if any. -/
theorem Courses.returns {given : Options (Setting Extended)} {o : Options (Number Extended)}
    (hc : Options.check given = .ok o) {P : Problem σ Extended m n} {w : σ}
    {c : Course σ Extended m n} (h : Courses o P w c) {opt : Optimum Extended m n}
    (hopt : c.result = .ok opt) : c.Returns o.values opt.evaluation := by
  have hι := Extended.extends_finite
  have ho : o.values.initialStepFactor.NotNegative :=
    Extended.signRule.value (Options.of_check_eq_ok hc).1
  have hdescends := h.descends ho
  obtain ⟨hlast, hfinite, -⟩ := hdescends.result opt hopt
  have hle := cost_le_of_getLast? hdescends.decreasing hlast hfinite
  refine ⟨Course.standpoints_subset c (List.mem_of_getLast? hlast), hfinite, hle, ?_⟩
  intro o' hvalues hreal t ht a v hp ha hne x y hx hy
  have hbounds := bounds_of_check hι hc hvalues
  obtain ⟨ss, hss, hall⟩ := h.safe hι hbounds hvalues hreal
  obtain ⟨s, hs, hsafe⟩ := hss.exists_search ht
  obtain ⟨hbase, hstands⟩ := (h.chained fun _ => Extended.not_lt_of_le).base_mem ht
  obtain ⟨e₀, bs, -, -, hat⟩ := h.reached ht
  obtain ⟨e, w₁, w₂, -, rfl⟩ := hat.made a v hp
  obtain ⟨hcost, hq⟩ := hsafe.projected_sq hι hbounds (hvalues ▸ hat.reached) hstands
  have hx0 : 0 ≤ x := Extended.notNegative_finite.mp (hx ▸ cost_notNegative _)
  have hxs : x ≤ s.standing.cost := by
    have hxb := hle _ hbase
    rw [hx, hsafe.search_eq] at hxb
    rw [hcost, ← hι.le_iff, ← cost_map hι]
    exact hxb
  rw [hat.proposal_eq, hsafe.search_eq] at ha
  have hpoint : s.propose.point ≠ s.standing.point := fun heq => hne <| by
    rw [hsafe.proposal_eq]
    refine (congrArg (Vec.map Extended.finite) heq).trans ?_
    have hsearch := congrArg Standing.point (hsafe.search_eq ▸ hstands)
    rw [hsafe.search_eq]
    exact hsearch
  have hlt := (hall s hs).sq_lt_of_rejected hι hq (hx0.trans hxs) hpoint hy ha
  nlinarith [mul_self_le_mul_self hx0 hxs]

end LevenbergMarquardt

/-! ## The Gauss-Newton method -/

/-- **The last evaluation is returned**, whatever it costs: the checker is asked about nothing but
the last two. -/
theorem GaussNewton.Run.Chained.getLast?_found {α : Type} [Spectral α] {method : Option Method}
    {P : Problem σ α m n} {done : Nat} {previous : Option (Evaluation α m n)} {w : σ}
    {r : GaussNewton.Run σ α m n} (h : r.Chained method P done previous w)
    {opt : Optimum α m n} (hopt : r.result = .ok opt) :
    r.found.getLast? = some opt.evaluation := by
  obtain ⟨v, hv, hp⟩ := h.result opt hopt
  obtain ⟨vs, rest, heq⟩ := List.append_of_mem hv
  obtain ⟨rfl, -⟩ := h.stops vs v rest opt.evaluation heq hp
  unfold GaussNewton.Run.found
  rw [heq, List.filterMap_append, List.filterMap_cons_some (by rw [hp]; rfl), List.filterMap_nil,
    List.getLast?_concat]

/-- A checker that agrees at the second evaluation stops the run there. -/
theorem GaussNewton.optimize_of_agreed {α : Type} [Spectral α] {method : Option Method}
    {c : Checker σ α} {P : Problem σ α m n} {w w₁ w₂ w₃ : σ} {e e' : Evaluation α m n}
    {step : Vec α n} (hc : P.checker = some c) (hE : 2 ≤ P.maxEvaluations)
    (hI : 2 ≤ P.maxIterations) (he : (P.evaluation P.start).after w = (.ok e, w₁))
    (hs : Method.solveBy method e.jacobian e.residuals = .ok step)
    (he' : (P.evaluation (Vec.ofFn fun i => e.point i + step i)).after w₁ = (.ok e', w₂))
    (hv : (GaussNewton.consult c 2 (some e) e').after w₂ = (.ok (some true), w₃)) :
    (GaussNewton.optimize method P w).result = .ok ⟨e', 2, 2⟩ ∧
      (GaussNewton.optimize method P w).found = [e, e'] := by
  obtain ⟨E, hE'⟩ : ∃ E, P.maxEvaluations.toNat = E + 2 := ⟨P.maxEvaluations.toNat - 2, by omega⟩
  obtain ⟨I, hI'⟩ : ∃ I, P.maxIterations.toNat = I + 2 := ⟨P.maxIterations.toNat - 2, by omega⟩
  have hfirst : (GaussNewton.consult c 1 none e).after w₁ = (.ok none, w₁) := rfl
  have hrun : GaussNewton.Runs method c P P.maxIterations.toNat P.maxEvaluations.toNat 0 none
      P.start w (((GaussNewton.Run.ending (.ok ⟨e', 2, 2⟩) w₃).after
        ⟨2, some e, .made e' (some true)⟩).after ⟨1, none, .made e none⟩) := by
    rw [hE', hI']
    exact .stepped he hfirst (by simp) hs (.stopped he' hv)
  rw [← hrun.eq_optimize hc (by omega) (by omega)]
  exact ⟨rfl, rfl⟩

/-! ## Both optimizers -/

/-- **Headline.** With options that are accepted, the trust-region method returns an evaluation with
a finite cost that is not above those of the evaluations at which it stood, and not far above those
of the trials that it rejected; the Gauss-Newton method returns the last evaluation that it made. -/
theorem optimizers_return [Extended.Factorizations]
    {given : LevenbergMarquardt.Options (Setting Extended)}
    {o : LevenbergMarquardt.Options (Number Extended)}
    (hc : LevenbergMarquardt.Options.check given = .ok o) (method : Option Method)
    (P : Problem σ Extended m n) (w : σ) :
    (∀ opt, (LevenbergMarquardt.optimize o P w).result = .ok opt →
      (LevenbergMarquardt.optimize o P w).Returns o.values opt.evaluation) ∧
    ∀ opt, (GaussNewton.optimize method P w).result = .ok opt →
      (GaussNewton.optimize method P w).found.getLast? = some opt.evaluation :=
  ⟨fun _ => (LevenbergMarquardt.courses_optimize o P w).returns hc,
    fun _ => (GaussNewton.optimize_chained method P w).getLast?_found⟩

namespace LevenbergMarquardt

open Decomposition

/-! ### A cliff

The line, up to the solution, and a step down from there on. The first trial leads to the solution
and is rejected; the second one has a shorter radius, remains on the line and is accepted. The run
stops there, as its options allow for a wide radius. -/

section Cliff

variable {α : Type} [Scalar α]

/-- The line, up to its observation, and `-1` from there on. -/
def cliffProblem (α : Type) [Scalar α] : Problem Unit α 1 1 :=
  { lineProblem α with
    model := functionModel (fun p => p.map fun x => if x < 1 then x else -1)
      fun _ => Mat.ofFn fun _ _ => 1
    maxEvaluations := 3 }

/-- Options that stop at a radius within twice the length of the point. -/
def wideOptions (α : Type) : Options (Number α) :=
  { exactOptions α with parameterTolerance := .int 2 }

/-- The cliff at a point. -/
def cliffAt (p : Vec α 1) : Evaluation α 1 1 :=
  ⟨p, Vec.ofFn fun i => 1 - (if p i < 1 then p i else -1), Mat.ofFn fun _ _ => 1⟩

theorem cliff_evaluation (p : Vec α 1) :
    ((cliffProblem α).evaluation p).after () = (.ok (cliffAt p), ()) := by
  have hresiduals : (cliffProblem α).residuals (p.map fun x => if x < 1 then x else -1) =
      (cliffAt p).residuals := by
    refine Vec.ext fun i => ?_
    simp [Problem.residuals, cliffProblem, lineProblem, cliffAt, Vec.replicate_apply, Vec.map_apply]
  rw [functionModel_evaluation rfl Nat.one_pos rfl, hresiduals]
  rfl

variable {ι : ℝ → α} (h : Extends ι)

include h

theorem map_cliffAt (p : Vec ℝ 1) : cliffAt (p.map ι) = (cliffAt p).map ι := by
  unfold cliffAt Evaluation.map
  simp only [Vec.map_ofFn, Mat.map_ofFn, Vec.map_apply, ← h.one, ← h.neg, h.lt_iff, h.sub,
    apply_ite ι]

theorem map_cliff_start : (cliffProblem α).start = (cliffProblem ℝ).start.map ι := by
  unfold cliffProblem lineProblem
  simp only [Vec.map_replicate, h.zero]

theorem wide_values : (wideOptions α).values = (wideOptions ℝ).values.map ι := by
  unfold Options.values Options.map wideOptions exactOptions Number.value
  simp only [map_ofInt h]

end Cliff

/-- Before the solution it is the line. -/
theorem cliffAt_of_lt {p : Vec ℝ 1} (hp : p 0 < 1) :
    cliffAt p = (cliffProblem ℝ).affineAt (single 1) (Vec.replicate 1 0) p := by
  have hresiduals : (cliffAt p).residuals =
      ((cliffProblem ℝ).affineAt (single 1) (Vec.replicate 1 0) p).residuals := by
    refine Vec.ext fun i => ?_
    rw [Subsingleton.elim i 0]
    simp [cliffAt, hp, Problem.affineAt, Problem.residuals, cliffProblem, lineProblem, Mat.affine,
      Mat.mulVec_apply, Exact.sum_eq, Vec.replicate_apply, single]
  exact (Evaluation.mk.injEq ..).mpr ⟨rfl, hresiduals, rfl⟩

theorem cost_cliffAt {p : Vec ℝ 1} (hp : p 0 = 1) : (cliffAt p).cost = 2 := by
  have hresidual : (cliffAt p).residuals 0 = 2 := by
    rw [cliffAt, Vec.ofFn_apply, hp, if_neg (lt_irrefl 1)]
    norm_num
  rw [cost_single hresidual]
  norm_num

theorem cliff_start_apply : (cliffProblem ℝ).start 0 = 0 := Vec.replicate_apply 0 0

theorem wide_regular : (wideOptions ℝ).values.Regular where
  threshold_eq := Nat.cast_zero
  factor_pos := Nat.cast_pos.mpr (Nat.succ_pos 99)
  parameter_nonneg := Nat.cast_nonneg 2
  orthogonality_nonneg := Nat.cast_nonneg 0

theorem exists_cliff_first : ∃ s,
    Search.start (wideOptions ℝ).values (.ofEvaluation (cliffAt (cliffProblem ℝ).start))
        Region.initial = .ok s ∧
      ¬ s.maxCosine ≤ (wideOptions ℝ).values.orthogonalityTolerance ∧
      s.IsFirst (cliffProblem ℝ) (Vec.replicate 1 0) := by
  have hfactor : (wideOptions ℝ).values.initialStepFactor = 100 := Number.value_int 100
  have htolerance : (wideOptions ℝ).values.orthogonalityTolerance = 0 := Nat.cast_zero
  have hlt : (cliffProblem ℝ).start 0 < 1 := by
    rw [cliff_start_apply]
    exact one_pos
  have hresidual : (cliffAt (cliffProblem ℝ).start).residuals 0 = 1 := by
    rw [cliffAt, Vec.ofFn_apply, if_pos hlt, cliff_start_apply, sub_zero]
  rw [cliffAt_of_lt hlt] at hresidual ⊢
  exact exists_isFirst rfl (.inl cliff_start_apply) hresidual wide_regular hfactor
    (htolerance.trans_lt one_pos)

/-- A first trial that doubles the cost from `0` on is rejected, and a retry follows, with a fifth
of the radius. -/
theorem Search.IsFirst.retries {P : Problem σ ℝ 1 1} {b : Vec ℝ 1} {s : Search ℝ 1 1}
    (h : s.IsFirst P b) (hstart : P.start 0 = 0) {e : Evaluation ℝ 1 1} (he : e.cost = 2)
    {o : Options ℝ} (ho : o.costTolerance < 1) (v : Option Bool) :
    (s.assess s.propose e).isAccepted = false ∧
      (s.regionAfter s.propose (s.assess s.propose e)).radius = 1 / 5 ∧
      s.outcome o e v = .retry (s.retryAfter s.propose (s.assess s.propose e)) := by
  have hassess := h.assess_eq (e := e) (by rw [he]; norm_num)
  rw [he] at hassess
  obtain ⟨hrejected, hregion⟩ := h.regionAfter_rejected (e := e) (by rw [he]; norm_num)
    (by rw [he, acceptRatio]; norm_num)
  have hfactor : (s.assess s.propose e).shrinkFactor 1 = 1 / 5 := by
    rw [hassess]
    unfold Assessment.shrinkFactor
    norm_num
  rw [hfactor] at hregion
  have hremains (bound : ℝ) : ¬ (s.regionAfter s.propose (s.assess s.propose e)).radius ≤
      bound * (s.regionAfter s.propose (s.assess s.propose e)).length := by
    rw [hregion]
    change ¬ (1 / 5 : ℝ) ≤ bound * s.region.length
    rw [h.length_region, hstart]
    norm_num
  have hmatters {bound : ℝ} (hb : bound < 1) :
      Search.reductionsWithin (s.assess s.propose e) bound = false := by
    have hnot : ¬ Scalar.abs ((1 : ℝ) - 2 ^ 2) ≤ bound := by
      change ¬ |(1 : ℝ) - 2 ^ 2| ≤ bound
      norm_num [abs_of_neg]
      linarith
    rw [hassess, Search.reductionsWithin, decide_eq_false hnot, Bool.false_and, Bool.false_and]
  have hepsilon : (twoEpsilon : ℝ) < 1 := by
    rw [twoEpsilon_eq]
    norm_num
  have hlt : (s.assess s.propose e).ratio < acceptRatio := by
    rw [hassess, acceptRatio]
    norm_num
  exact ⟨hrejected, congrArg Region.radius hregion,
    Search.outcome_eq_retry hrejected hlt (hmatters ho) (hmatters hepsilon) (hremains _)
      (hremains _) (not_le.mpr (hepsilon.trans_le h.one_le_maxCosine))⟩

/-- **The first trial** leads beyond the cliff. -/
theorem exists_cliff_retry {s : Search ℝ 1 1}
    (h : s.IsFirst (cliffProblem ℝ) (Vec.replicate 1 0)) :
    (s.assess s.propose (cliffAt s.propose.point)).isAccepted = false ∧
      ∃ s', s.outcome (wideOptions ℝ).values (cliffAt s.propose.point) none = .retry s' ∧
        s'.base = s.base ∧ s'.standing.point 0 = 0 ∧ s'.region.radius = 1 / 5 := by
  have hcost : (cliffAt s.propose.point).cost = 2 := cost_cliffAt <| by
    rw [h.point_eq_add, cliff_start_apply, zero_add]
  have htolerance : (wideOptions ℝ).values.costTolerance = 0 := Nat.cast_zero
  obtain ⟨hrejected, hradius, hretry⟩ := h.retries cliff_start_apply hcost
    (htolerance.trans_lt one_pos) none
  refine ⟨hrejected, _, hretry, rfl, ?_, hradius⟩
  change (s.standingAfter (s.assess s.propose (cliffAt s.propose.point))).point 0 = 0
  rw [Search.standingAfter, hrejected, h.standing_eq]
  exact cliff_start_apply

/-- **The second trial** is damped, so it remains on the line. The run stops there. -/
theorem cliff_stop {s : Search ℝ 1 1} (h : s.OnLine (cliffProblem ℝ) (Vec.replicate 1 0))
    (hresidual : s.base.residuals 0 = 1) (hpoint : s.standing.point 0 = 0)
    (hradius : s.region.radius = 1 / 5) :
    (s.assess s.propose (cliffAt s.propose.point)).isAccepted = true ∧
      s.outcome (wideOptions ℝ).values (cliffAt s.propose.point) none =
        .stop (cliffAt s.propose.point) := by
  have hlambda : 0 < s.propose.lambda := h.lambda_pos <| by
    rw [hradius, hresidual]
    norm_num
  have hstep := h.step_eq
  rw [hresidual] at hstep
  have hproposed : s.propose.point 0 = s.propose.step 0 := by
    rw [Search.OnLine.point_eq, hpoint, zero_add]
  have hlt : s.propose.point 0 < 1 := by
    rw [hproposed]
    nlinarith
  obtain ⟨haccepted, hleft, hlength⟩ := h.regionAfter_affine
  rw [← cliffAt_of_lt hlt] at haccepted hleft hlength
  refine ⟨haccepted, ?_⟩
  rw [Search.outcome_eq_stop, Search.standingAfter, haccepted]
  · rfl
  · unfold Search.RadiusRemains
    rw [hleft, hlength, hproposed, not_not,
      show (wideOptions ℝ).values.parameterTolerance = 2 from Number.value_int 2]

/-- **The run in exact arithmetic**: two searches, and what follows their trials. -/
structure CliffRun (s s' : Search ℝ 1 1) : Prop where
  start_eq : Search.start (wideOptions ℝ).values (.ofEvaluation (cliffAt (cliffProblem ℝ).start))
    Region.initial = .ok s
  beyond : ¬ s.maxCosine ≤ (wideOptions ℝ).values.orthogonalityTolerance
  first_safe : s.Safe
  rejected : (s.assess s.propose (cliffAt s.propose.point)).isAccepted = false
  retry : s.outcome (wideOptions ℝ).values (cliffAt s.propose.point) none = .retry s'
  second_safe : s'.Safe
  accepted : (s'.assess s'.propose (cliffAt s'.propose.point)).isAccepted = true
  stop : s'.outcome (wideOptions ℝ).values (cliffAt s'.propose.point) none =
    .stop (cliffAt s'.propose.point)

theorem exists_cliffRun : ∃ s s', CliffRun s s' := by
  obtain ⟨s, hs, hcosine, hfirst⟩ := exists_cliff_first
  obtain ⟨hrejected, s', hretry, hbase, hpoint, hradius⟩ := exists_cliff_retry hfirst
  have hline : s'.OnLine (cliffProblem ℝ) (Vec.replicate 1 0) :=
    hfirst.retry hretry (Reached.poised wide_regular (.retried (.first hs) hretry))
  obtain ⟨haccepted, hstop⟩ := cliff_stop hline (hbase ▸ hfirst.residual_eq) hpoint hradius
  exact ⟨s, s', hs, hcosine, hfirst.safe, hrejected, hretry,
    hfirst.safe.retried wide_regular.parameter_nonneg hretry, haccepted, hstop⟩

section Image

variable {s s' : Search ℝ 1 1}

/-- The trial of a search, with infinities. -/
noncomputable def cliffTrial (s : Search ℝ 1 1) : Trial Extended 1 1 :=
  (s.map Extended.finite).trial 1 ((cliffAt s.propose.point).map Extended.finite) none

theorem cliff_evaluation_finite (p : Vec ℝ 1) :
    ((cliffProblem Extended).evaluation (p.map Extended.finite)).after () =
      (.ok ((cliffAt p).map Extended.finite), ()) :=
  map_cliffAt Extended.extends_finite p ▸ cliff_evaluation _

theorem cliff_judges (hs : s.Safe) : Judges (cliffProblem Extended) 1 (s.map Extended.finite) ()
    ((cliffAt s.propose.point).map Extended.finite) none () := by
  refine (judges_iff_of_checker rfl).mpr ⟨?_, rfl⟩
  rw [hs.propose_map Extended.extends_finite]
  exact cliff_evaluation_finite _

/-- **The run with infinities** is its image. -/
theorem CliffRun.courses (h : CliffRun s s') :
    Courses (wideOptions Extended) (cliffProblem Extended) ()
      ⟨(((Run.ending (.ok ⟨(cliffAt s'.propose.point).map Extended.finite, 3, 1⟩) ()).after
          (cliffTrial s')).after (cliffTrial s)).begunAt
            ((cliffAt (cliffProblem ℝ).start).map Extended.finite),
        .made ((cliffAt (cliffProblem ℝ).start).map Extended.finite) none⟩ := by
  have hι := Extended.extends_finite
  have hvalues := wide_values hι
  have hstart := start_map_of_ok hι wide_regular.threshold_eq.ge h.start_eq
  have hfinite : isFinite ((cliffAt (cliffProblem ℝ).start).map Extended.finite).cost = true := by
    rw [cost_map hι]
    exact hι.finite _
  have hbeyond : ¬ (s.map Extended.finite).maxCosine ≤
      (wideOptions Extended).values.orthogonalityTolerance := by
    rw [hvalues]
    exact fun hle => h.beyond ((hι.le_iff _ _).mp hle)
  have hretry := (h.retry ▸ h.first_safe.outcome_map hι (wideOptions ℝ).values
    (cliffAt s.propose.point) none).eq_retry
  have hstop := (h.stop ▸ h.second_safe.outcome_map hι (wideOptions ℝ).values
    (cliffAt s'.propose.point) none).eq_stop
  rw [← hvalues] at hstart hretry hstop
  rw [← map_initial hι] at hstart
  exact .begun (show (cliffProblem Extended).maxEvaluations = (2 : Nat) + 1 from rfl) le_rfl
    (map_cliff_start hι ▸ cliff_evaluation_finite (cliffProblem ℝ).start) hfinite hstart hbeyond
    (.retried (cliff_judges h.first_safe) hretry (.stopped (cliff_judges h.second_safe) hstop))

end Image

/-- **A rejected trial and an accepted one**, at which the run stops. -/
theorem cliff_optimize :
    let c := optimize (wideOptions Extended) (cliffProblem Extended) ()
    (∃ e, c.result = .ok ⟨e, 3, 1⟩) ∧ (∀ e ∈ c.standpoints, e.IsReal Extended.finite) ∧
      (∃ t ∈ c.trials, ∃ a v, t.progress = .made a v ∧ a.isAccepted = false) ∧
      ∃ t ∈ c.trials, ∃ a v, t.progress = .made a v ∧ a.isAccepted = true := by
  intro c
  have hι := Extended.extends_finite
  obtain ⟨s, s', h⟩ := exists_cliffRun
  rw [show c = _ from (h.courses.eq_optimize (by decide) (by decide)).symm]
  refine ⟨⟨_, rfl⟩, fun e he => ?_, ⟨_, List.mem_cons_self, _, _, rfl, ?_⟩,
    ⟨_, List.mem_cons_of_mem _ List.mem_cons_self, _, _, rfl, ?_⟩⟩
  · rcases List.mem_cons.mp he with rfl | he
    · exact ⟨_, rfl⟩
    obtain ⟨t, ht, hacc⟩ := List.mem_filterMap.mp he
    obtain ⟨a, v, hp, -, rfl⟩ := Trial.made_of_accepted? hacc
    rcases List.mem_cons.mp ht with rfl | ht
    · cases hp
      exact ⟨_, rfl⟩
    · obtain rfl := List.mem_singleton.mp ht
      cases hp
      exact ⟨_, rfl⟩
  · rw [h.first_safe.assess_map hι, Assessment.isAccepted_map hι]
    exact h.rejected
  · rw [h.second_safe.assess_map hι, Assessment.isAccepted_map hι]
    exact h.accepted

end LevenbergMarquardt

/-- The cliff with a checker that stops at the second evaluation. -/
noncomputable def checkedCliff : Problem Unit Extended 1 1 :=
  { LevenbergMarquardt.cliffProblem Extended with
    checker := some (.entries .point (.int 0) (.int 1) (.int 2))
    maxIterations := 2 }

/-- **The Gauss-Newton method** takes one step there, and the checker stops it. -/
theorem checkedCliff_optimize [Extended.Factorizations] :
    ∃ e, (GaussNewton.optimize (some .lu) checkedCliff ()).result = .ok ⟨e, 2, 2⟩ := by
  have hevaluation (p : Vec Extended 1) : (checkedCliff.evaluation p).after () =
      (.ok (LevenbergMarquardt.cliffAt p), ()) := LevenbergMarquardt.cliff_evaluation p
  have hpivot : ¬ Scalar.abs
      ((LevenbergMarquardt.cliffAt checkedCliff.start).jacobian.gram 0 0) < Method.negligible := by
    change ¬ |(0 : ℝ) + 1 * 1| < 1e-11
    norm_num
  have hrhs : isFinite ((LevenbergMarquardt.cliffAt checkedCliff.start).jacobian.transposeMulVec
      (LevenbergMarquardt.cliffAt checkedCliff.start).residuals 0) = true := by
    rw [show checkedCliff.start = _ from LevenbergMarquardt.map_cliff_start Extended.extends_finite,
      LevenbergMarquardt.map_cliffAt Extended.extends_finite]
    rfl
  obtain ⟨step, hsolve⟩ := Method.exists_step_lu rfl hpivot hrhs
  have hagreed (p : Vec Extended 1) : (GaussNewton.consult (.entries .point (.int 0) (.int 1)
    (.int 2)) 2 (some (LevenbergMarquardt.cliffAt checkedCliff.start))
      (LevenbergMarquardt.cliffAt p)).after () = (.ok (some true), ()) := rfl
  exact ⟨_, (GaussNewton.optimize_of_agreed rfl (by decide) (by decide) (hevaluation _) hsolve
    (hevaluation _) (hagreed _)).1⟩

theorem optimizers_return_cliff :
    let _ := Extended.factorizations
    let c := LevenbergMarquardt.optimize (LevenbergMarquardt.wideOptions Extended)
      (LevenbergMarquardt.cliffProblem Extended) ()
    let r := GaussNewton.optimize (some .lu) checkedCliff ()
    LevenbergMarquardt.Options.check
        ((LevenbergMarquardt.wideOptions Extended).map Setting.number) =
          .ok (LevenbergMarquardt.wideOptions Extended) ∧
      (LevenbergMarquardt.wideOptions Extended).values =
        (LevenbergMarquardt.wideOptions ℝ).values.map Extended.finite ∧
      (∀ e ∈ c.standpoints, e.IsReal Extended.finite) ∧
      (∃ t ∈ c.trials, ∃ a v, t.progress = .made a v ∧ a.isAccepted = false) ∧
      (∃ t ∈ c.trials, ∃ a v, t.progress = .made a v ∧ a.isAccepted = true) ∧
      (∃ opt, c.result = .ok opt ∧
        c.Returns (LevenbergMarquardt.wideOptions Extended).values opt.evaluation) ∧
      ∃ opt, r.result = .ok opt ∧ r.found.getLast? = some opt.evaluation := by
  intro _ c r
  have hc : LevenbergMarquardt.Options.check
      ((LevenbergMarquardt.wideOptions Extended).map Setting.number) =
        .ok (LevenbergMarquardt.wideOptions Extended) := rfl
  obtain ⟨⟨e, hLM⟩, hreal, hrejected, haccepted⟩ := LevenbergMarquardt.cliff_optimize
  obtain ⟨e', hGN⟩ := checkedCliff_optimize
  exact ⟨hc, LevenbergMarquardt.wide_values Extended.extends_finite, hreal, hrejected, haccepted,
    ⟨_, hLM, (optimizers_return hc none _ ()).1 _ hLM⟩,
    _, hGN, (optimizers_return hc (some .lu) checkedCliff ()).2 _ hGN⟩

/-! ## Less costly evaluations that are not returned

A parabola above zero, where a full step leads to a higher point and the checker stops, and a model
with a step that is so small that the trial is rejected. -/

/-- An optimizer that returns the least of all evaluations that it makes. -/
def Optimizer.ReturnsLeast {α : Type} [Spectral α] (opt : Optimizer α) (P : Problem σ α m n)
    (w : σ) : Prop :=
  ∀ found, (opt.optimize P w).result = .ok found →
    ∀ e ∈ opt.found P w, found.evaluation.cost ≤ e.cost

/-! ### The parabola -/

/-- The model `p ↦ p² + 1` with the observation `0`, and a checker that stops at the second
evaluation. -/
noncomputable def bowlProblem : Problem Unit ℝ 1 1 where
  model := functionModel (fun p => Vec.replicate 1 (p 0 * p 0 + 1)) fun p => single (p 0 + p 0)
  target := Vec.replicate 1 0
  start := Vec.replicate 1 0.5
  weight := none
  checker := some (.entries .point (.int 0) (.int 1) (.int 2))
  maxEvaluations := 2
  maxIterations := 2
  deferred := false
  validator := none

/-- The parabola at a point. -/
noncomputable abbrev bowlAt (p : Vec ℝ 1) : Evaluation ℝ 1 1 :=
  ⟨p, bowlProblem.residuals (Vec.replicate 1 (p 0 * p 0 + 1)),
    bowlProblem.jacobian (single (p 0 + p 0))⟩

theorem bowl_evaluation (p : Vec ℝ 1) :
    (bowlProblem.evaluation p).after () = (.ok (bowlAt p), ()) :=
  functionModel_evaluation (P := bowlProblem) rfl one_pos rfl p

theorem bowlAt_residuals (p : Vec ℝ 1) : (bowlAt p).residuals 0 = -(p 0 * p 0 + 1) := by
  simp [Problem.residuals, bowlProblem, Vec.replicate_apply]

theorem bowl_start : bowlProblem.start 0 = 1 / 2 := (Vec.replicate_apply _ 0).trans (by norm_num)

/-- The full step from the start point, beyond the bottom of the parabola. -/
theorem exists_bowl_step [Exact.Factorizations] : ∃ x,
    Method.solveBy (some .lu) (bowlAt bowlProblem.start).jacobian
      (bowlAt bowlProblem.start).residuals = .ok x ∧ x 0 = -5 / 4 := by
  have hjacobian : (bowlAt bowlProblem.start).jacobian = single 1 := by
    change single (bowlProblem.start 0 + bowlProblem.start 0) = _
    rw [bowl_start]
    norm_num
  have haccepts : Method.lu.Accepts (bowlAt bowlProblem.start).jacobian := by
    intro i
    rw [LowerUpper.diagonal_single, Mat.gram_apply, Exact.sum_eq, Fin.sum_univ_one, hjacobian,
      single, Mat.ofFn_apply, Method.negligible]
    norm_num
  obtain ⟨x, hsolve, hx⟩ := Method.exists_solve haccepts (fun h => by cases h)
    (bowlAt bowlProblem.start).residuals
  refine ⟨x, hsolve, ?_⟩
  have hnormal := congrFun hx 0
  rw [hjacobian] at hnormal
  simp [Matrix.mulVec, dotProduct, Mat.toMatrix, single] at hnormal
  rw [hnormal, bowlAt_residuals, bowl_start]
  norm_num

theorem bowlProblem_not_returnsLeast :
    let _ := Exact.factorizations
    ¬ (Optimizer.gaussNewton (some .lu) : Optimizer ℝ).ReturnsLeast bowlProblem () := by
  intro _ hleast
  obtain ⟨x, hsolve, hx⟩ := exists_bowl_step
  set p : Vec ℝ 1 := Vec.ofFn fun i => (bowlAt bowlProblem.start).point i + x i
  have hp : p 0 = -3 / 4 := by
    rw [Vec.ofFn_apply, hx, bowl_start]
    norm_num
  have hagreed : (GaussNewton.consult (.entries .point (.int 0) (.int 1) (.int 2)) 2
    (some (bowlAt bowlProblem.start)) (bowlAt p)).after () = (.ok (some true), ()) := rfl
  obtain ⟨hresult, hfound⟩ := GaussNewton.optimize_of_agreed (P := bowlProblem) rfl (by decide)
    (by decide) (bowl_evaluation _) hsolve (bowl_evaluation p) hagreed
  have hmem : bowlAt bowlProblem.start ∈ (GaussNewton.optimize (some .lu) bowlProblem ()).found := by
    rw [hfound]
    exact List.mem_cons_self
  have hle := hleast _ hresult _ hmem
  rw [cost_single (bowlAt_residuals _), cost_single (bowlAt_residuals _), hp, bowl_start] at hle
  norm_num [abs_of_neg] at hle

namespace LevenbergMarquardt

open Decomposition

/-! ### The step -/

/-- The model that is `1` up to `1.5` and a little more beyond, with the observation `2`. Its
Jacobian is that of a line. -/
noncomputable def jumpProblem : Problem Unit ℝ 1 1 where
  model := functionModel (fun p => Vec.replicate 1 (if p 0 ≤ 1.5 then 1 else 1.00001))
    fun _ => single 1
  target := Vec.replicate 1 (2 : Nat)
  start := Vec.replicate 1 1
  weight := none
  checker := none
  maxEvaluations := 2
  maxIterations := 1
  deferred := false
  validator := none

theorem jump_start_apply : jumpProblem.start 0 = 1 := Vec.replicate_apply 1 0

/-- Options that stop at a radius within the length of the point. -/
noncomputable def earlyOptions : Options (Number ℝ) :=
  { exactOptions ℝ with parameterTolerance := .int 1 }

/-- The line that touches it at its start point. -/
theorem jump_affineAt_residuals (p : Vec ℝ 1) :
    (jumpProblem.affineAt (single 1) (Vec.replicate 1 0) p).residuals 0 = 2 - p 0 := by
  simp [Problem.affineAt, Problem.residuals, jumpProblem, Mat.affine, Mat.mulVec_apply,
    Exact.sum_eq, Vec.replicate_apply, single]

theorem early_regular : earlyOptions.values.Regular where
  threshold_eq := Nat.cast_zero
  factor_pos := Nat.cast_pos.mpr (Nat.succ_pos 99)
  parameter_nonneg := Nat.cast_nonneg 1
  orthogonality_nonneg := Nat.cast_nonneg 0

theorem jump_evaluation (p : Vec ℝ 1) : ∃ e, (jumpProblem.evaluation p).after () = (.ok e, ()) ∧
    e.residuals 0 = 2 - (if p 0 ≤ 1.5 then 1 else 1.00001) := by
  refine ⟨_, functionModel_evaluation rfl one_pos rfl p, ?_⟩
  simp [Problem.residuals, jumpProblem, Vec.replicate_apply]

theorem jump_start : (jumpProblem.evaluation jumpProblem.start).after () =
    (.ok (jumpProblem.affineAt (single 1) (Vec.replicate 1 0) jumpProblem.start), ()) := by
  rw [functionModel_evaluation rfl one_pos rfl]
  have hresiduals : jumpProblem.residuals (Vec.replicate 1
      (if jumpProblem.start 0 ≤ 1.5 then 1 else 1.00001)) =
        (jumpProblem.affineAt (single 1) (Vec.replicate 1 0) jumpProblem.start).residuals := by
    refine Vec.ext fun i => ?_
    rw [Subsingleton.elim i 0, jump_affineAt_residuals]
    norm_num [Problem.residuals, jumpProblem, Vec.replicate_apply]
  rw [hresiduals]
  rfl

theorem exists_jump_first : ∃ s,
    Search.start earlyOptions.values
        (.ofEvaluation (jumpProblem.affineAt (single 1) (Vec.replicate 1 0) jumpProblem.start))
        Region.initial = .ok s ∧
      ¬ s.maxCosine ≤ earlyOptions.values.orthogonalityTolerance ∧
      s.IsFirst jumpProblem (Vec.replicate 1 0) := by
  have hfactor : earlyOptions.values.initialStepFactor = 100 := Number.value_int 100
  have htolerance : earlyOptions.values.orthogonalityTolerance = 0 := Nat.cast_zero
  have hresidual := jump_affineAt_residuals jumpProblem.start
  rw [jump_start_apply] at hresidual
  exact exists_isFirst rfl (.inr jump_start_apply) (hresidual.trans (by norm_num)) early_regular
    hfactor (htolerance.trans_lt one_pos)

/-- The trial gains a hundred thousandth of the cost, too little for what the line predicts, and
leaves a radius that is shorter than the point is long. **The run stops** where it started. -/
theorem jump_outcome {s : Search ℝ 1 1} (h : s.IsFirst jumpProblem (Vec.replicate 1 0))
    {e : Evaluation ℝ 1 1} (he : e.cost = 0.99999) : s.outcome earlyOptions.values e none =
      .stop (jumpProblem.affineAt (single 1) (Vec.replicate 1 0) jumpProblem.start) := by
  have hlt : e.cost < 10 := by
    rw [he]
    norm_num
  obtain ⟨hrejected, hregion⟩ := h.regionAfter_rejected hlt (by rw [he, acceptRatio]; norm_num)
  have hfactor : (s.assess s.propose e).shrinkFactor 1 = 1 / 2 := by
    rw [h.assess_eq hlt, he]
    unfold Assessment.shrinkFactor
    norm_num
  have hbase : s.base = jumpProblem.affineAt (single 1) (Vec.replicate 1 0) jumpProblem.start := by
    rw [h.affine.base_eq, h.standing_eq]
    rfl
  rw [Search.outcome_eq_stop, Search.standingAfter, hrejected]
  · exact congrArg Next.stop hbase
  · unfold Search.RadiusRemains
    rw [hregion, hfactor, not_not,
      show earlyOptions.values.parameterTolerance = 1 from (Number.value_int 1).trans Int.cast_one]
    change (1 / 2 : ℝ) ≤ 1 * s.region.length
    rw [h.length_region, jump_start_apply]
    norm_num

/-- **A rejected trial that costs less** than what is returned. -/
theorem jump_optimize : ∃ e : Evaluation ℝ 1 1,
    (optimize earlyOptions jumpProblem ()).result =
        .ok ⟨jumpProblem.affineAt (single 1) (Vec.replicate 1 0) jumpProblem.start, 2, 1⟩ ∧
      e ∈ (optimize earlyOptions jumpProblem ()).found ∧ e.cost = 0.99999 := by
  obtain ⟨s, hs, hcosine, hfirst⟩ := exists_jump_first
  obtain ⟨e, he, hresidual⟩ := jump_evaluation s.propose.point
  have hless : e.cost = 0.99999 := by
    rw [cost_single hresidual, hfirst.point_eq_add, jump_start_apply]
    norm_num
  have hjudged : Judges jumpProblem 1 s () e none () := (judges_iff_of_checker rfl).mpr ⟨he, rfl⟩
  have hcourse := Courses.begun (o := earlyOptions)
    (show jumpProblem.maxEvaluations = (1 : Nat) + 1 from rfl) le_rfl jump_start rfl hs hcosine
    (.stopped hjudged (jump_outcome hfirst hless))
  rw [← hcourse.eq_optimize (by decide) (by decide)]
  exact ⟨e, rfl, Course.mem_found (t := s.trial 1 e none) List.mem_cons_self rfl, hless⟩

end LevenbergMarquardt

/-- **Neither optimizer returns the least evaluation** that it made. -/
theorem Optimizer.not_returnsLeast :
    let _ := Exact.factorizations
    ¬ (levenbergMarquardt LevenbergMarquardt.earlyOptions : Optimizer ℝ).ReturnsLeast
        LevenbergMarquardt.jumpProblem () ∧
      ¬ (gaussNewton (some .lu) : Optimizer ℝ).ReturnsLeast bowlProblem () := by
  intro _
  refine ⟨fun hleast => ?_, bowlProblem_not_returnsLeast⟩
  obtain ⟨e, hresult, hfound, hcost⟩ := LevenbergMarquardt.jump_optimize
  have hle := hleast _ hresult e hfound
  rw [hcost, cost_single (LevenbergMarquardt.jump_affineAt_residuals _),
    LevenbergMarquardt.jump_start_apply] at hle
  norm_num at hle

end LeastSquares
