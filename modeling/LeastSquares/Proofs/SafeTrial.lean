import LeastSquares.Proofs.Divisors
import LeastSquares.Proofs.TrialStep

/-!
# Trials in other arithmetics

A search whose numbers are real, in an arithmetic that contains the real numbers. If it is `Safe`,
so that radius and scaling are positive and neither the cost nor the gradient is zero, it proposes
what it proposes in exact arithmetic. The evaluation of the trial may be anything: a tenth of its
cost is compared with a real number before anything is computed from it, so the numbers that the
trial is judged by are real, and so is the region that it leaves.

Results:
* `start_map`: how an outer iteration begins;
* `Search.Safe.propose_map`: the proposal of a trial;
* `Search.Safe.judged`: the numbers that a trial is judged by, and the factor that the region
  shrinks by;
* `Search.Safe.regionAfter`: the region after a trial;
* `Search.Safe.outcome_map`: what follows a trial with a real evaluation.
-/

namespace LeastSquares

open Decomposition

variable {m n : Nat}

section Maps

variable {α γ : Type} (f : α → γ)

/-- An evaluation with all of its numbers through a function. -/
def Evaluation.map (e : Evaluation α m n) : Evaluation γ m n :=
  ⟨e.point.map f, e.residuals.map f, e.jacobian.map f⟩

/-- An evaluation of real numbers. -/
def Evaluation.IsReal (ι : ℝ → γ) (e : Evaluation γ m n) : Prop :=
  ∃ e' : Evaluation ℝ m n, e = e'.map ι

namespace LevenbergMarquardt

/-- Where a run stands, with all numbers through a function. -/
def Standing.map (s : Standing α m n) : Standing γ m n :=
  ⟨s.evaluation.map f, f s.cost, s.point.map f⟩

/-- A region with all of its numbers through a function. -/
def Region.map (r : Region α n) : Region γ n :=
  ⟨f r.radius, f r.lambda, r.scaling.map f, f r.length, r.fresh⟩

/-- A search with all of its numbers through a function. -/
def Search.map (s : Search α m n) : Search γ m n where
  base := s.base.map f
  standing := s.standing.map f
  region := s.region.map f
  decomposition := s.decomposition.map f
  projected := s.projected.map f
  maxCosine := f s.maxCosine

/-- A proposal with all of its numbers through a function. -/
def Proposal.map (p : Proposal α m n) : Proposal γ m n where
  lambda := f p.lambda
  step := p.step.map f
  length := f p.length
  radius := f p.radius
  point := p.point.map f
  decomposition := p.decomposition.map f

/-- An assessment with all of its numbers through a function. -/
def Assessment.map (a : Assessment α m n) : Assessment γ m n where
  evaluation := a.evaluation.map f
  cost := f a.cost
  actual := f a.actual
  predicted := f a.predicted
  slope := f a.slope
  ratio := f a.ratio

/-- The numbers that a trial is judged by. -/
structure Reductions (α : Type) where
  actual : α
  predicted : α
  slope : α
  ratio : α

def Assessment.reductions (a : Assessment α m n) : Reductions α :=
  ⟨a.actual, a.predicted, a.slope, a.ratio⟩

def Reductions.map (x : Reductions α) : Reductions γ :=
  ⟨f x.actual, f x.predicted, f x.slope, f x.ratio⟩

end LevenbergMarquardt

end Maps

namespace LevenbergMarquardt

variable {β : Type} [Scalar β] {ι : ℝ → β} (h : Extends ι)

include h

theorem cost_map (e : Evaluation ℝ m n) : (e.map ι).cost = ι e.cost := h.norm_map e.residuals

/-! ## The beginning of an outer iteration -/

theorem lengthOf_map (scaling point : Vec ℝ n) :
    Region.lengthOf (scaling.map ι) (point.map ι) = ι (Region.lengthOf scaling point) := by
  unfold Region.lengthOf
  rw [h.map_scaled, h.norm_map]

theorem ofColumnNorms_map (factor : ℝ) (columnNorm point : Vec ℝ n) :
    Region.ofColumnNorms (ι factor) (columnNorm.map ι) (point.map ι) =
      (Region.ofColumnNorms factor columnNorm point).map ι := by
  have hscaling : (columnNorm.map ι).map (fun s => if s == 0 then 1 else s) =
      (columnNorm.map fun s => if s == 0 then 1 else s).map ι := by
    refine Vec.ext fun c => ?_
    simp only [Vec.map_apply, h.beq_zero, apply_ite ι, h.one]
  unfold Region.ofColumnNorms Region.map
  simp only [hscaling, lengthOf_map h, h.beq_zero, apply_ite ι, h.mul, h.zero]

theorem widenScaling_map (r : Region ℝ n) (columnNorm : Vec ℝ n) :
    (r.map ι).widenScaling (columnNorm.map ι) = (r.widenScaling columnNorm).map ι := by
  unfold Region.widenScaling Region.map
  simp only [Vec.map_apply, h.largest, Vec.map_ofFn]

/-- The cosines leave out null columns and a cost of zero. -/
theorem largestCosine_map (d : Decomposition ℝ m n) (projected : Vec ℝ m) (cost : ℝ) :
    largestCosine (d.map ι) (projected.map ι) (ι cost) = ι (largestCosine d projected cost) := by
  unfold largestCosine
  rw [h.beq_zero]
  split_ifs with hcost
  · exact h.zero.symm
  have hne : cost ≠ 0 := fun h0 => hcost ((Exact.beq_zero_iff _).mpr h0)
  have hnorm : (d.map ι).columnNorm = d.columnNorm.map ι := rfl
  rw [Fin.foldl_eq_finRange_foldl, Fin.foldl_eq_finRange_foldl, ← h.zero]
  refine List.foldl_hom ι fun c k => ?_
  rw [h.map_gradient, hnorm, map_gather, Vec.map_apply, Vec.map_apply, h.beq_eq]
  split_ifs with hk
  · rfl
  · have hdivisor := mul_ne_zero (fun h0 => hk ((Exact.beq_zero_iff _).mpr h0)) hne
    rw [← h.abs, ← h.mul, ← h.div _ hdivisor, h.largest]

theorem startRegion_map (o : Options ℝ) (st : Standing ℝ m n) (rg : Region ℝ n)
    (columnNorm : Vec ℝ n) :
    Search.startRegion (o.map ι) (st.map ι) (rg.map ι) (columnNorm.map ι) =
      (Search.startRegion o st rg columnNorm).map ι := by
  unfold Search.startRegion
  change (if rg.fresh then _ else _) = _
  split_ifs
  · exact congrArg (fun r : Region β n => { r with lambda := ι rg.lambda })
      (ofColumnNorms_map h o.initialStepFactor columnNorm st.point)
  · rfl

theorem ofDecomposition_map (o : Options ℝ) (st : Standing ℝ m n) (rg : Region ℝ n)
    (d : Decomposition ℝ m n) :
    Search.ofDecomposition (o.map ι) (st.map ι) (rg.map ι) (d.map ι) =
      (Search.ofDecomposition o st rg d).map ι := by
  have hprojected : (d.map ι).transposeApply (st.map ι).evaluation.residuals =
      (d.transposeApply st.evaluation.residuals).map ι := h.map_transposeApply d _
  have hregion := startRegion_map h o st rg d.columnNorm
  unfold Search.ofDecomposition Search.map
  simp only [Search.mk.injEq, true_and]
  refine ⟨rfl, ?_, map_writeDiagonal ι d _, hprojected, ?_⟩
  · rw [← widenScaling_map h, ← hregion]
    rfl
  · rw [hprojected, map_writeDiagonal, ← largestCosine_map h]
    rfl

/-- **An outer iteration begins** as it does in exact arithmetic. -/
theorem start_map {o : Options ℝ} (ht : 0 ≤ o.rankingThreshold) {st : Standing ℝ m n}
    {rg : Region ℝ n} {d : Decomposition ℝ m n}
    (hd : ofJacobian st.evaluation.jacobian o.rankingThreshold = .ok d) :
    Search.start (o.map ι) (st.map ι) (rg.map ι) =
      .ok ((Search.ofDecomposition o st rg d).map ι) := by
  have hβ : ofJacobian (st.map ι).evaluation.jacobian (o.map ι).rankingThreshold =
      .ok (d.map ι) := h.map_ofJacobian ht hd
  rw [Search.start_eq, hβ, ← ofDecomposition_map h]
  rfl

omit h

/-! ## Searches -/

/-- A region that a step can be searched in. -/
structure Region.Safe (r : Region ℝ n) : Prop where
  radius_pos : 0 < r.radius
  lambda_nonneg : 0 ≤ r.lambda
  length_nonneg : 0 ≤ r.length
  scaling_pos : ∀ c, 0 < r.scaling c

/-- **A search from which a trial is made** in exact arithmetic: neither the gradient nor the cost
is zero. -/
structure Search.Safe (s : Search ℝ m n) : Prop where
  region : s.region.Safe
  written : s.decomposition.Written (min m n)
  solvable : Solvable (Nat.min_le_left m n) (Nat.min_le_right m n) s.decomposition
  gradient_ne : ∃ k, s.decomposition.gradient (Nat.min_le_left m n) (Nat.min_le_right m n)
    s.projected k ≠ 0
  cost_ne : s.standing.cost ≠ 0

theorem Search.Safe.posed {s : Search ℝ m n} (hs : s.Safe) :
    Posed (Nat.min_le_left m n) (Nat.min_le_right m n) s.decomposition s.projected
      s.region.scaling s.region.radius where
  written := hs.written
  solvable := hs.solvable
  scaling_pos := hs.region.scaling_pos
  radius_pos := hs.region.radius_pos
  gradient_ne h0 := by
    obtain ⟨k, hk⟩ := hs.gradient_ne
    have hD : s.decomposition.gather (Nat.min_le_right m n) s.region.scaling k ≠ 0 :=
      (gather_pos hs.region.scaling_pos k).ne'
    exact hk ((div_eq_zero_iff.mp (congrFun h0 k)).resolve_right hD)

theorem Search.Safe.propose_lambda {s : Search ℝ m n} (hs : s.Safe) : 0 ≤ s.propose.lambda :=
  (s.propose_signed Exact.signRule ⟨hs.region.radius_pos.le, hs.region.lambda_nonneg⟩).1

variable {s : Search ℝ m n} (hs : s.Safe)

include h hs

theorem Search.Safe.propose_map : (s.map ι).propose = s.propose.map ι := by
  have hfound : (s.map ι).decomposition.parameter (Nat.min_le_left m n) (Nat.min_le_right m n)
      (s.map ι).projected (s.map ι).region.radius (s.map ι).region.scaling (s.map ι).region.lambda =
      (s.decomposition.parameter (Nat.min_le_left m n) (Nat.min_le_right m n) s.projected
        s.region.radius s.region.scaling s.region.lambda).map ι :=
    hs.posed.map_parameter h hs.region.lambda_nonneg
  unfold Search.propose
  simp only [hfound]
  generalize s.decomposition.parameter (Nat.min_le_left m n) (Nat.min_le_right m n) s.projected
    s.region.radius s.region.scaling s.region.lambda = found
  have hstep : (found.map ι).direction.map (fun x => -x) =
      (found.direction.map fun x => -x).map ι := by
    refine Vec.ext fun c => ?_
    simp only [Parameter.map, Vec.map_apply, h.neg]
  have hlength (v : Vec ℝ n) : norm (Damped.scaled
      ((found.map ι).decomposition.gather (Nat.min_le_right m n) (s.map ι).region.scaling)
      ((found.map ι).decomposition.gather (Nat.min_le_right m n) (v.map ι))) =
      ι (norm (Damped.scaled (found.decomposition.gather (Nat.min_le_right m n) s.region.scaling)
        (found.decomposition.gather (Nat.min_le_right m n) v))) := by
    rw [← h.norm_map, ← h.map_scaled, ← map_gather, ← map_gather]
    rfl
  rw [hstep, hlength]
  unfold Proposal.map
  simp only [Proposal.mk.injEq, true_and]
  refine ⟨rfl, ?_, Vec.ext fun c => ?_, rfl⟩
  · rw [apply_ite ι, ← h.smaller]
    rfl
  · simp only [Vec.ofFn_apply, Vec.map_apply, h.add]
    rw [← Vec.map_apply ι s.standing.point]
    rfl

omit h hs

/-! ## Judgements -/

/-- The numbers that a trial is judged by, from its actual reduction. -/
def Search.reductionsFrom {α : Type} [Scalar α] (s : Search α m n) (p : Proposal α m n)
    (actual : α) : Reductions α :=
  let square := s.standing.cost * s.standing.cost
  let change := linearModel p
  let first := dot change change / square
  let second := p.lambda * p.length * p.length / square
  let predicted := first + 2.0 * second
  ⟨actual, predicted, -(first + second), if predicted == 0 then 0 else actual / predicted⟩

theorem Search.assess_reductions {α : Type} [Scalar α] (s : Search α m n) (p : Proposal α m n)
    (e : Evaluation α m n) :
    (s.assess p e).reductions = s.reductionsFrom p (s.assess p e).actual := rfl

include h

theorem linearModel_map (p : Proposal ℝ m n) :
    Search.linearModel (p.map ι) = (Search.linearModel p).map ι := by
  have hd : (p.map ι).decomposition = p.decomposition.map ι := rfl
  have hstep : (p.map ι).step = p.step.map ι := rfl
  rw [Search.linearModel_eq, Search.linearModel_eq]
  simp only [hd, hstep, h.map_block, map_gather, Mat.map_apply, Vec.map_apply, ← h.mul,
    h.sumOver_map, Vec.map_ofFn]

theorem reductionsFrom_map (hcost : s.standing.cost ≠ 0) (p : Proposal ℝ m n) (actual : ℝ) :
    (s.map ι).reductionsFrom (p.map ι) (ι actual) = (s.reductionsFrom p actual).map ι := by
  have hsquare := mul_self_ne_zero.mpr hcost
  have hstanding : (s.map ι).standing.cost = ι s.standing.cost := rfl
  have hlambda : (p.map ι).lambda = ι p.lambda := rfl
  have hlength : (p.map ι).length = ι p.length := rfl
  unfold Search.reductionsFrom Reductions.map
  simp only [linearModel_map h, h.dot_map, hstanding, hlambda, hlength, ← h.mul,
    ← h.div _ hsquare, ← h.add, ← h.scientific, ← h.neg, h.beq_zero, Reductions.mk.injEq, true_and]
  split_ifs with h0
  · exact h.zero.symm
  · exact (h.div _ fun hz => h0 ((Exact.beq_zero_iff _).mpr hz)).symm

/-- **The actual reduction is a real number**: a cost that it is formed from is compared with the
previous one first. -/
theorem assess_actual (hcost : s.standing.cost ≠ 0) (p : Proposal β m n) (e : Evaluation β m n) :
    ∃ x : ℝ, ((s.map ι).assess p e).actual = ι x := by
  change ∃ x, (if 0.1 * e.cost < ι s.standing.cost then
    1 - e.cost / ι s.standing.cost * (e.cost / ι s.standing.cost) else -1) = ι x
  split_ifs with hlt
  · obtain ⟨c, hc⟩ := h.length e.residuals _ hlt
    have hcost' : e.cost = ι c := hc
    exact ⟨1 - c / s.standing.cost * (c / s.standing.cost), by
      rw [hcost', h.sub, h.mul, h.div _ hcost, h.one]⟩
  · exact ⟨-1, by rw [h.neg, h.one]⟩

omit h

theorem reductionsFrom_slope {p : Proposal ℝ m n} (hl : 0 ≤ p.lambda) (actual : ℝ) :
    (s.reductionsFrom p actual).slope ≤ 0 := by
  have hfirst := div_nonneg (Exact.signRule.dot_self (Search.linearModel p))
    (mul_self_nonneg s.standing.cost)
  have hsecond := div_nonneg (mul_nonneg hl (mul_self_nonneg p.length))
    (mul_self_nonneg s.standing.cost)
  rw [← mul_assoc] at hsecond
  exact neg_nonpos.mpr (add_nonneg hfirst hsecond)

/-- **A judgement without a quotient by zero**, by the numbers `x`. The region shrinks by a factor
from a tenth to a half. -/
structure Judged (ι : ℝ → β) (a : Assessment β m n) (previous : β) (x : Reductions ℝ) : Prop where
  reductions_eq : a.reductions = x.map ι
  slope_ne : x.actual < 0 → x.slope + 0.5 * x.actual ≠ 0
  shrinkFactor : ∃ f : ℝ, 0.1 ≤ f ∧ f ≤ 0.5 ∧ a.shrinkFactor previous = ι f

include h

theorem shrinkFactor_image {a : Assessment β m n} {x : Reductions ℝ}
    (hx : a.reductions = x.map ι) (hslope : x.slope ≤ 0) (previous : β) :
    ∃ f : ℝ, 0.1 ≤ f ∧ f ≤ 0.5 ∧ a.shrinkFactor previous = ι f := by
  have hactual : a.actual = ι x.actual := congrArg Reductions.actual hx
  have hs : a.slope = ι x.slope := congrArg Reductions.slope hx
  obtain ⟨f, hf, hle⟩ : ∃ f : ℝ, (if a.actual < 0 then
      0.5 * a.slope / (a.slope + 0.5 * a.actual) else 0.5) = ι f ∧ f ≤ 0.5 := by
    rw [hactual, hs, ← h.zero]
    simp only [h.lt_iff]
    split_ifs with hneg
    -- the slope is not positive, so it cannot cancel a negative reduction
    · have hsum : x.slope + 0.5 * x.actual < 0 := by linarith
      refine ⟨0.5 * x.slope / (x.slope + 0.5 * x.actual), ?_, ?_⟩
      · rw [h.div _ hsum.ne, h.mul, h.add, h.mul, h.scientific]
      · rw [div_le_iff_of_neg hsum]
        linarith
    · exact ⟨0.5, (h.scientific ..).symm, le_rfl⟩
  unfold Assessment.shrinkFactor
  simp only [hf]
  simp only [← h.scientific, h.lt_iff]
  split_ifs with hsmall
  · exact ⟨0.1, le_rfl, by norm_num, rfl⟩
  · exact ⟨f, not_lt.mp fun hlt => hsmall (.inr hlt), hle, rfl⟩

/-- **What a trial is judged by**, whatever it is evaluated to. -/
theorem Search.Safe.judged (hs : s.Safe) (e : Evaluation β m n) :
    ∃ x, Judged ι ((s.map ι).assess (s.map ι).propose e) (s.map ι).standing.cost x := by
  rw [hs.propose_map h]
  obtain ⟨y, hy⟩ := assess_actual h hs.cost_ne (s.propose.map ι) e
  have hx : ((s.map ι).assess (s.propose.map ι) e).reductions =
      (s.reductionsFrom s.propose y).map ι := by
    rw [Search.assess_reductions, hy, reductionsFrom_map h hs.cost_ne]
  have hl := hs.propose_lambda
  have hslope := reductionsFrom_slope (s := s) hl y
  refine ⟨_, hx, fun hneg => ?_, shrinkFactor_image h hx hslope _⟩
  have hsum : (s.reductionsFrom s.propose y).slope +
      0.5 * (s.reductionsFrom s.propose y).actual < 0 := by linarith
  exact hsum.ne

/-! ## The region after a trial -/

theorem Judged.adjust {a : Assessment β m n} {previous : β} {x : Reductions ℝ}
    (hj : Judged ι a previous x) {p : Proposal ℝ m n} (hl : 0 ≤ p.lambda) :
    ∃ radius lambda : ℝ, a.adjust (p.map ι) previous = (ι radius, ι lambda) ∧ 0 ≤ lambda := by
  obtain ⟨f, hf, -, he⟩ := hj.shrinkFactor
  have hpos : 0 < f := lt_of_lt_of_le (by norm_num) hf
  have hradius : (p.map ι).radius = ι p.radius := rfl
  have hlambda : (p.map ι).lambda = ι p.lambda := rfl
  have hlength : (p.map ι).length = ι p.length := rfl
  unfold Assessment.adjust
  simp only [he, hradius, hlambda, hlength, ← h.scientific, ← h.mul, h.smaller,
    ← h.div _ hpos.ne']
  split_ifs
  · exact ⟨_, _, rfl, div_nonneg hl hpos.le⟩
  · exact ⟨_, _, rfl, mul_nonneg hl (by norm_num)⟩
  · exact ⟨_, _, rfl, hl⟩

/-- **The region after a trial**, if the evaluation of an accepted one is real. -/
theorem Search.Safe.regionAfter (hs : s.Safe) {e : Evaluation β m n}
    (he : ((s.map ι).assess (s.map ι).propose e).isAccepted = true → e.IsReal ι) :
    ∃ r : Region ℝ n, (s.map ι).regionAfter (s.map ι).propose
        ((s.map ι).assess (s.map ι).propose e) = r.map ι ∧
      0 ≤ r.lambda ∧ 0 ≤ r.length ∧ r.scaling = s.region.scaling := by
  obtain ⟨x, hj⟩ := hs.judged h e
  have hl := hs.propose_lambda
  obtain ⟨radius, lambda, hadjust, hlambda⟩ := hj.adjust h hl
  rw [← hs.propose_map h] at hadjust
  unfold Search.regionAfter
  simp only [hadjust]
  split_ifs with ha
  · obtain ⟨e', rfl⟩ := he ha
    refine ⟨⟨radius, lambda, s.region.scaling, Region.lengthOf s.region.scaling e'.point, false⟩,
      ?_, hlambda, Exact.norm_nonneg _, rfl⟩
    unfold Region.map
    rw [← lengthOf_map h]
    rfl
  · exact ⟨⟨radius, lambda, s.region.scaling, s.region.length, s.region.fresh⟩, rfl, hlambda,
      hs.region.length_nonneg, rfl⟩

/-! ## Real evaluations

The evaluation of a trial is often real, too. Then everything that follows it is what follows it in
exact arithmetic, and not only real. -/

/-- The actual reduction to a real cost. -/
theorem assess_actual_eq (hcost : s.standing.cost ≠ 0) (p : Proposal β m n)
    {e : Evaluation β m n} {x : ℝ} (hx : e.cost = ι x) : ((s.map ι).assess p e).actual =
      ι (if 0.1 * x < s.standing.cost then 1 - x / s.standing.cost * (x / s.standing.cost)
        else -1) := by
  change (if 0.1 * e.cost < ι s.standing.cost then
    1 - e.cost / ι s.standing.cost * (e.cost / ι s.standing.cost) else -1) = _
  rw [hx]
  simp only [← h.scientific, ← h.mul, h.lt_iff, ← h.div _ hcost, ← h.one, ← h.sub, ← h.neg,
    apply_ite ι]

theorem twoEpsilon_map : (twoEpsilon : β) = ι twoEpsilon := by
  unfold twoEpsilon
  rw [h.epsilon, h.mul, h.scientific]

variable {a : Assessment ℝ m n}

/-- **A real evaluation** is assessed as in exact arithmetic. -/
theorem Search.Safe.assess_map (hs : s.Safe) (e : Evaluation ℝ m n) :
    (s.map ι).assess (s.map ι).propose (e.map ι) = (s.assess s.propose e).map ι := by
  have hreductions : ((s.map ι).assess (s.propose.map ι) (e.map ι)).reductions =
      (s.assess s.propose e).reductions.map ι := by
    rw [Search.assess_reductions, assess_actual_eq h hs.cost_ne _ (cost_map h e),
      reductionsFrom_map h hs.cost_ne]
    rfl
  obtain ⟨hactual, hpredicted, hslope, hratio⟩ := Reductions.mk.inj hreductions
  rw [hs.propose_map h]
  exact (Assessment.mk.injEq ..).mpr ⟨rfl, cost_map h e, hactual, hpredicted, hslope, hratio⟩

theorem Assessment.isAccepted_map (a : Assessment ℝ m n) :
    (a.map ι).isAccepted = a.isAccepted := by
  unfold Assessment.isAccepted
  refine decide_eq_decide.mpr ?_
  rw [show (acceptRatio : β) = ι acceptRatio from (h.scientific ..).symm]
  exact h.le_iff _ _

theorem reductionsWithin_map (a : Assessment ℝ m n) (bound : ℝ) :
    Search.reductionsWithin (a.map ι) (ι bound) = Search.reductionsWithin a bound := by
  unfold Search.reductionsWithin Assessment.map
  simp only [← h.abs, ← h.scientific, h.le_iff]

theorem Search.standingAfter_map (s : Search ℝ m n) (a : Assessment ℝ m n) :
    (s.map ι).standingAfter (a.map ι) = (s.standingAfter a).map ι := by
  unfold Search.standingAfter
  rw [a.isAccepted_map h]
  split_ifs <;> rfl

theorem Assessment.shrinkFactor_map (hslope : a.actual < 0 → a.slope + 0.5 * a.actual ≠ 0)
    (previous : ℝ) : (a.map ι).shrinkFactor (ι previous) = ι (a.shrinkFactor previous) := by
  have hfactor : (if (a.map ι).actual < 0 then
      0.5 * (a.map ι).slope / ((a.map ι).slope + 0.5 * (a.map ι).actual) else 0.5) =
      ι (if a.actual < 0 then 0.5 * a.slope / (a.slope + 0.5 * a.actual) else 0.5) := by
    change (if ι a.actual < 0 then 0.5 * ι a.slope / (ι a.slope + 0.5 * ι a.actual) else 0.5) = _
    simp only [← h.zero, h.lt_iff, ← h.scientific, ← h.mul, ← h.add]
    split_ifs with hneg
    · exact (h.div _ (hslope hneg)).symm
    · rfl
  have hcost : (a.map ι).cost = ι a.cost := rfl
  unfold Assessment.shrinkFactor
  simp only [hfactor, hcost]
  generalize (if a.actual < 0 then 0.5 * a.slope / (a.slope + 0.5 * a.actual) else 0.5) = f
  simp only [← h.scientific, ← h.mul, h.le_iff, h.lt_iff, apply_ite ι]

/-- **Radius and parameter after a trial**. -/
theorem Assessment.adjust_map (hslope : a.actual < 0 → a.slope + 0.5 * a.actual ≠ 0)
    (p : Proposal ℝ m n) (previous : ℝ) :
    (a.map ι).adjust (p.map ι) (ι previous) = (a.adjust p previous).map ι ι := by
  have hfactor : a.shrinkFactor previous ≠ 0 := by
    unfold Assessment.shrinkFactor
    simp only
    generalize (if a.actual < 0 then 0.5 * a.slope / (a.slope + 0.5 * a.actual) else 0.5) = f
    split_ifs with hsmall
    · norm_num
    · rintro rfl
      exact hsmall (.inr (by norm_num))
  have hratio : (a.map ι).ratio = ι a.ratio := rfl
  have hradius : (p.map ι).radius = ι p.radius := rfl
  have hlambda : (p.map ι).lambda = ι p.lambda := rfl
  have hlength : (p.map ι).length = ι p.length := rfl
  have hshrink : (shrinkRatio : β) = ι shrinkRatio := (h.scientific ..).symm
  have hexpand : (expandRatio : β) = ι expandRatio := (h.scientific ..).symm
  unfold Assessment.adjust
  simp only [shrinkFactor_map h hslope, hratio, hradius, hlambda, hlength, hshrink, hexpand,
    ← h.scientific, h.le_iff, h.beq_zero, ← h.mul, h.smaller, ← h.div _ hfactor]
  split_ifs <;> rfl

omit h [Scalar β] in
theorem Search.regionAfter_eq {α : Type} [Scalar α] (s : Search α m n) (p : Proposal α m n)
    (a : Assessment α m n) : s.regionAfter p a =
      ⟨(a.adjust p s.standing.cost).1, (a.adjust p s.standing.cost).2, s.region.scaling,
        if a.isAccepted then Region.lengthOf s.region.scaling a.evaluation.point
        else s.region.length,
        if a.isAccepted then false else s.region.fresh⟩ := by
  unfold Search.regionAfter
  split_ifs <;> rfl

/-- **The region after a trial** with a real evaluation. -/
theorem Search.Safe.regionAfter_map (hs : s.Safe) (e : Evaluation ℝ m n) :
    (s.map ι).regionAfter (s.map ι).propose ((s.map ι).assess (s.map ι).propose (e.map ι)) =
      (s.regionAfter s.propose (s.assess s.propose e)).map ι := by
  have hslope : (s.assess s.propose e).actual < 0 →
      (s.assess s.propose e).slope + 0.5 * (s.assess s.propose e).actual ≠ 0 := by
    intro hneg
    have hle : (s.assess s.propose e).slope ≤ 0 :=
      reductionsFrom_slope (s := s) hs.propose_lambda (s.assess s.propose e).actual
    linarith
  have hadjust := Assessment.adjust_map h hslope s.propose s.standing.cost
  have hscaling : (s.map ι).region.scaling = s.region.scaling.map ι := rfl
  have hcost : (s.map ι).standing.cost = ι s.standing.cost := rfl
  have hpoint : ((s.assess s.propose e).map ι).evaluation.point =
    (s.assess s.propose e).evaluation.point.map ι := rfl
  have hlength : (s.map ι).region.length = ι s.region.length := rfl
  have hfresh : (s.map ι).region.fresh = s.region.fresh := rfl
  rw [hs.assess_map h, hs.propose_map h, Search.regionAfter_eq, Search.regionAfter_eq]
  unfold Region.map
  simp only [hcost, hadjust, hscaling, hpoint, hlength, hfresh, Assessment.isAccepted_map h,
    lengthOf_map h, apply_ite ι, Prod.map_fst, Prod.map_snd]

/-- The search that retries after a real evaluation. -/
theorem Search.Safe.retryAfter_map (hs : s.Safe) (e : Evaluation ℝ m n) :
    (s.map ι).retryAfter (s.map ι).propose ((s.map ι).assess (s.map ι).propose (e.map ι)) =
      (s.retryAfter s.propose (s.assess s.propose e)).map ι := by
  unfold Search.retryAfter
  rw [hs.regionAfter_map h, hs.assess_map h, Search.standingAfter_map h, hs.propose_map h]
  rfl

/-- Where two arithmetics go on alike after a trial. -/
inductive Next.Maps (ι : ℝ → β) : Next ℝ m n → Next β m n → Prop
  | stop (e : Evaluation ℝ m n) : Next.Maps ι (.stop e) (.stop (e.map ι))
  | fail (which : Tolerance) (x : ℝ) :
      Next.Maps ι (.fail (.tolerance which x)) (.fail (.tolerance which (ι x)))
  | retry (s : Search ℝ m n) : Next.Maps ι (.retry s) (.retry (s.map ι))
  | renew (st : Standing ℝ m n) (rg : Region ℝ n) :
      Next.Maps ι (.renew st rg) (.renew (st.map ι) (rg.map ι))

omit h [Scalar β] in
theorem Next.Maps.eq_stop {e : Evaluation ℝ m n} {x : Next β m n} (h : Next.Maps ι (.stop e) x) :
    x = .stop (e.map ι) := by
  cases h
  rfl

omit h [Scalar β] in
theorem Next.Maps.eq_retry {s : Search ℝ m n} {x : Next β m n} (h : Next.Maps ι (.retry s) x) :
    x = .retry (s.map ι) := by
  cases h
  rfl

/-- **What follows a trial** with a real evaluation is what follows it in exact arithmetic. -/
theorem Search.Safe.outcome_map (hs : s.Safe) (o : Options ℝ) (e : Evaluation ℝ m n)
    (v : Option Bool) :
    Next.Maps ι (s.outcome o e v) ((s.map ι).outcome (o.map ι) (e.map ι) v) := by
  have hregion := hs.regionAfter_map h e
  have hretry := hs.retryAfter_map h e
  unfold Search.retryAfter at hretry
  unfold Search.outcome Search.next
  rw [hregion] at hretry ⊢
  rw [hs.assess_map h] at hretry ⊢
  have hcost : (o.map ι).costTolerance = ι o.costTolerance := rfl
  have hparameter : (o.map ι).parameterTolerance = ι o.parameterTolerance := rfl
  have horthogonality : (o.map ι).orthogonalityTolerance = ι o.orthogonalityTolerance := rfl
  have hradius (r : Region ℝ n) : (r.map ι).radius = ι r.radius := rfl
  have hlength (r : Region ℝ n) : (r.map ι).length = ι r.length := rfl
  have hratio : ((s.assess s.propose e).map ι).ratio = ι (s.assess s.propose e).ratio := rfl
  have hmax : (s.map ι).maxCosine = ι s.maxCosine := rfl
  have haccept : (acceptRatio : β) = ι acceptRatio := (h.scientific ..).symm
  simp only [Assessment.isAccepted_map h, hcost, hparameter, hradius, hlength, hratio, hmax,
    haccept, twoEpsilon_map h, reductionsWithin_map h, ← h.mul, h.le_iff, h.lt_iff,
    Search.standingAfter_map h]
  split_ifs
  · exact .stop _
  · exact .stop _
  · exact .fail _ _
  · exact .fail _ _
  · exact .fail _ _
  · rw [Search.standingAfter_map h] at hretry
    exact (congrArg (Next.Maps ι _) (congrArg Next.retry hretry)).mpr (.retry _)
  · exact .renew _ _

end LevenbergMarquardt

end LeastSquares
