import LeastSquares.Proofs.Charts
import LeastSquares.Proofs.SafeTrial

/-!
# Trials in two charts

Two searches of the trust-region method in two charts of the parameters
(`LeastSquares.Proofs.Charts`), from evaluations that match: same cost, and products `Jᵀ J` and
`Jᵀ r` that correspond. They keep the same radius, damping parameter and length, and scalings that
correspond; their proposals correspond, and if the evaluations there match too, their trials are
judged by the same numbers and go on in the same way.

Where an outer iteration begins, the chart has to be tame: the two decompositions find the same
columns to be negligible, and it does not rescale a parameter whose column is zero, since such a
column is scaled by one in every chart.

Results:
* `Chart.Tame.searches`: the searches that begin two outer iterations;
* `Chart.Searches.propose`, `Chart.Searches.assess`: their trials;
* `Chart.Searches.outcome`: and how they go on.
-/

namespace LeastSquares

open Matrix Decomposition LevenbergMarquardt

variable {m m' n : Nat}

/-- **Two evaluations match** in the two charts. -/
structure Chart.Matches (χ : Chart n) (e : Evaluation ℝ m n) (e' : Evaluation ℝ m' n) : Prop where
  point_eq : e.point = χ.point e'.point
  cost_eq : e'.cost = e.cost
  gram : χ.Gram e.jacobian e'.jacobian
  moment : χ.Dual (e.jacobian.transposeMulVec e.residuals).get
    (e'.jacobian.transposeMulVec e'.residuals).get

/-- Two trust regions in the two charts. -/
structure Chart.Regions (χ : Chart n) (r r' : Region ℝ n) : Prop where
  radius_eq : r'.radius = r.radius
  lambda_eq : r'.lambda = r.lambda
  scaling : χ.Dual r.scaling.get r'.scaling.get
  length_eq : r'.length = r.length
  fresh_eq : r'.fresh = r.fresh

/-- **Two searches** in the two charts. -/
structure Chart.Searches (χ : Chart n) (s : Search ℝ m n) (s' : Search ℝ m' n) : Prop where
  base : χ.Matches s.base s'.base
  region : χ.Regions s.region s'.region
  ranks : χ.Ranks s.decomposition s'.decomposition
  maxCosine_eq : s'.maxCosine = s.maxCosine

/-- Two steps to try. -/
structure Chart.Proposals (χ : Chart n) (p : Proposal ℝ m n) (p' : Proposal ℝ m' n) : Prop where
  lambda_eq : p'.lambda = p.lambda
  length_eq : p'.length = p.length
  radius_eq : p'.radius = p.radius
  point_eq : p.point = χ.point p'.point

/-- Two trials judged by the same numbers. -/
structure Chart.Assessments (χ : Chart n) (a : Assessment ℝ m n) (a' : Assessment ℝ m' n) :
    Prop where
  evaluation : χ.Matches a.evaluation a'.evaluation
  cost_eq : a'.cost = a.cost
  reductions_eq : a'.reductions = a.reductions

/-- How two runs go on. Their evaluations are related by `R`. -/
inductive Chart.Nexts (χ : Chart n) (R : Evaluation ℝ m n → Evaluation ℝ m' n → Prop) :
    Next ℝ m n → Next ℝ m' n → Prop
  | stop {e e'} (he : R e e') : Nexts χ R (.stop e) (.stop e')
  | fail (f) : Nexts χ R (.fail f) (.fail f)
  | retry {s s'} (hb : R s.base s'.base) (hs : χ.Searches s s') : Nexts χ R (.retry s) (.retry s')
  | renew {e e' r r'} (he : R e e') (hr : χ.Regions r r') :
      Nexts χ R (.renew (.ofEvaluation e) r) (.renew (.ofEvaluation e') r')

variable {χ : Chart n}

/-! ## The beginning of an outer iteration -/

theorem largestCosine_nonneg (d : Decomposition ℝ m n) (projected : Vec ℝ m) (cost : ℝ) :
    0 ≤ largestCosine d projected cost := by
  unfold largestCosine
  split_ifs
  · exact le_rfl
  · set norms : Vec ℝ (min m n) := d.gather (Nat.min_le_right m n) d.columnNorm
    set products := d.gradient (Nat.min_le_left m n) (Nat.min_le_right m n) projected
    have h := (Exact.le_foldl_max (fun k => ¬ (norms k == 0) = true)
      (fun k => Scalar.abs (products k) / (norms k * cost)) 0).1
    simpa only [Exact.largest_eq, ite_not] using h

section Matches

variable {e : Evaluation ℝ m n} {e' : Evaluation ℝ m' n} (h : χ.Matches e e')

include h

/-- The lengths of the columns. -/
theorem Chart.Matches.columnLength :
    χ.Dual e.jacobian.columnLength e'.jacobian.columnLength := by
  intro c
  have hlength {k : Nat} (J : Mat ℝ k n) (c : Fin n) : J.columnLength c = √(J.gram c c) := by
    rw [Mat.columnLength, Mat.gram_eq]
    simp only [sq]
  rw [hlength, hlength, h.gram c c, Real.sqrt_mul (mul_self_nonneg _),
    Real.sqrt_mul_self (χ.factor_pos c).le]

/-- The same columns pass the test. -/
theorem Chart.Matches.orthogonal_iff (τ : ℝ) (c : Fin n) :
    e'.Orthogonal τ (χ.perm c) ↔ e.Orthogonal τ c := by
  unfold Evaluation.Orthogonal
  have hbound : τ * (χ.factor c * e.jacobian.columnLength c) * e.cost =
    χ.factor c * (τ * e.jacobian.columnLength c * e.cost) := by ring
  rw [← Mat.transposeMulVec_eq, ← Mat.transposeMulVec_eq, h.cost_eq, h.columnLength c, hbound,
    show e'.jacobian.transposeMulVec e'.residuals (χ.perm c) = _ from h.moment c, abs_mul,
    abs_of_pos (χ.factor_pos c)]
  exact mul_le_mul_iff_right₀ (χ.factor_pos c)

/-- The largest cosine that a search begins with. -/
theorem Chart.Matches.largestCosine_eq (hn : n ≤ m) (hn' : n ≤ m') {d : Decomposition ℝ m n}
    {d' : Decomposition ℝ m' n} (hd : ofJacobian e.jacobian 0 = .ok d)
    (hd' : ofJacobian e'.jacobian 0 = .ok d') :
    largestCosine (d'.writeDiagonal (min m' n)) (d'.transposeApply e'.residuals) e'.cost =
      largestCosine (d.writeDiagonal (min m n)) (d.transposeApply e.residuals) e.cost := by
  have hall := pivotColumns_eq_univ (ofJacobian_order hd) (le_min hn le_rfl)
  have hall' := pivotColumns_eq_univ (ofJacobian_order hd') (le_min hn' le_rfl)
  refine le_antisymm ?_ ?_
  · refine largestCosine_le hd' (largestCosine_nonneg _ _ _) fun j _ => ?_
    obtain ⟨c, rfl⟩ := χ.perm.surjective j
    exact (h.orthogonal_iff _ c).mpr
      (le_of_largestCosine_le hd le_rfl (hall ▸ Finset.mem_univ c))
  · refine largestCosine_le hd (largestCosine_nonneg _ _ _) fun c _ => ?_
    exact (h.orthogonal_iff _ c).mp
      (le_of_largestCosine_le hd' le_rfl (hall' ▸ Finset.mem_univ _))

end Matches

/-- **A tame chart** for two evaluations at which outer iterations begin. -/
structure Chart.Tame (χ : Chart n) (e : Evaluation ℝ m n) (e' : Evaluation ℝ m' n) : Prop where
  ranks : ∀ d d', ofJacobian e.jacobian 0 = .ok d → ofJacobian e'.jacobian 0 = .ok d' →
    χ.Ranks d d'
  null : ∀ c, e.jacobian.columnLength c = 0 → χ.factor c = 1

section Regions

variable {r r' : Region ℝ n} {N N' point point' : Vec ℝ n}

theorem Chart.regions_initial : χ.Regions Region.initial Region.initial where
  radius_eq := rfl
  lambda_eq := rfl
  scaling c := by
    change Vec.replicate n 0 _ = _ * Vec.replicate n 0 _
    rw [Vec.replicate_apply, Vec.replicate_apply, mul_zero]
  length_eq := rfl
  fresh_eq := rfl

/-- The region of the first outer iteration. -/
theorem Chart.regions_ofColumnNorms (hN : χ.Dual N.get N'.get)
    (hnull : ∀ c, N c = 0 → χ.factor c = 1) (hpoint : point = χ.point point') (factor : ℝ) :
    χ.Regions (Region.ofColumnNorms factor N point) (Region.ofColumnNorms factor N' point') := by
  have hscaling : χ.Dual (N.map fun s => if s == 0 then 1 else s).get
      (N'.map fun s => if s == 0 then 1 else s).get := by
    intro c
    have hc : N' (χ.perm c) = χ.factor c * N c := hN c
    change N'.map _ (χ.perm c) = χ.factor c * N.map _ c
    rw [Vec.map_apply, Vec.map_apply, hc]
    by_cases h0 : N c = 0
    · rw [h0, mul_zero, if_pos (beq_self_eq_true _), mul_one, hnull c h0]
    · rw [if_neg fun hz => h0 ((Exact.beq_iff _ _).mp hz), if_neg fun hz =>
        mul_ne_zero (χ.factor_pos c).ne' h0 ((Exact.beq_iff _ _).mp hz)]
  have hlength : Region.lengthOf (N'.map fun s => if s == 0 then 1 else s) point' =
      Region.lengthOf (N.map fun s => if s == 0 then 1 else s) point := by
    rw [hpoint]
    exact hscaling.norm_scaled point'
  refine ⟨?_, rfl, hscaling, hlength, rfl⟩
  simp only [Region.ofColumnNorms, hlength]

theorem Chart.Regions.widenScaling (h : χ.Regions r r') (hN : χ.Dual N.get N'.get) :
    χ.Regions (r.widenScaling N) (r'.widenScaling N') where
  radius_eq := h.radius_eq
  lambda_eq := h.lambda_eq
  scaling c := by
    have hc : N' (χ.perm c) = χ.factor c * N c := hN c
    have hs : r'.scaling (χ.perm c) = χ.factor c * r.scaling c := h.scaling c
    change Vec.ofFn _ (χ.perm c) = χ.factor c * Vec.ofFn _ c
    rw [Vec.ofFn_apply, Vec.ofFn_apply, Exact.largest_eq, Exact.largest_eq, hc, hs,
      mul_max_of_nonneg _ _ (χ.factor_pos c).le]
  length_eq := h.length_eq
  fresh_eq := h.fresh_eq

/-- The region of an outer iteration. -/
theorem Chart.Regions.startRegion (h : χ.Regions r r') {e : Evaluation ℝ m n}
    {e' : Evaluation ℝ m' n} (he : χ.Matches e e') (hN : χ.Dual N.get N'.get)
    (hnull : ∀ c, N c = 0 → χ.factor c = 1) (o : Options ℝ) :
    χ.Regions (Search.startRegion o (.ofEvaluation e) r N)
      (Search.startRegion o (.ofEvaluation e') r' N') := by
  unfold Search.startRegion
  rw [h.fresh_eq]
  by_cases hfresh : r.fresh = true
  · rw [if_pos hfresh, if_pos hfresh]
    exact { Chart.regions_ofColumnNorms hN hnull he.point_eq o.initialStepFactor with
      lambda_eq := h.lambda_eq }
  · rw [if_neg hfresh, if_neg hfresh]
    exact h

end Regions

/-- **Two outer iterations begin** with corresponding searches. -/
theorem Chart.Tame.searches {e : Evaluation ℝ m n} {e' : Evaluation ℝ m' n} (ht : χ.Tame e e')
    (he : χ.Matches e e') (hn : n ≤ m) (hn' : n ≤ m') {o : Options ℝ}
    (ho : o.rankingThreshold = 0) {r r' : Region ℝ n} (hr : χ.Regions r r') {s : Search ℝ m n}
    {s' : Search ℝ m' n} (hs : Search.start o (.ofEvaluation e) r = .ok s)
    (hs' : Search.start o (.ofEvaluation e') r' = .ok s') : χ.Searches s s' := by
  obtain ⟨d, hd, rfl⟩ := Search.of_start_eq_ok hs
  obtain ⟨d', hd', rfl⟩ := Search.of_start_eq_ok hs'
  rw [ho] at hd hd'
  have hnorm : d.columnNorm.get = e.jacobian.columnLength := funext (ofJacobian_columnNorm hd)
  have hnorm' : d'.columnNorm.get = e'.jacobian.columnLength := funext (ofJacobian_columnNorm hd')
  have hN : χ.Dual d.columnNorm.get d'.columnNorm.get := hnorm ▸ hnorm' ▸ he.columnLength
  have hnull (c : Fin n) (hc : d.columnNorm c = 0) : χ.factor c = 1 :=
    ht.null c ((congrFun hnorm c).symm.trans hc)
  exact ⟨he, (hr.startRegion he hN hnull o).widenScaling hN,
    (ht.ranks d d' hd hd').congr rfl rfl rfl rfl, he.largestCosine_eq hn hn' hd hd'⟩

/-! ## Trials -/

/-- The subproblem of a search. -/
noncomputable def LevenbergMarquardt.Search.Poised.subproblem {s : Search ℝ m n} (hs : s.Poised)
    (hn : n ≤ m) : Subproblem m n (min m n) where
  hm := Nat.min_le_left m n
  hn := Nat.min_le_right m n
  jacobian := s.base.jacobian
  residuals := s.base.residuals
  projected := s.projected
  scaling := s.region.scaling
  decomposition := s.decomposition
  represents := hs.represents
  written := hs.written
  all := le_min hn le_rfl
  scaling_pos := hs.scaling_pos

section Trial

variable {s : Search ℝ m n} {s' : Search ℝ m' n} (h : χ.Searches s s') (hs : s.Poised)
  (hs' : s'.Poised)

include h hs hs'

theorem Chart.Searches.standing_cost : s'.standing.cost = s.standing.cost := by
  rw [hs.stands, hs'.stands]
  exact h.base.cost_eq

variable (hn : n ≤ m) (hn' : n ≤ m')

theorem Chart.Searches.links : χ.Links (hs.subproblem hn) (hs'.subproblem hn') :=
  ⟨h.base.gram, h.base.moment, h.region.scaling, h.ranks⟩

include hn hn'

/-- The parameters and the steps that are found. -/
theorem Chart.Searches.found :
    s'.propose.lambda = s.propose.lambda ∧ s.propose.step = χ.point s'.propose.step := by
  have hregion : (hs'.subproblem hn').parameter s.region.radius s.region.lambda =
      (hs'.subproblem hn').parameter s'.region.radius s'.region.lambda := by
    rw [h.region.radius_eq, h.region.lambda_eq]
  obtain ⟨hlambda, hdirection⟩ := (h.links hs hs' hn hn').parameter hs.radius_pos hs.lambda_nonneg
  rw [hregion] at hlambda hdirection
  refine ⟨hlambda, ?_⟩
  exact (congrArg (fun v : Vec ℝ n => v.map fun x => -x) hdirection).trans (χ.point_map_neg _).symm

/-- **The steps to try** correspond. -/
theorem Chart.Searches.propose : χ.Proposals s.propose s'.propose := by
  obtain ⟨hlambda, hstep⟩ := h.found hs hs' hn hn'
  have hlength : s'.propose.length = s.propose.length := by
    rw [hs.length_eq, hs'.length_eq, hstep]
    exact h.region.scaling.norm_scaled _
  refine ⟨hlambda, hlength, ?_, Vec.ext fun c => ?_⟩
  · change (if s'.region.fresh then Scalar.smaller s'.region.radius s'.propose.length
      else s'.region.radius) = if s.region.fresh then Scalar.smaller s.region.radius
      s.propose.length else s.region.radius
    rw [h.region.fresh_eq, h.region.radius_eq, hlength]
  · rw [χ.point_apply]
    change Vec.ofFn _ c = _ * Vec.ofFn _ (χ.perm c)
    rw [Vec.ofFn_apply, Vec.ofFn_apply, hs.stands, hs'.stands]
    change s.base.point c + s.propose.step c = _ * (s'.base.point _ + s'.propose.step _)
    rw [h.base.point_eq, hstep, χ.point_apply, χ.point_apply, mul_add]

/-- The changes of the linear models. -/
theorem Chart.Searches.change_eq :
    dot (Search.linearModel s'.propose) (Search.linearModel s'.propose) =
      dot (Search.linearModel s.propose) (Search.linearModel s.propose) := by
  rw [hs.change_eq, hs'.change_eq, (h.found hs hs' hn hn').2, χ.point_get]
  exact h.base.gram.dot_mulVec _

variable {e : Evaluation ℝ m n} {e' : Evaluation ℝ m' n} (he : χ.Matches e e')

include he

/-- **The trials are judged** by the same numbers. -/
theorem Chart.Searches.assess :
    χ.Assessments (s.assess s.propose e) (s'.assess s'.propose e') := by
  have hp := h.propose hs hs' hn hn'
  have hcost := h.standing_cost hs hs'
  have hactual : (s'.assess s'.propose e').actual = (s.assess s.propose e).actual := by
    change (if 0.1 * e'.cost < s'.standing.cost then
      1 - e'.cost / s'.standing.cost * (e'.cost / s'.standing.cost) else -1) =
      if 0.1 * e.cost < s.standing.cost then
      1 - e.cost / s.standing.cost * (e.cost / s.standing.cost) else -1
    rw [he.cost_eq, hcost]
  refine ⟨he, he.cost_eq, ?_⟩
  rw [Search.assess_reductions, Search.assess_reductions, hactual]
  simp only [Search.reductionsFrom, hcost, hp.lambda_eq, hp.length_eq,
    h.change_eq hs hs' hn hn']

end Trial

/-! ## How the runs go on -/

section Assessments

variable {a : Assessment ℝ m n} {a' : Assessment ℝ m' n} (h : χ.Assessments a a')

include h

theorem Chart.Assessments.ratio_eq : a'.ratio = a.ratio := congrArg Reductions.ratio h.reductions_eq

theorem Chart.Assessments.actual_eq : a'.actual = a.actual :=
  congrArg Reductions.actual h.reductions_eq

theorem Chart.Assessments.isAccepted_eq : a'.isAccepted = a.isAccepted := by
  rw [Assessment.isAccepted, Assessment.isAccepted, h.ratio_eq]

theorem Chart.Assessments.reductionsWithin_eq (bound : ℝ) :
    Search.reductionsWithin a' bound = Search.reductionsWithin a bound := by
  have hpredicted : a'.predicted = a.predicted := congrArg Reductions.predicted h.reductions_eq
  rw [Search.reductionsWithin, Search.reductionsWithin, h.actual_eq, hpredicted, h.ratio_eq]

theorem Chart.Assessments.adjust_eq {p : Proposal ℝ m n} {p' : Proposal ℝ m' n}
    (hp : χ.Proposals p p') (previous : ℝ) : a'.adjust p' previous = a.adjust p previous := by
  have hslope : a'.slope = a.slope := congrArg Reductions.slope h.reductions_eq
  unfold Assessment.adjust Assessment.shrinkFactor
  rw [h.ratio_eq, h.actual_eq, hslope, h.cost_eq, hp.lambda_eq, hp.length_eq, hp.radius_eq]

end Assessments

section Outcome

variable {s : Search ℝ m n} {s' : Search ℝ m' n} (h : χ.Searches s s') (hs : s.Poised)
  (hs' : s'.Poised) (hn : n ≤ m) (hn' : n ≤ m') {e : Evaluation ℝ m n} {e' : Evaluation ℝ m' n}
  (he : χ.Matches e e')

include h hs hs' hn hn' he

/-- The regions after the trials. -/
theorem Chart.Searches.regionAfter :
    χ.Regions (s.regionAfter s.propose (s.assess s.propose e))
      (s'.regionAfter s'.propose (s'.assess s'.propose e')) := by
  have hp := h.propose hs hs' hn hn'
  have ha := h.assess hs hs' hn hn' he
  unfold Search.regionAfter
  rw [h.standing_cost hs hs', ha.adjust_eq hp, ha.isAccepted_eq]
  generalize (s.assess s.propose e).adjust s.propose s.standing.cost = x
  obtain ⟨radius, lambda⟩ := x
  dsimp only
  by_cases haccepted : (s.assess s.propose e).isAccepted = true
  · rw [if_pos haccepted, if_pos haccepted]
    refine ⟨rfl, rfl, h.region.scaling, ?_, rfl⟩
    change Region.lengthOf s'.region.scaling e'.point = Region.lengthOf s.region.scaling e.point
    rw [he.point_eq]
    exact h.region.scaling.norm_scaled e'.point
  · rw [if_neg haccepted, if_neg haccepted]
    exact ⟨rfl, rfl, h.region.scaling, h.region.length_eq, h.region.fresh_eq⟩

/-- The searches of the next trials in the same outer iterations. -/
theorem Chart.Searches.retryAfter :
    χ.Searches (s.retryAfter s.propose (s.assess s.propose e))
      (s'.retryAfter s'.propose (s'.assess s'.propose e')) := by
  have hagrees : Agrees (min m n) s.decomposition s.propose.decomposition :=
    hs.written.parameter _ _ _ _ _ _
  have hagrees' : Agrees (min m' n) s'.decomposition s'.propose.decomposition :=
    hs'.written.parameter _ _ _ _ _ _
  exact ⟨h.base, h.regionAfter hs hs' hn hn' he,
    h.ranks.congr hagrees.order_eq hagrees.rank_eq hagrees'.order_eq hagrees'.rank_eq,
    h.maxCosine_eq⟩

variable {R : Evaluation ℝ m n → Evaluation ℝ m' n → Prop} (hb : R s.base s'.base) (hR : R e e')

include hb hR

/-- Where the runs stand after the trials. -/
theorem Chart.Searches.standingAfter : ∃ f f', R f f' ∧
    s.standingAfter (s.assess s.propose e) = .ofEvaluation f ∧
    s'.standingAfter (s'.assess s'.propose e') = .ofEvaluation f' := by
  have ha := h.assess hs hs' hn hn' he
  unfold Search.standingAfter
  rw [ha.isAccepted_eq]
  by_cases haccepted : (s.assess s.propose e).isAccepted = true
  · rw [if_pos haccepted, if_pos haccepted]
    exact ⟨e, e', hR, rfl, rfl⟩
  · rw [if_neg haccepted, if_neg haccepted, hs.stands, hs'.stands]
    exact ⟨s.base, s'.base, hb, rfl, rfl⟩

/-- **After a trial** the two runs go on in the same way. -/
theorem Chart.Searches.outcome (o : Options ℝ) (verdict : Option Bool) :
    χ.Nexts R (s.outcome o e verdict) (s'.outcome o e' verdict) := by
  have ha := h.assess hs hs' hn hn' he
  have hregion := h.regionAfter hs hs' hn hn' he
  have hretry := h.retryAfter hs hs' hn hn' he
  obtain ⟨f, f', hf, hstanding, hstanding'⟩ := h.standingAfter hs hs' hn hn' he hb hR
  unfold Search.retryAfter at hretry
  unfold Search.outcome Search.next
  simp only [ha.isAccepted_eq, ha.reductionsWithin_eq, ha.ratio_eq, hregion.radius_eq,
    hregion.length_eq, h.maxCosine_eq, hstanding, hstanding'] at hretry ⊢
  split_ifs
  · exact .stop hf
  · exact .stop hf
  · exact .fail _
  · exact .fail _
  · exact .fail _
  · exact .retry hb hretry
  · exact .renew hf hregion

end Outcome

end LeastSquares
