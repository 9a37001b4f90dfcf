import LeastSquares.Proofs.Prediction

/-!
# Searches on a line

The trust-region method with one parameter, one residual and one as the Jacobian. What a search
proposes there is known, whatever its trial is evaluated to: the model need not be a line, as long
as it looks like one where the run stands.

Results:
* `Search.OnLine.step_eq`: the step;
* `Search.OnLine.regionAfter_affine`: what a trial leaves that is evaluated on the line;
* `exists_isFirst`: the first search of a run;
* `Search.IsFirst.regionAfter_rejected`: what its trial leaves if it is rejected;
* `functionModel_evaluation`: a model that is a function is evaluated to its values.
-/

namespace LeastSquares

open Matrix

variable {σ : Type} {m n : Nat}

/-! ## Functions as models -/

/-- The model of a function and its Jacobian. -/
def functionModel {α : Type} (f : Vec α n → Vec α m) (J : Vec α n → Mat α m n) :
    Model Unit α n :=
  .joint fun p => pure (.ofList (f p).toList, .ofLists (J p).toLists)

theorem functionModel_evaluation {α : Type} [Scalar α] {P : Problem Unit α m n}
    {f : Vec α n → Vec α m} {J : Vec α n → Mat α m n} (hmodel : P.model = functionModel f J)
    (hm : 0 < m) (hv : P.validator = none) (p : Vec α n) :
    (P.evaluation p).after () = (.ok ⟨p, P.residuals (f p), P.jacobian (J p)⟩, ()) := by
  have hcall : (P.model.call p).after () =
      (.ok (.ofList (f p).toList, .ofLists (J p).toLists), ()) := by rw [hmodel]; rfl
  rw [P.evaluation_of_validator hv]
  unfold Problem.compute
  simp only [Act.after_bind, Act.after_mapError, hcall, Except.mapError, Act.after_ofExcept,
    Nested.vector_ofList, Nested.matrix_ofLists _ hm, Act.after_pure]
  rfl

/-! ## One parameter -/

/-- A single number as a column. -/
noncomputable def single (x : ℝ) : Mat ℝ 1 1 := Mat.ofFn fun _ _ => x

theorem cost_single {e : Evaluation ℝ 1 1} {x : ℝ} (h : e.residuals 0 = x) : e.cost = |x| := by
  rw [LevenbergMarquardt.cost_eq, Fin.sum_univ_one, h, Real.sqrt_sq_eq_abs]

theorem independent_single {x : ℝ} (hx : x ≠ 0) : LinearIndependent ℝ (single x).toMatrix.col :=
  LinearIndependent.of_subsingleton 0 fun h => hx ((Mat.ofFn_apply _ 0 0).symm.trans (congrFun h 0))

namespace LevenbergMarquardt

open Decomposition

/-- A search on an affine problem with the Jacobian one, which scales its parameter by one. -/
structure Search.OnLine (P : Problem σ ℝ 1 1) (b : Vec ℝ 1) (s : Search ℝ 1 1) : Prop where
  affine : s.AtAffine P (single 1) b
  jacobian_eq : s.base.jacobian = single 1
  scaling_eq : s.region.scaling 0 = 1

namespace Search.OnLine

variable {P : Problem σ ℝ 1 1} {b : Vec ℝ 1} {s : Search ℝ 1 1} (h : s.OnLine P b)

include h

theorem independent : LinearIndependent ℝ (P.jacobian (single 1)).toMatrix.col := by
  rw [← h.affine.jacobian_eq, h.jacobian_eq]
  exact independent_single one_ne_zero

theorem cost_eq : s.standing.cost = |s.base.residuals 0| := by
  rw [h.affine.cost_eq, ← h.affine.base_eq]
  exact cost_single rfl

theorem residual_ne : s.base.residuals 0 ≠ 0 := by
  rw [← abs_pos, ← h.cost_eq]
  exact h.affine.cost_pos

theorem length_eq : s.propose.length = |s.propose.step 0| := by
  rw [h.affine.poised.length_eq, Exact.norm_single, Damped.scaled, Vec.ofFn_apply, h.scaling_eq,
    one_mul]

/-- The damped normal equation. -/
theorem step_eq : (1 + s.propose.lambda) * s.propose.step 0 = s.base.residuals 0 := by
  have hsolves := h.affine.step_solves h.independent 0
  rw [Fin.sum_univ_one, Mat.gram_eq, Fin.sum_univ_one, h.jacobian_eq, h.scaling_eq] at hsolves
  simp [Matrix.mulVec, dotProduct, Mat.toMatrix, single] at hsolves
  linarith

/-- A step that is short enough is not damped. -/
theorem lambda_eq (hr : |s.base.residuals 0| < 9 / 10 * s.region.radius) :
    s.propose.lambda = 0 := by
  by_contra hne
  have hlong := h.affine.length_ge h.independent hne
  have hlambda := h.affine.poised.lambda_ge
  have habs : (1 + s.propose.lambda) * |s.propose.step 0| = |s.base.residuals 0| := by
    rw [← h.step_eq, abs_mul,
      abs_of_nonneg (show (0 : ℝ) ≤ 1 + s.propose.lambda by linarith)]
  rw [h.length_eq] at hlong
  nlinarith [abs_nonneg (s.propose.step 0)]

/-- A step that is not damped leads to the solution. -/
theorem step_of_lambda (h0 : s.propose.lambda = 0) :
    s.propose.step 0 = s.base.residuals 0 := by
  rw [← h.step_eq, h0, add_zero, one_mul]

/-- A step that is too long is damped. -/
theorem lambda_pos (hr : 11 / 10 * s.region.radius < |s.base.residuals 0|) :
    0 < s.propose.lambda := by
  refine lt_of_le_of_ne h.affine.poised.lambda_ge fun h0 => ?_
  have hshort := h.affine.poised.length_le h0.symm
  rw [h.length_eq, h.step_of_lambda h0.symm] at hshort
  exact absurd hshort (not_le.mpr hr)

omit h in
theorem point_eq : s.propose.point 0 = s.standing.point 0 + s.propose.step 0 := Vec.ofFn_apply _ 0

/-- The line predicts that nothing is left there. -/
theorem reductions_of_lambda (h0 : s.propose.lambda = 0) (e : Evaluation ℝ 1 1) :
    (s.assess s.propose e).predicted = 1 ∧ (s.assess s.propose e).slope = -1 := by
  have hsquare : s.standing.cost * s.standing.cost = s.base.residuals 0 * s.base.residuals 0 := by
    rw [h.cost_eq, abs_mul_abs_self]
  have hchange : dot (Search.linearModel s.propose) (Search.linearModel s.propose) =
      s.standing.cost * s.standing.cost := by
    rw [h.affine.poised.change_eq, h.jacobian_eq, hsquare, ← h.step_of_lambda h0]
    simp [Matrix.mulVec, dotProduct, Mat.toMatrix, single]
  have hone : s.standing.cost * s.standing.cost / (s.standing.cost * s.standing.cost) = 1 :=
    div_self (hsquare ▸ mul_self_ne_zero.mpr h.residual_ne)
  change dot _ _ / _ + 2.0 * (_ * _ * _ / _) = (1 : ℝ) ∧
    -(dot _ _ / _ + s.propose.lambda * _ * _ / (s.standing.cost * s.standing.cost)) = (-1 : ℝ)
  rw [hchange, hone, h0]
  norm_num

/-- A retry is on the line, too. -/
theorem retry {o : Options ℝ} {e : Evaluation ℝ 1 1} {v : Option Bool} {s' : Search ℝ 1 1}
    (hn : s.outcome o e v = .retry s') (hs' : s'.Poised) : s'.OnLine P b := by
  have haffine := h.affine.retry hn hs'
  obtain ⟨-, -, rfl⟩ := Search.of_outcome_eq_retry hn
  refine ⟨haffine, h.jacobian_eq, ?_⟩
  change (s.regionAfter s.propose (s.assess s.propose e)).scaling 0 = 1
  rw [Search.regionAfter_eq]
  exact h.scaling_eq

/-- **A trial that is evaluated on the line** leaves twice the length of the step as the radius. -/
theorem regionAfter_affine :
    let a := s.assess s.propose (P.affineAt (single 1) b s.propose.point)
    a.isAccepted = true ∧ (s.regionAfter s.propose a).radius = 2 * |s.propose.step 0| ∧
      (s.regionAfter s.propose a).length = |s.propose.point 0| := by
  intro a
  have hlaw := h.affine.law h.independent 1
  have hlength : Region.lengthOf s.region.scaling s.propose.point = |s.propose.point 0| := by
    rw [Region.lengthOf, Exact.norm_single, Damped.scaled, Vec.ofFn_apply, h.scaling_eq, one_mul]
  refine ⟨hlaw.accepted, ?_, ?_⟩
  · rw [h.affine.radius_eq h.independent, h.length_eq]
  · rw [Search.regionAfter_eq, if_pos hlaw.accepted]
    exact hlength

end Search.OnLine

/-! ## The first search -/

/-- **A first search on a line**, where the residual is one and the radius a hundred. -/
structure Search.IsFirst (P : Problem σ ℝ 1 1) (b : Vec ℝ 1) (s : Search ℝ 1 1) : Prop
    extends s.OnLine P b where
  standing_eq : s.standing = .ofEvaluation (P.affineAt (single 1) b P.start)
  residual_eq : s.base.residuals 0 = 1
  length_region : s.region.length = P.start 0
  radius_eq : s.region.radius = 100
  fresh : s.region.fresh = true
  one_le_maxCosine : 1 ≤ s.maxCosine
  safe : s.Safe

/-- **The first search**, from `0` or `1` on. -/
theorem exists_isFirst {P : Problem σ ℝ 1 1} {b : Vec ℝ 1} (hJ : P.jacobian (single 1) = single 1)
    (hpoint : P.start 0 = 0 ∨ P.start 0 = 1)
    (hresidual : (P.affineAt (single 1) b P.start).residuals 0 = 1) {o : Options ℝ}
    (ho : o.Regular) (hfactor : o.initialStepFactor = 100) (hτ : o.orthogonalityTolerance < 1) :
    ∃ s, Search.start o (.ofEvaluation (P.affineAt (single 1) b P.start)) Region.initial = .ok s ∧
      ¬ s.maxCosine ≤ o.orthogonalityTolerance ∧ s.IsFirst P b := by
  have hentry : (P.jacobian (single 1)) 0 0 = 1 := by rw [hJ, single, Mat.ofFn_apply]
  have hindependent : LinearIndependent ℝ (P.jacobian (single 1)).toMatrix.col := by
    rw [hJ]
    exact independent_single one_ne_zero
  obtain ⟨d, hd, -⟩ := exists_ofJacobian (P.jacobian (single 1)) (le_refl (0 : ℝ))
  have hs : Search.start o (.ofEvaluation (P.affineAt (single 1) b P.start)) Region.initial =
      .ok (Search.ofDecomposition o (.ofEvaluation (P.affineAt (single 1) b P.start))
        Region.initial d) := by
    rw [Search.start_eq, ho.threshold_eq]
    change (ofJacobian (P.jacobian (single 1)) 0).map _ = _
    rw [hd]
    rfl
  have hcosine := one_le_maxCosine (e := P.affineAt (single 1) b P.start) hentry hresidual hd o
    Region.initial
  have hbeyond := not_le.mpr (hτ.trans_le hcosine)
  have hnorm : d.columnNorm 0 = 1 := (ofJacobian_columnNorm hd 0).trans (by simp [hentry])
  obtain ⟨hradius, hlength, hscaling, hfresh⟩ := first_region hnorm o
    (s := .ofEvaluation (P.affineAt (single 1) b P.start)) hpoint
  have haffine := atAffine_start hindependent ho.threshold_eq ho.orthogonality_nonneg hs
    (Reached.poised ho (.first hs)) hbeyond
  exact ⟨_, hs, hbeyond, ⟨haffine, hJ, hscaling⟩, rfl, hresidual, hlength, hradius.trans hfactor,
    hfresh, hcosine, .first ho.bounds hs hbeyond⟩

namespace Search.IsFirst

variable {P : Problem σ ℝ 1 1} {b : Vec ℝ 1} {s : Search ℝ 1 1} (h : s.IsFirst P b)

include h

theorem cost_eq_one : s.standing.cost = 1 := by rw [h.cost_eq, h.residual_eq, abs_one]

/-- The step fits into the region. -/
theorem lambda_eq_zero : s.propose.lambda = 0 := by
  refine h.lambda_eq ?_
  rw [h.residual_eq, h.radius_eq]
  norm_num

theorem step_eq_one : s.propose.step 0 = 1 :=
  (h.step_of_lambda h.lambda_eq_zero).trans h.residual_eq

theorem length_eq_one : s.propose.length = 1 := by rw [h.length_eq, h.step_eq_one, abs_one]

theorem point_eq_add : s.propose.point 0 = P.start 0 + 1 := by
  rw [Search.OnLine.point_eq, h.step_eq_one, h.standing_eq]
  rfl

/-- The radius is cut to the length of the step. -/
theorem radius_eq_one : s.propose.radius = 1 := by
  change (if s.region.fresh then Scalar.smaller s.region.radius s.propose.length else _) = _
  rw [h.fresh, h.radius_eq, h.length_eq_one, if_pos rfl, Exact.smaller_eq]
  norm_num

/-- **The judgement by a cost** below ten. -/
theorem assess_eq {e : Evaluation ℝ 1 1} (he : e.cost < 10) :
    s.assess s.propose e = ⟨e, e.cost, 1 - e.cost ^ 2, 1, -1, 1 - e.cost ^ 2⟩ := by
  obtain ⟨hpredicted, hslope⟩ := h.reductions_of_lambda h.lambda_eq_zero e
  have hactual : (s.assess s.propose e).actual = 1 - e.cost ^ 2 := by
    change (if 0.1 * e.cost < s.standing.cost then _ else _) = _
    rw [h.cost_eq_one, if_pos (by norm_num; linarith), div_one, sq]
  have hratio : (s.assess s.propose e).ratio = 1 - e.cost ^ 2 := by
    change (if (s.assess s.propose e).predicted == 0 then 0 else
      (s.assess s.propose e).actual / (s.assess s.propose e).predicted) = _
    rw [hpredicted, if_neg fun h => one_ne_zero ((Exact.beq_zero_iff _).mp h), hactual, div_one]
  exact (Assessment.mk.injEq ..).mpr ⟨rfl, rfl, hactual, hpredicted, hslope, hratio⟩

/-- **A rejected trial** leaves a shorter radius. -/
theorem regionAfter_rejected {e : Evaluation ℝ 1 1} (he : e.cost < 10)
    (hr : 1 - e.cost ^ 2 < acceptRatio) : (s.assess s.propose e).isAccepted = false ∧
      s.regionAfter s.propose (s.assess s.propose e) =
        { s.region with
          radius := (s.assess s.propose e).shrinkFactor 1
          lambda := 0 } := by
  have hratio : (s.assess s.propose e).ratio = 1 - e.cost ^ 2 :=
    congrArg Assessment.ratio (h.assess_eq he)
  have hrejected : (s.assess s.propose e).isAccepted = false :=
    decide_eq_false (not_le.mpr (hratio ▸ hr))
  have hshrinks : (s.assess s.propose e).ratio ≤ shrinkRatio := by
    rw [hratio]
    exact hr.le.trans (by norm_num [acceptRatio, shrinkRatio])
  have hsmaller : Scalar.smaller (1 : ℝ) (10.0 * 1) = 1 := by
    rw [Exact.smaller_eq]
    norm_num
  refine ⟨hrejected, ?_⟩
  rw [Search.regionAfter_eq, hrejected, Assessment.adjust, if_pos hshrinks, h.cost_eq_one,
    h.radius_eq_one, h.length_eq_one, h.lambda_eq_zero, hsmaller]
  simp only [mul_one, zero_div, Bool.false_eq_true, if_false]

end Search.IsFirst

end LevenbergMarquardt

end LeastSquares
