import Mathlib.Analysis.Real.Sqrt
import Mathlib.LinearAlgebra.Matrix.DotProduct
import LeastSquares.Proofs.Affine
import LeastSquares.Proofs.FullSteps
import LeastSquares.Proofs.Weighting

/-!
# Affine problems are solved in one step

The Gauss-Newton method on an affine model in exact arithmetic. The residuals of such a problem are
affine in the point, so a full step leads to a point where they are orthogonal to the columns of the
Jacobian (`Problem.IsStationary`), the step from there is zero, and every built-in checker agrees to
stop at an evaluation that has not changed.

Results:
* `Checker.Accepted.answers`: a checker that its constructor accepts always answers, with yes if
  both evaluations are the same;
* `Problem.IsStationary.residuals_lt`, `Problem.IsStationary.misfit_lt`: a stationary point is the
  only solution if the columns are linearly independent;
* `GaussNewton.optimize_affine`: the second or the third iteration returns it.
-/

namespace LeastSquares

open Matrix

variable {σ : Type} {m n : Nat}

/-! ## The built-in checkers -/

namespace Number

theorem value_int (k : Int) : (Number.int k : Number ℝ).value = k := by
  cases k with
  | ofNat k => exact (Int.cast_natCast k).symm
  | negSucc k => exact (Int.cast_negSucc k).symm

theorem isNonpositive_iff (x : Number ℝ) : x.isNonpositive = true ↔ x.value ≤ 0 := by
  cases x with
  | int k => rw [value_int, Int.cast_nonpos, isNonpositive, decide_eq_true_iff]
  | real x => exact decide_eq_true_iff

theorem isNegative_iff (x : Number ℝ) : x.isNegative = true ↔ x.value < 0 := by
  cases x with
  | int k => rw [value_int, Int.cast_lt_zero, isNegative, decide_eq_true_iff]
  | real x => exact decide_eq_true_iff

end Number

/-- There is a mean of some residuals. -/
theorem Evaluation.rms_eq (hm : 0 < m) (e : Evaluation ℝ m n) :
    e.rms = .ok (sqrt (e.cost * e.cost / (m : ℝ))) := if_neg hm.ne'

namespace Checker

variable {c : Checker σ ℝ}

/-- **The built-in checkers** that their constructors accept. -/
inductive Accepted : Checker σ ℝ → Prop
  | entries {subject relative absolute limit c}
      (h : ofThresholds subject relative absolute limit = .ok c) : Accepted c
  | rms {relative absolute c} (h : ofTolerances relative absolute = .ok c) : Accepted c

/-- Vectors of one length are compared entry by entry. -/
theorem settled_eq {k : Nat} (relative absolute : ℝ) (p c : Vec ℝ k) :
    settled relative absolute p c =
      .ok (!(p.toList.zip c.toList).any (isUnsettled relative absolute)) := by
  unfold settled
  rw [beside?_of_length_eq (by rw [Vec.length_toList, Vec.length_toList])]

/-- An entry that has not changed passes one of the tests, as one of the thresholds is positive. -/
theorem isUnsettled_self {relative absolute : ℝ} (h : 0 < relative ∨ 0 < absolute) (x : ℝ) :
    isUnsettled relative absolute (x, x) = false := by
  have hdifference : Scalar.abs (x - x) = (0 : ℝ) := by
    rw [sub_self]
    exact abs_zero
  have hsize : Scalar.largest (Scalar.abs x) (Scalar.abs x) = |x| := by
    rw [Exact.largest_eq]
    exact max_self _
  unfold isUnsettled
  simp only [hdifference, hsize]
  rcases h with hr | ha
  · rw [decide_eq_false (not_lt.mpr (mul_nonneg (abs_nonneg x) hr.le)), Bool.false_and]
  · rw [decide_eq_false (not_lt.mpr ha.le), Bool.and_false]

theorem settled_self {k : Nat} {relative absolute : ℝ} (h : 0 < relative ∨ 0 < absolute)
    (p : Vec ℝ k) : settled relative absolute p p = .ok true := by
  rw [settled_eq]
  congr 1
  rw [Bool.not_eq_true', List.any_eq_false]
  intro pair hpair
  obtain ⟨x, rfl⟩ : ∃ x, pair = (x, x) := by
    obtain ⟨i, hi, rfl⟩ := List.mem_iff_getElem.mp hpair
    exact ⟨_, List.getElem_zip⟩
  rw [isUnsettled_self h]
  exact Bool.false_ne_true

/-- Two vectors are compared, whatever they are, and one with itself has settled. -/
theorem exists_settled {k : Nat} {relative absolute : ℝ} (h : 0 < relative ∨ 0 < absolute)
    (p c : Vec ℝ k) :
    ∃ v, settled relative absolute p c = .ok v ∧ (p = c → v = true) := by
  refine ⟨_, settled_eq relative absolute p c, ?_⟩
  rintro rfl
  exact Except.ok.inj ((settled_eq relative absolute p p).symm.trans (settled_self h p))

theorem rmsSettled_self {relative absolute : ℝ} (h : 0 ≤ absolute) (x : ℝ) :
    rmsSettled relative absolute x x = true := by
  have hle : Scalar.abs (x - x) ≤ absolute := by
    rw [sub_self]
    exact abs_zero.trans_le h
  unfold rmsSettled
  simp only [decide_eq_true hle, Bool.true_or]

/-- **A checker that its constructor accepts answers**, and agrees to stop where nothing has
changed. -/
theorem Accepted.answers (h : c.Accepted) (hm : 0 < m) (iteration : Int)
    (previous current : Evaluation ℝ m n) (w : σ) :
    ∃ verdict, (c.converged iteration previous current).after w = (.ok verdict, w) ∧
      (previous = current → verdict = true) := by
  cases h with
  | @entries subject relative absolute limit _ h =>
    unfold ofThresholds at h
    split_ifs at h with hpos hlimit
    obtain rfl := Except.ok.inj h
    have hpositive : 0 < relative.value ∨ 0 < absolute.value := by
      rw [Bool.and_eq_true, Number.isNonpositive_iff, Number.isNonpositive_iff, not_and_or,
        not_le, not_le] at hpos
      exact hpos
    unfold converged
    by_cases hreached : (!isOff limit && reaches iteration limit) = true
    · exact ⟨true, by simp only [if_pos hreached, Act.after_pure], fun _ => rfl⟩
    · simp only [if_neg hreached]
      cases subject with
      | point =>
        obtain ⟨v, hv, hself⟩ := exists_settled hpositive previous.point current.point
        exact ⟨v, by rw [Act.after_ofExcept, hv], fun h => hself (congrArg _ h)⟩
      | residuals =>
        obtain ⟨v, hv, hself⟩ := exists_settled hpositive previous.residuals current.residuals
        exact ⟨v, by rw [Act.after_ofExcept, hv], fun h => hself (congrArg _ h)⟩
  | @rms relative absolute _ h =>
    unfold ofTolerances at h
    split_ifs at h with hneg
    obtain rfl := Except.ok.inj h
    have habsolute : 0 ≤ absolute.value := by
      rw [Bool.or_eq_true, not_or, Number.isNegative_iff, Number.isNegative_iff, not_lt,
        not_lt] at hneg
      exact hneg.2
    unfold converged
    simp only [Act.after_ofExcept, Evaluation.rms_eq hm]
    refine ⟨_, rfl, ?_⟩
    rintro rfl
    exact rmsSettled_self habsolute _

end Checker

/-! ## Stationary points -/

namespace Problem

variable (P : Problem σ ℝ m n) (A : Mat ℝ m n) (b : Vec ℝ m)

/-- The evaluation of an affine model at a point. -/
noncomputable def affineAt (p : Vec ℝ n) : Evaluation ℝ m n :=
  ⟨p, P.residuals (A.affine b p), P.jacobian A⟩

/-- The residuals at a point are orthogonal to the columns of the Jacobian. -/
def IsStationary (p : Vec ℝ n) : Prop :=
  (P.jacobian A).toMatrixᵀ *ᵥ (P.affineAt A b p).residuals.get = 0

/-- **The residuals are affine** in the point. -/
theorem residuals_affineAt (p q : Vec ℝ n) : (P.affineAt A b q).residuals.get =
    (P.affineAt A b p).residuals.get - (P.jacobian A).toMatrix *ᵥ (q.get - p.get) := by
  have haffine (p : Vec ℝ n) : (A.affine b p).get = A.toMatrix *ᵥ p.get + b.get := by
    funext i
    refine (Vec.ofFn_apply _ i).trans ?_
    rw [Mat.mulVec_get]
    rfl
  change (P.residuals _).get = (P.residuals _).get - _
  rw [residuals_get, residuals_get, jacobian_toMatrix, haffine, haffine, ← mulVec_mulVec,
    ← mulVec_sub]
  congr 1
  rw [mulVec_sub]
  abel

variable {P A b} {p x : Vec ℝ n}

/-- The point a step further. -/
theorem add_get (p x : Vec ℝ n) : (Vec.ofFn fun i => p i + x i).get = p.get + x.get :=
  funext (Vec.ofFn_apply _)

/-- **A full step** leads to a stationary point. -/
theorem isStationary_step
    (hx : IsNormal (P.affineAt A b p).jacobian (P.affineAt A b p).residuals x) :
    P.IsStationary A b (Vec.ofFn fun i => p i + x i) := by
  have hx' : (P.jacobian A).toMatrixᵀ *ᵥ ((P.jacobian A).toMatrix *ᵥ x.get) =
    (P.jacobian A).toMatrixᵀ *ᵥ (P.affineAt A b p).residuals.get := hx
  rw [IsStationary, P.residuals_affineAt A b p, add_get, add_sub_cancel_left, mulVec_sub, hx',
    sub_self]

/-- What a step from `p` to `q` leaves is as long as the residuals at `q`. -/
theorem gap_sub (q : Vec ℝ n) :
    (P.jacobian A).gap (P.affineAt A b p).residuals (Vec.ofFn fun i => q i - p i) ^ 2 =
      (P.affineAt A b q).residuals.get ⬝ᵥ (P.affineAt A b q).residuals.get := by
  have hget : (Vec.ofFn fun i => q i - p i).get = q.get - p.get := funext (Vec.ofFn_apply _)
  rw [Mat.gap_sq, hget, P.residuals_affineAt A b p q, ← neg_sub, neg_dotProduct_neg]

/-- At a stationary point the step of zero solves the normal equations. -/
theorem IsStationary.isNormal (h : P.IsStationary A b p) :
    IsNormal (P.jacobian A) (P.affineAt A b p).residuals (Vec.ofFn fun i => p i - p i) := by
  have hget : (Vec.ofFn fun i => p i - p i).get = p.get - p.get := funext (Vec.ofFn_apply _)
  rw [IsNormal, hget, sub_self, mulVec_zero, mulVec_zero]
  exact h.symm

/-- **At a stationary point the full step is zero.** -/
theorem IsStationary.step_eq (h : P.IsStationary A b p)
    (hJ : LinearIndependent ℝ (P.jacobian A).toMatrix.col)
    (hx : IsNormal (P.affineAt A b p).jacobian (P.affineAt A b p).residuals x) :
    (Vec.ofFn fun i => p i + x i) = p := by
  have hstep : x = Vec.ofFn fun i => p i - p i := IsNormal.unique hx h.isNormal hJ
  refine Vec.ext fun i => ?_
  rw [Vec.ofFn_apply, hstep, Vec.ofFn_apply, sub_self, add_zero]

/-- **A stationary point is the only solution**: the residuals at any other are longer. -/
theorem IsStationary.residuals_lt (h : P.IsStationary A b p)
    (hJ : LinearIndependent ℝ (P.jacobian A).toMatrix.col) {q : Vec ℝ n} (hq : q ≠ p) :
    (P.affineAt A b p).residuals.get ⬝ᵥ (P.affineAt A b p).residuals.get <
      (P.affineAt A b q).residuals.get ⬝ᵥ (P.affineAt A b q).residuals.get := by
  have hne : (Vec.ofFn fun i => q i - p i) ≠ Vec.ofFn fun i => p i - p i := fun heq =>
    hq (Vec.ext fun i => by
      have hi := congrArg (fun v : Vec ℝ n => v i) heq
      simpa only [Vec.ofFn_apply, sub_left_inj] using hi)
  rw [← gap_sub (p := p) p, ← gap_sub (p := p) q]
  exact pow_lt_pow_left₀ (h.isNormal.gap_lt hJ hne) (Mat.gap_nonneg _ _ _) two_ne_zero

/-- Any other point has a larger misfit. -/
theorem IsStationary.misfit_lt [Exact.Factorizations] {W : Matrix (Fin m) (Fin m) ℝ}
    (h : P.IsStationary A b p) (hW : WeightRoot.Weighs W P.weight)
    (hJ : LinearIndependent ℝ (P.jacobian A).toMatrix.col) {q : Vec ℝ n} (hq : q ≠ p) :
    P.misfit W (A.affine b p) < P.misfit W (A.affine b q) := by
  rw [misfit_eq hW, misfit_eq hW]
  exact h.residuals_lt hJ hq

end Problem

/-! ## The run -/

namespace GaussNewton

section Run

variable [Exact.Factorizations] {P : Problem σ ℝ m n} {A : Mat ℝ m n} {b : Vec ℝ m}
  {W : Matrix (Fin m) (Fin m) ℝ} {method : Method} {c : Checker σ ℝ}

/-- The verdict on two evaluations is what the checker answers. -/
theorem consult_after {iteration : Nat} {previous current : Evaluation ℝ m n} {v : Bool} {w w' : σ}
    (h : (c.converged iteration previous current).after w = (.ok v, w')) :
    (consult c iteration (some previous) current).after w = (.ok (some v), w') := by
  change (some <$> c.converged iteration previous current).after w = _
  rw [map_eq_pure_bind, Act.after_bind, h]
  rfl

/-- **The first step leads to a stationary point**, and the second or the third iteration returns
it. -/
theorem exists_optimize_affine (hmodel : P.model.IsAffine A b) (hv : P.validator = none)
    (hchecker : P.checker = some c) (hc : c.Accepted)
    (hJ : LinearIndependent ℝ (P.jacobian A).toMatrix.col)
    (haccepts : method.Accepts (P.jacobian A)) (hexact : method.IsExact (P.jacobian A))
    (hE : 3 ≤ P.maxEvaluations) (hI : 3 ≤ P.maxIterations) (w : σ) :
    ∃ p k, (optimize (some method) P w).result = .ok ⟨P.affineAt A b p, k, k⟩ ∧
      (k = 2 ∨ k = 3) ∧ P.IsStationary A b p := by
  have hm : 0 < m := hmodel.rows_pos w
  have hstep (e : Evaluation ℝ m n) (he : e.jacobian = P.jacobian A) :
      ∃ x, Method.solveBy (some method) e.jacobian e.residuals = .ok x ∧
        IsNormal e.jacobian e.residuals x :=
    Method.exists_solve (he ▸ haccepts) (he ▸ hexact) e.residuals
  obtain ⟨evaluations, hevaluations⟩ : ∃ k, P.maxEvaluations.toNat = k + 3 :=
    ⟨P.maxEvaluations.toNat - 3, by omega⟩
  obtain ⟨iterations, hiterations⟩ : ∃ k, P.maxIterations.toNat = k + 3 :=
    ⟨P.maxIterations.toNat - 3, by omega⟩
  have hreturns {r : Run σ ℝ m n} (hr : Runs (some method) c P (iterations + 3) (evaluations + 3) 0
      none P.start w r) : (optimize (some method) P w).result = r.result :=
    congrArg Run.result
      (Runs.eq_optimize hchecker (by omega) (by omega) (hevaluations ▸ hiterations ▸ hr)).symm
  obtain ⟨x, hsolve, hx⟩ := hstep (P.affineAt A b P.start) rfl
  set p : Vec ℝ n := Vec.ofFn fun i => P.start i + x i
  have hp : P.IsStationary A b p := Problem.isStationary_step hx
  obtain ⟨w₁, he₁⟩ := hmodel.evaluation hv P.start w
  obtain ⟨w₂, he₂⟩ := hmodel.evaluation hv p w₁
  obtain ⟨v, hask, -⟩ := hc.answers hm 2 (P.affineAt A b P.start) (P.affineAt A b p) w₂
  have hfirst : (consult c 1 none (P.affineAt A b P.start)).after w₁ = (.ok none, w₁) := rfl
  by_cases hstop : v = true
  · subst hstop
    exact ⟨p, 2, hreturns (.stepped he₁ hfirst (by simp) hsolve
      (.stopped he₂ (consult_after hask))), .inl rfl, hp⟩
  · obtain ⟨x', hsolve', hx'⟩ := hstep (P.affineAt A b p) rfl
    have hstay : (Vec.ofFn fun i => p i + x' i) = p := hp.step_eq hJ hx'
    obtain ⟨w₃, he₃⟩ := hmodel.evaluation hv p w₂
    obtain ⟨v', hask', hself⟩ := hc.answers hm 3 (P.affineAt A b p) (P.affineAt A b p) w₃
    obtain rfl : v' = true := hself rfl
    rw [← hstay] at he₃
    have hagain : (consult c 3 (some (P.affineAt A b p))
        (P.affineAt A b (Vec.ofFn fun i => p i + x' i))).after w₃ = (.ok (some true), w₃) := by
      rw [hstay]
      exact consult_after hask'
    have hrun := hreturns (.stepped he₁ hfirst (by simp) hsolve
      (.stepped he₂ (consult_after hask) (fun h => hstop (Option.some.inj h)) hsolve'
        (.stopped he₃ hagain)))
    rw [← hstay] at hp
    exact ⟨_, 3, hrun, .inr rfl, hp⟩

/-- **An affine problem is solved in one step**. -/
theorem optimize_affine (hmodel : P.model.IsAffine A b) (hv : P.validator = none)
    (hW : WeightRoot.Weighs W P.weight) (hchecker : P.checker = some c) (hc : c.Accepted)
    (hJ : LinearIndependent ℝ (P.jacobian A).toMatrix.col)
    (haccepts : method.Accepts (P.jacobian A)) (hexact : method.IsExact (P.jacobian A))
    (hE : 3 ≤ P.maxEvaluations) (hI : 3 ≤ P.maxIterations) (w : σ) :
    ∃ found, (optimize (some method) P w).result = .ok found ∧
      found.evaluations = found.iterations ∧ (found.iterations = 2 ∨ found.iterations = 3) ∧
      ∀ p, p ≠ found.evaluation.point →
        P.misfit W (A.affine b found.evaluation.point) < P.misfit W (A.affine b p) := by
  obtain ⟨p, k, hr, hk, hp⟩ :=
    exists_optimize_affine hmodel hv hchecker hc hJ haccepts hexact hE hI w
  exact ⟨_, hr, rfl, hk, fun q hq => hp.misfit_lt hW hJ hq⟩

end Run

/-! ## An example

The mean of `0` and `4` with the weights `1` and `3`. -/

/-- One column of ones. -/
noncomputable def ones : Mat ℝ 2 1 := Mat.ofFn fun _ _ => 1

/-- The weights. -/
noncomputable def meanWeights : Vec ℝ 2 := Vec.ofFn fun i => ((![1, 3] i : Nat) : ℝ)

/-- The problem of a weighted mean, with just the budgets that it needs. -/
noncomputable def meanProblem : Problem Unit ℝ 2 1 where
  model := affineModel ones (Vec.replicate 2 0)
  target := Vec.ofFn fun i => ((![0, 4] i : Nat) : ℝ)
  start := Vec.replicate 1 1
  weight := some (.diagonal (meanWeights.map sqrt))
  checker := some (.entries .point (.int 0) (.int 1) Checker.noLimit)
  maxEvaluations := 3
  maxIterations := 3
  deferred := false
  validator := none

theorem mean_jacobian (i : Fin 2) : meanProblem.jacobian ones i 0 = √(meanWeights i) := by
  change (WeightRoot.diagonal _).weighJacobian ones i 0 = _
  unfold WeightRoot.weighJacobian ones
  simp only [Mat.ofFn_apply, Vec.map_apply, mul_one]
  rfl

theorem mean_independent : LinearIndependent ℝ (meanProblem.jacobian ones).toMatrix.col := by
  refine LinearIndependent.of_subsingleton 0 fun h => ?_
  have h0 : meanProblem.jacobian ones 0 0 = 0 := congrFun h 0
  rw [mean_jacobian, meanWeights, Vec.ofFn_apply] at h0
  simp at h0

theorem mean_accepts [Exact.Factorizations] : Method.lu.Accepts (meanProblem.jacobian ones) := by
  intro i
  rw [LowerUpper.diagonal_single, Mat.gram_apply, Exact.sum_eq, Fin.sum_univ_two, mean_jacobian,
    mean_jacobian]
  have hone : √(meanWeights 0) * √(meanWeights 0) = 1 := by simp [meanWeights]
  have hthree : √(meanWeights 1) * √(meanWeights 1) = 3 := by simp [meanWeights]
  rw [hone, hthree, Method.negligible]
  norm_num

theorem mean_checker : (Checker.entries .point (.int 0) (.int 1) Checker.noLimit :
    Checker Unit ℝ).Accepted := by
  have h : Checker.ofThresholds .point (.int 0) (.int 1) Checker.noLimit =
      (.ok (.entries .point (.int 0) (.int 1) Checker.noLimit) :
        Except (Failure ℝ) (Checker Unit ℝ)) := rfl
  exact .entries h

theorem optimize_affine_mean :
    let _ := Exact.factorizations
    ∃ found, (optimize (some .lu) meanProblem ()).result = .ok found ∧
      found.evaluations = found.iterations ∧ (found.iterations = 2 ∨ found.iterations = 3) ∧
      ∀ p, p ≠ found.evaluation.point →
        meanProblem.misfit (Matrix.diagonal meanWeights.get)
            (ones.affine (Vec.replicate 2 0) found.evaluation.point) <
          meanProblem.misfit (Matrix.diagonal meanWeights.get)
            (ones.affine (Vec.replicate 2 0) p) := by
  intro _
  have hpositive : ¬ ∃ i, meanWeights i < 0 := by
    rintro ⟨i, hi⟩
    rw [meanWeights, Vec.ofFn_apply] at hi
    exact absurd hi (not_lt.mpr (Nat.cast_nonneg _))
  have hroot : WeightRoot.ofVector meanWeights =
      (.ok (.diagonal (meanWeights.map sqrt)) : Except (Failure ℝ) _) := if_neg hpositive
  have hweight : WeightRoot.Weighs (Matrix.diagonal meanWeights.get) meanProblem.weight :=
    .vector hroot
  exact optimize_affine (affineModel_isAffine ones Nat.two_pos _) rfl hweight rfl mean_checker
    mean_independent mean_accepts (fun h => by cases h) le_rfl le_rfl ()

end GaussNewton

end LeastSquares
