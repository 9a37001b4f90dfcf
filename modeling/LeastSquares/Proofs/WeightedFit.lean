import Mathlib.Analysis.SpecialFunctions.Trigonometric.Arctan
import LeastSquares.Fit
import LeastSquares.Proofs.Construction
import LeastSquares.Proofs.Covariances
import LeastSquares.Proofs.OneStep

/-!
# A linear fit in closed form

A whole fit of a linear model `A p` by the Gauss-Newton method in exact arithmetic, from the parts
as they were given to the report. With a weight `W` and the observations `y`, the report says of the
estimates `b` what the textbook says of weighted least squares:

* `b = (AᵀWA)⁻¹ AᵀWy`,
* the residual variance is `s² = (y - A b)ᵀ W (y - A b) / (m - n)`,
* the covariances are `s² (AᵀWA)⁻¹`, and the standard errors the roots of their diagonal.

The weight acts through a root `S` with `Sᵀ S = W`, so the solver and the covariances only see the
weighted Jacobian `S A`. What is asked of it is that neither of them refuses it (`Fit.Accepts`).

Results:
* `WeightRoot.Given.exists_root`: every vector without a negative entry and every semidefinite
  matrix is accepted as a weight, and the root that is taken of it is one;
* `Problem.IsStationary.eq_estimate`: a stationary point is the closed form;
* `Report.ofOptimum_eq`: what a report is made of where there is inference;
* `Fit.run_linear`: the fit.
-/

namespace LeastSquares

open Matrix

variable {σ : Type} {m n : Nat}

/-! ## Weights as they are given -/

/-- The list of a vector, as a vector with its size. -/
theorem Vec.ofList_toList {α : Type} (v : Vec α m) :
    (⟨_, ofList v.toList⟩ : (k : Nat) × Vec α k) = ⟨m, v⟩ := by
  obtain ⟨⟨entries, rfl⟩⟩ := v
  rfl

namespace Nested

variable {α : Type}

theorem shapeOf_ofList (xs : List α) : (ofList xs).shapeOf = .ok [xs.length] := by
  unfold shapeOf
  rw [shape?_ofList]
  rfl

end Nested

namespace WeightRoot

/-- A vector without a negative entry has a root. -/
theorem ofVector_eq {w : Vec ℝ m} (h : ∀ i, 0 ≤ w i) : ofVector w = .ok (.diagonal (w.map sqrt)) :=
  if_neg fun ⟨i, hi⟩ => (h i).not_gt hi

variable [Exact.Factorizations]

/-- A semidefinite matrix has a root, if its eigenvectors are exact. -/
theorem exists_ofMatrix {W : Mat ℝ m m} (hW : W.toMatrix.PosSemidef)
    (he : (Spectral.eigen W).Factors W) : ∃ root, ofMatrix W = .ok root := by
  have hsymmetric : isSymmetric W = true := by
    refine decide_eq_true fun i j => ?_
    have hij : W i j = W j i := congrFun (congrFun hW.isHermitian j) i
    rw [hij, sub_self]
    exact abs_zero.trans_le (add_nonneg (by norm_num) (mul_nonneg (by norm_num) (abs_nonneg _)))
  have hmagnitude := Exact.le_foldl_larger
    (fun i => Scalar.abs ((Spectral.eigen W).values i)) 1
  unfold ofMatrix
  simp only [hsymmetric, Bool.true_eq_false, if_false]
  rw [if_neg]
  · exact ⟨_, rfl⟩
  · rintro ⟨i, hi⟩
    have hvalue := eigen_nonneg he hW i
    have hcutoff : (0 : ℝ) ≤ 1e-12 * _ := mul_nonneg (by norm_num) (zero_le_one.trans hmagnitude)
    linarith

/-- **A weight as it is given**: none, a vector without a negative entry, or a positive semidefinite
matrix whose eigenvectors are exact. -/
inductive Given : Matrix (Fin m) (Fin m) ℝ → Option (Nested ℝ) → Prop
  | none : Given 1 none
  | vector {w : Vec ℝ m} (h : ∀ i, 0 ≤ w i) :
      Given (Matrix.diagonal w.get) (some (.ofList w.toList))
  | matrix {W : Mat ℝ m m} (hW : W.toMatrix.PosSemidef) (he : (Spectral.eigen W).Factors W) :
      Given W.toMatrix (some (.ofLists W.toLists))

/-- The root of a vector that is given as a list. -/
theorem ofNested_ofList {w : Vec ℝ m} {root : WeightRoot ℝ m} (h : ofVector w = .ok root) :
    ofNested (.ofList w.toList) = .ok ⟨m, root⟩ := by
  have hread (xs : List ℝ) : ofNested (.ofList xs) =
      (ofVector (Vec.ofList xs)).map (Sigma.mk xs.length) := by
    unfold ofNested
    rw [Nested.shapeOf_ofList, Nested.flatten_ofList]
    cases ofVector (Vec.ofList xs) <;> rfl
  have hsize := congrArg (fun v : (k : Nat) × Vec ℝ k => (ofVector v.2).map (Sigma.mk v.1))
    w.ofList_toList
  rw [hread]
  refine hsize.trans ?_
  simp only [h]
  rfl

/-- The root of a matrix that is given as the list of its rows. -/
theorem ofNested_ofLists {W : Mat ℝ m m} {root : WeightRoot ℝ m} (hm : 0 < m)
    (h : ofMatrix W = .ok root) : ofNested (.ofLists W.toLists) = .ok ⟨m, root⟩ := by
  have hcheck : (Nested.ofLists W.toLists).checkMatrix "weight" true = .ok (m, m, W.toLists) := by
    have hall : (W.toLists.all fun row => row.all isFinite) = true :=
      List.all_eq_true.mpr fun row _ => List.all_eq_true.mpr fun _ _ => rfl
    unfold Nested.checkMatrix
    rw [Nested.matrixRows_ofLists W hm]
    simp only [bind, Except.bind, hall, Bool.not_true, Bool.and_false]
    rfl
  unfold ofNested
  rw [Nested.shapeOf_ofLists W hm]
  simp only [bind, Except.bind, hcheck, Mat.ofLists?_toLists, h]
  rfl

/-- **Every such weight is accepted**, and acts through a root of it. -/
theorem Given.exists_root {W : Matrix (Fin m) (Fin m) ℝ} {given : Option (Nested ℝ)}
    (hm : 0 < m) (h : Given W given) :
    ∃ root, Problem.weightOf given m = .ok root ∧ Weighs W root := by
  have hsome {a : Nested ℝ} {root : WeightRoot ℝ m} (ha : ofNested a = .ok ⟨m, root⟩) :
      Problem.weightOf (some a) m = .ok (some root) := by
    unfold Problem.weightOf
    simp only [ha, bind, Except.bind, dif_pos]
    rfl
  cases h with
  | none => exact ⟨_, rfl, .none⟩
  | vector h => exact ⟨_, hsome (ofNested_ofList (ofVector_eq h)), .vector (ofVector_eq h)⟩
  | matrix hW he =>
    obtain ⟨root, hroot⟩ := exists_ofMatrix hW he
    exact ⟨_, hsome (ofNested_ofLists hm hroot), .matrix hW he hroot⟩

end WeightRoot

/-! ## Budgets as they are given -/

/-- A number that is at least a positive integer is a budget, and so is its whole part. -/
theorem Number.exists_toCount {x : Number ℝ} {c : Int} (hc : 0 < c) (h : (c : ℝ) ≤ x.value) :
    x.isNonpositive = false ∧ ∃ k, x.toCount = (.ok k : Except (Failure ℝ) Int) ∧ c ≤ k := by
  have hpos : 0 < x.value := (Int.cast_pos.mpr hc).trans_le h
  refine ⟨Bool.eq_false_iff.mpr fun hx => hpos.not_ge ((isNonpositive_iff x).mp hx), ?_⟩
  cases x with
  | int k => exact ⟨k, rfl, Int.cast_le.mp (value_int k ▸ h)⟩
  | real x =>
    have hcut : Scalar.truncate x = ⌊x⌋ := if_pos hpos.le
    refine ⟨⌊x⌋, ?_, Int.le_floor.mpr h⟩
    unfold toCount
    simp only [Exact.isUndefined_eq, hcut]
    rfl

/-! ## The closed forms -/

namespace Weighted

variable (A : Matrix (Fin m) (Fin n) ℝ) (W : Matrix (Fin m) (Fin m) ℝ) (y : Fin m → ℝ)

/-- The matrix of the weighted normal equations. -/
def normal : Matrix (Fin n) (Fin n) ℝ := Aᵀ * W * A

/-- The weighted least-squares estimates. -/
noncomputable def estimate : Fin n → ℝ := (normal A W)⁻¹ *ᵥ (Aᵀ *ᵥ (W *ᵥ y))

/-- The residual variance at the estimates. -/
noncomputable def variance : ℝ :=
  (y - A *ᵥ estimate A W y) ⬝ᵥ W *ᵥ (y - A *ᵥ estimate A W y) / (m - n)

/-- The covariances of the estimates. -/
noncomputable def covariances : Matrix (Fin n) (Fin n) ℝ := variance A W y • (normal A W)⁻¹

variable {A W}

/-- The products of the columns of the weighted Jacobian. -/
theorem gram_eq {S : Matrix (Fin m) (Fin m) ℝ} {J : Matrix (Fin m) (Fin n) ℝ} (hJ : J = S * A)
    (hS : Sᵀ * S = W) : Jᵀ * J = normal A W := by
  rw [hJ, transpose_mul, normal, ← hS]
  simp only [Matrix.mul_assoc]

end Weighted

/-- **A report in closed form**: what it says of the estimates of a linear model `A p` for the
observations `y` with the weight `W`. -/
structure Report.IsOf (r : Report ℝ m n) (A : Matrix (Fin m) (Fin n) ℝ)
    (W : Matrix (Fin m) (Fin m) ℝ) (y : Fin m → ℝ) : Prop where
  /-- The inverses below are inverses. -/
  invertible : IsUnit (Weighted.normal A W).det
  coefficients : r.coefficients.get = Weighted.estimate A W y
  freedom : r.freedom = m - n
  residualVariance : r.residualVariance = some (Weighted.variance A W y)
  regular : r.singular = false
  /-- The standard errors are also those that the evaluation itself knows of, times the residual
  standard deviation. -/
  inference : ∃ i sigma, r.inference = some i ∧
    Jacobian.sigma r.optimum.evaluation.jacobian Jacobian.defaultThreshold = .ok sigma ∧
    i.covariances.toMatrix = Weighted.covariances A W y ∧
    ∀ c, i.standardErrors c = √(Weighted.covariances A W y c c) ∧
      i.standardErrors c = √(Weighted.variance A W y) * sigma c

namespace Problem

variable {P : Problem σ ℝ m n} {A : Mat ℝ m n} {W : Matrix (Fin m) (Fin m) ℝ} {p : Vec ℝ n}

/-- The residuals of a linear model. -/
theorem residuals_linear (p : Vec ℝ n) :
    (P.affineAt A (Vec.replicate m 0) p).residuals.get =
      WeightRoot.matrixOf P.weight *ᵥ (P.target.get - A.toMatrix *ᵥ p.get) := by
  have hvalue : (A.affine (Vec.replicate m 0) p).get = A.toMatrix *ᵥ p.get := by
    funext i
    refine (Vec.ofFn_apply _ i).trans ?_
    rw [Vec.replicate_apply, add_zero, Mat.mulVec_get]
  change (P.residuals _).get = _
  rw [residuals_get, hvalue]

/-- **A stationary point is the closed form**, if the normal equations have one solution. -/
theorem IsStationary.eq_estimate (h : P.IsStationary A (Vec.replicate m 0) p)
    (hW : (WeightRoot.matrixOf P.weight)ᵀ * WeightRoot.matrixOf P.weight = W)
    (hunit : IsUnit (Weighted.normal A.toMatrix W).det) :
    p.get = Weighted.estimate A.toMatrix W P.target.get := by
  have hzero : A.toMatrixᵀ *ᵥ (W *ᵥ (P.target.get - A.toMatrix *ᵥ p.get)) = 0 := by
    rw [IsStationary, residuals_linear, jacobian_toMatrix, transpose_mul, mulVec_mulVec] at h
    rw [mulVec_mulVec, ← hW, ← Matrix.mul_assoc]
    exact h
  have hnormal : A.toMatrixᵀ *ᵥ (W *ᵥ P.target.get) = Weighted.normal A.toMatrix W *ᵥ p.get := by
    rw [mulVec_sub, mulVec_sub, sub_eq_zero] at hzero
    rw [hzero, Weighted.normal]
    simp only [mulVec_mulVec, Matrix.mul_assoc]
  rw [Weighted.estimate, hnormal, mulVec_mulVec, nonsing_inv_mul _ hunit, one_mulVec]

/-- The squared length of the residuals. -/
theorem chiSquare_linear
    (hW : (WeightRoot.matrixOf P.weight)ᵀ * WeightRoot.matrixOf P.weight = W) (p : Vec ℝ n) :
    Residuals.chiSquare (P.affineAt A (Vec.replicate m 0) p).residuals =
      (P.target.get - A.toMatrix *ᵥ p.get) ⬝ᵥ W *ᵥ (P.target.get - A.toMatrix *ᵥ p.get) := by
  have hdot : Residuals.chiSquare (P.affineAt A (Vec.replicate m 0) p).residuals =
      (P.affineAt A (Vec.replicate m 0) p).residuals.get ⬝ᵥ
        (P.affineAt A (Vec.replicate m 0) p).residuals.get := Exact.dot_eq _ _
  rw [hdot, residuals_linear, ← hW, ← mulVec_mulVec, dotProduct_mulVec _ (_ᵀ), vecMul_transpose]

end Problem

/-! ## The report -/

namespace Report

/-- The residual variance, where there are more observations than parameters. -/
theorem reducedChiSquare_eq (hmn : n < m) (r : Vec ℝ m) :
    Residuals.reducedChiSquare r (.int n) = .ok (Residuals.chiSquare r / (m - n)) := by
  have hvalue : ((Number.countLess m (.int n) : Number ℝ)).value = m - n := by
    rw [Number.countLess, Number.value_int]
    push_cast
    rfl
  unfold Residuals.reducedChiSquare
  rw [if_neg, hvalue]
  rw [Number.isNonpositive_iff, hvalue, not_le, sub_pos]
  exact Nat.cast_lt.mpr hmn

/-- Names are accepted if they are as many as the parameters, and so are those that stand in. -/
theorem exists_namesFor {names : Option (List String)}
    (h : ∀ l, names = some l → l.length = n) :
    ∃ l, namesFor names n = (.ok l : Except (Failure ℝ) _) := by
  refine ⟨names.getD (defaultNames n), if_pos ?_⟩
  cases names with
  | none =>
    change (defaultNames n).length = n
    rw [defaultNames, List.length_map, List.length_range]
  | some l => exact h l rfl

variable [StudentT ℝ]

theorem infer_covariances (estimates : Vec ℝ n) (freedom : Nat) (v : ℝ) (C : Mat ℝ n n)
    (c d : Fin n) : (infer estimates freedom v C).covariances c d = C c d * v :=
  Mat.map_apply _ C c d

theorem infer_standardErrors (estimates : Vec ℝ n) (freedom : Nat) (v : ℝ) (C : Mat ℝ n n)
    (c : Fin n) : (infer estimates freedom v C).standardErrors c = √(C c c * v) :=
  (Vec.ofFn_apply _ c).trans (congrArg Real.sqrt (Mat.map_apply _ C c c))

/-- **A report with inference**: what it is made of where there are more observations than
parameters and the covariances are found. -/
theorem ofOptimum_eq {e : Evaluation ℝ m n} {names : Option (List String)} {l : List String}
    {threshold : Number ℝ} {v : ℝ} {C : Mat ℝ n n}
    (hnames : namesFor names n = (.ok l : Except (Failure ℝ) _)) (hmn : n < m)
    (hv : Residuals.chiSquare e.residuals / (m - n) = v)
    (hC : Jacobian.covariances e.jacobian threshold = .ok C) (evaluations iterations : Nat)
    (name : String) :
    ofOptimum ⟨e, evaluations, iterations⟩ names name threshold = .ok
      { optimum := ⟨e, evaluations, iterations⟩
        optimizerName := name
        names := l
        rms := sqrt (e.cost * e.cost / (m : ℝ))
        residualVariance := some v
        singular := false
        inference := some (infer e.point (m - n) v C) } := by
  have hrms := e.rms_eq (Nat.zero_lt_of_lt hmn)
  have hvariance : Residuals.reducedChiSquare e.residuals (.int n) = .ok v :=
    hv ▸ reducedChiSquare_eq hmn e.residuals
  have hinverse : inverseOf e.jacobian threshold = .ok (some C) := by
    unfold inverseOf
    rw [hC]
  unfold ofOptimum
  simp only [hnames, bind, Except.bind, hrms, hvariance, hinverse]
  rfl

/-- **The report at a stationary point** is in closed form, if every pivot passes the threshold. -/
theorem exists_ofOptimum {P : Problem σ ℝ m n} {A : Mat ℝ m n} {W : Matrix (Fin m) (Fin m) ℝ}
    {p : Vec ℝ n} (h : P.IsStationary A (Vec.replicate m 0) p)
    (hW : (WeightRoot.matrixOf P.weight)ᵀ * WeightRoot.matrixOf P.weight = W)
    (hpivots : ∀ k, (Jacobian.defaultThreshold : Number ℝ).value <
      |Jacobian.pivots (P.jacobian A) k|)
    (hmn : n < m) {names : Option (List String)} (hnames : ∀ l, names = some l → l.length = n)
    (evaluations iterations : Nat) (name : String) :
    ∃ report, ofOptimum ⟨P.affineAt A (Vec.replicate m 0) p, evaluations, iterations⟩ names name
        Jacobian.defaultThreshold = .ok report ∧ report.IsOf A.toMatrix W P.target.get := by
  obtain ⟨l, hl⟩ := exists_namesFor hnames
  obtain ⟨C, hC, hinverse⟩ := Jacobian.exists_covariances Jacobian.defaultThreshold_nonneg hpivots
  have hunit := Jacobian.isUnit_det_gram
    (Jacobian.pivots_ne_zero Jacobian.defaultThreshold_nonneg hpivots)
  rw [Weighted.gram_eq (P.jacobian_toMatrix A) hW] at hinverse hunit
  have hp := h.eq_estimate hW hunit
  have hfreedom : (0 : ℝ) ≤ m - n := sub_nonneg.mpr (Nat.cast_le.mpr hmn.le)
  have hvariance : Residuals.chiSquare (P.affineAt A (Vec.replicate m 0) p).residuals / (m - n) =
      Weighted.variance A.toMatrix W P.target.get := by
    rw [Problem.chiSquare_linear hW, hp, Weighted.variance]
  have hnonneg : 0 ≤ Weighted.variance A.toMatrix W P.target.get := by
    rw [← hvariance, Residuals.chiSquare, Exact.dot_eq]
    exact div_nonneg (Finset.sum_nonneg fun i _ => mul_self_nonneg _) hfreedom
  have hcovariances (c d : Fin n) : C c d * Weighted.variance A.toMatrix W P.target.get =
      Weighted.covariances A.toMatrix W P.target.get c d := by
    rw [Weighted.covariances, Matrix.smul_apply, ← hinverse, smul_eq_mul, mul_comm]
    rfl
  refine ⟨_, ofOptimum_eq hl hmn hvariance hC evaluations iterations name, hunit, hp, rfl, rfl, rfl,
    ?_⟩
  refine ⟨_, _, rfl, Jacobian.sigma_eq hC, ?_, fun c => ⟨?_, ?_⟩⟩
  · ext c d
    exact (infer_covariances _ _ _ C c d).trans (hcovariances c d)
  · rw [infer_standardErrors, hcovariances]
  · rw [infer_standardErrors, mul_comm, Real.sqrt_mul hnonneg, Vec.ofFn_apply]

end Report

/-! ## The fit -/

namespace Fit

/-- The method is had by any of its names, with any solver that has the name that is given. -/
theorem optimizerOf_name {s solver : String} {method : Method}
    (hs : Optimizer.fullName s = "gauss-newton")
    (hsolver : Method.ofName? (Optimizer.lowered solver) = some method) :
    optimizerOf (.name s) [(Optimizer.decompositionName, .text solver)] =
      (.ok (.gaussNewton (some method)) : Except (Failure ℝ) _) := by
  have hmethod : Optimizer.methodOf solver = (.ok method : Except (Failure ℝ) Method) := by
    unfold Optimizer.methodOf
    rw [hsolver]
  unfold optimizerOf Optimizer.ofName Optimizer.withDecomposition
  simp only [hs, List.find?, bne_self_eq_false, hmethod]
  rfl

/-- The checker that stands in for none. -/
theorem accepted_default :
    (Checker.rms (.real 1e-10) (.real 1e-10) : Checker σ ℝ).Accepted := by
  have hnot : (Number.real 1e-10 : Number ℝ).isNegative = false :=
    decide_eq_false (not_lt.mpr (by norm_num))
  have hchecker : Checker.ofTolerances (.real 1e-10) (.real 1e-10) =
      (.ok (.rms (.real 1e-10) (.real 1e-10)) : Except (Failure ℝ) (Checker σ ℝ)) := by
    unfold Checker.ofTolerances
    rw [hnot]
    rfl
  exact .rms hchecker

variable [Exact.Factorizations]

/-- **What a linear fit is given**: the observations `ys`, the start `xs`, the model `A p` and the
weight `W`, budgets of at least three, and neither a checker nor a validator. -/
structure IsLinear (parts : ProblemParts σ ℝ) (ys xs : List ℝ) (A : Mat ℝ ys.length xs.length)
    (W : Matrix (Fin ys.length) (Fin ys.length) ℝ) : Prop where
  target : parts.target.checkVector "target" true = .ok ys
  start : parts.start.checkVector "start" true = .ok xs
  model : ∃ model, Problem.modelOf parts.model xs.length = (.ok model : Except (Failure ℝ) _) ∧
    model.IsAffine A (Vec.replicate ys.length 0)
  weight : WeightRoot.Given W parts.weight
  maxEvaluations : ∃ x, parts.maxEvaluations = .number x ∧ 3 ≤ x.value
  maxIterations : ∃ x, parts.maxIterations = .number x ∧ 3 ≤ x.value
  checker : parts.checker = .none
  validator : parts.validator = none

/-- **A weighted Jacobian that is not refused**: the solver of the steps accepts it, and every pivot
of its covariances passes the threshold. So its columns are linearly independent. -/
structure Accepts (method : Method) (J : Mat ℝ m n) : Prop where
  solver : method.Accepts J
  exact : method.IsExact J
  pivots : ∀ k, (Jacobian.defaultThreshold : Number ℝ).value < |Jacobian.pivots J k|

/-- **A linear problem** with the checker `c` and budgets that are enough for it. -/
structure Solves (P : Problem σ ℝ m n) (A : Mat ℝ m n) (W : Matrix (Fin m) (Fin m) ℝ)
    (c : Checker σ ℝ) : Prop where
  model : P.model.IsAffine A (Vec.replicate m 0)
  weight : WeightRoot.Weighs W P.weight
  checker : P.checker = some c
  validator : P.validator = none
  maxEvaluations : 3 ≤ P.maxEvaluations
  maxIterations : 3 ≤ P.maxIterations

/-- **The problem of a linear fit is built.** -/
theorem IsLinear.exists_create {parts : ProblemParts σ ℝ} {ys xs : List ℝ}
    {A : Mat ℝ ys.length xs.length} {W : Matrix (Fin ys.length) (Fin ys.length) ℝ}
    (h : IsLinear parts ys xs A W) (hm : 0 < ys.length) (c : Checker σ ℝ) :
    ∃ P : Problem σ ℝ ys.length xs.length,
      Problem.create { parts with checker := .checker c } = .ok ⟨_, _, P⟩ ∧
      Problem.weightOf parts.weight ys.length = .ok P.weight ∧ P.target = Vec.ofList ys ∧
      Solves P A W c := by
  obtain ⟨root, hroot, hweighs⟩ := h.weight.exists_root hm
  obtain ⟨model, hmodel, haffine⟩ := h.model
  obtain ⟨x, hx, hx3⟩ := h.maxEvaluations
  obtain ⟨y, hy, hy3⟩ := h.maxIterations
  obtain ⟨hxpos, j, hj, hj3⟩ := Number.exists_toCount (c := 3) (by decide) (by exact_mod_cast hx3)
  obtain ⟨hypos, k, hk, hk3⟩ := Number.exists_toCount (c := 3) (by decide) (by exact_mod_cast hy3)
  let r : Problem.Reading σ ℝ := ⟨ys, xs, model, root, x, y, some c, j, k⟩
  have hr : r.Of { parts with checker := .checker c } :=
    { target := h.target
      start := h.start
      model := hmodel
      weight := hroot
      evaluations := Problem.budgetOf_eq_ok_iff.mpr ⟨hx, hxpos⟩
      iterations := Problem.budgetOf_eq_ok_iff.mpr ⟨hy, hypos⟩
      checker := rfl
      maxEvaluations := hj
      maxIterations := hk }
  have hvalidator : (parts.validator.map fun f => f xs.length) = none := by
    rw [h.validator, Option.map_none]
  exact ⟨_, Problem.create_eq_ok_iff.mpr ⟨r, hr, rfl⟩, hroot, rfl, haffine, hweighs, rfl,
    hvalidator, hj3, hk3⟩

/-- **A linear problem ends with the report in closed form**, after two or three iterations. -/
theorem Solves.exists_report [StudentT ℝ] {P : Problem σ ℝ m n} {A : Mat ℝ m n}
    {W : Matrix (Fin m) (Fin m) ℝ} {c : Checker σ ℝ} (h : Solves P A W c) (hc : c.Accepted)
    {method : Method} (hJ : Accepts method (P.jacobian A)) (hmn : n < m)
    {names : Option (List String)} (hnames : ∀ l, names = some l → l.length = n) (w : σ) :
    ∃ optimum report, ((Optimizer.gaussNewton (some method)).optimize P w).result = .ok optimum ∧
      Report.ofOptimum optimum names "gauss-newton" Jacobian.defaultThreshold = .ok report ∧
      report.IsOf A.toMatrix W P.target.get := by
  have hpivots := Jacobian.pivots_ne_zero Jacobian.defaultThreshold_nonneg hJ.pivots
  obtain ⟨p, k, hresult, -, hp⟩ := GaussNewton.exists_optimize_affine h.model h.validator h.checker
    hc (Jacobian.linearIndependent hpivots) hJ.solver hJ.exact h.maxEvaluations h.maxIterations w
  obtain ⟨report, hreport, hclosed⟩ :=
    Report.exists_ofOptimum hp h.weight.gram_eq hJ.pivots hmn hnames k k "gauss-newton"
  exact ⟨_, report, hresult, hreport, hclosed⟩

/-- **Headline.** A linear fit by the Gauss-Newton method, with any of its solvers and with more
observations than parameters, ends with the report in closed form. All that is asked of the weighted
Jacobian `S A`, for the root `S` that is taken of the weight, is that it is not refused. -/
theorem run_linear [StudentT ℝ] {given : OptimizerGiven ℝ} {options : List (String × Setting ℝ)}
    {method : Method} (hmethod : optimizerOf given options = .ok (.gaussNewton (some method)))
    {parts : ProblemParts σ ℝ} {ys xs : List ℝ} {A : Mat ℝ ys.length xs.length}
    {W : Matrix (Fin ys.length) (Fin ys.length) ℝ} (h : IsLinear parts ys xs A W)
    (hmn : xs.length < ys.length)
    (haccepts : ∀ root (J : Mat ℝ ys.length xs.length),
      Problem.weightOf parts.weight ys.length = .ok root →
      J.toMatrix = WeightRoot.matrixOf root * A.toMatrix → Accepts method J)
    {names : Option (List String)} (hnames : ∀ l, names = some l → l.length = xs.length) (w : σ) :
    ∃ report, run given options parts names w = .ok ⟨_, _, report⟩ ∧
      report.IsOf A.toMatrix W (Vec.ofList ys).get := by
  obtain ⟨P, hcreate, hroot, htarget, hP⟩ :=
    h.exists_create (by omega) (.rms (.real 1e-10) (.real 1e-10))
  obtain ⟨optimum, report, hsolve, hreport, hclosed⟩ := hP.exists_report accepted_default
    (haccepts _ _ hroot (P.jacobian_toMatrix A)) hmn hnames w
  have hname : (Optimizer.gaussNewton (some method) : Optimizer ℝ).name = "gauss-newton" := rfl
  refine ⟨report, ?_, htarget ▸ hclosed⟩
  unfold run
  simp only [hmethod, bind, Except.bind, checkerOf, h.checker, hcreate, hsolve]
  rw [hname, hreport]
  rfl

/-! ## An example

The weighted mean of `0` and `4`, fitted with a solver that is had by its name. -/

/-- The parts of the weighted mean. -/
noncomputable def meanParts : ProblemParts Unit ℝ where
  model := .joint fun n p =>
    (affineModel (Mat.ofFn fun _ _ => 1 : Mat ℝ 2 n) (Vec.replicate 2 0)).call p
  target := .ofList [0, 4]
  start := .ofList [1]
  weight := some (.ofList GaussNewton.meanWeights.toList)
  checker := .none
  maxEvaluations := .number (.int 3)
  maxIterations := .number (.int 3)
  deferred := false
  validator := none

theorem meanParts_isLinear : IsLinear meanParts [0, 4] [1] GaussNewton.ones
    (Matrix.diagonal GaussNewton.meanWeights.get) where
  target := Nested.checkVector_ofList rfl _
  start := Nested.checkVector_ofList rfl _
  model := ⟨_, rfl, affineModel_isAffine GaussNewton.ones Nat.two_pos _⟩
  weight := .vector fun i => by
    rw [GaussNewton.meanWeights, Vec.ofFn_apply]
    exact Nat.cast_nonneg _
  maxEvaluations := ⟨_, rfl, by rw [Number.value_int]; norm_num⟩
  maxIterations := ⟨_, rfl, by rw [Number.value_int]; norm_num⟩
  checker := rfl
  validator := rfl

/-- The sum of the weights is the only product of columns, far from negligible. -/
theorem meanParts_accepts {J : Mat ℝ 2 1} {root : Option (WeightRoot ℝ 2)}
    (hroot : Problem.weightOf meanParts.weight 2 = .ok root)
    (hJ : J.toMatrix = WeightRoot.matrixOf root * GaussNewton.ones.toMatrix) : Accepts .lu J := by
  obtain ⟨root', hroot', hweighs⟩ := meanParts_isLinear.weight.exists_root Nat.two_pos
  obtain rfl := Except.ok.inj (hroot'.symm.trans hroot)
  have hgram : J.gram 0 0 = 4 := by
    have h := congrFun (congrFun (Weighted.gram_eq hJ hweighs.gram_eq) 0) 0
    rw [← Mat.gram_toMatrix] at h
    refine h.trans ?_
    simp [Weighted.normal, Matrix.mul_apply, Fin.sum_univ_two, GaussNewton.ones,
      GaussNewton.meanWeights, Mat.toMatrix]
    norm_num
  refine ⟨fun i => ?_, (fun h => by cases h), Jacobian.defaultThreshold_lt_single ?_⟩
  · rw [LowerUpper.diagonal_single, hgram, Method.negligible]
    norm_num
  · rw [hgram]
    norm_num

/-- Student's distribution of one degree of freedom, which is all that two observations of one
parameter ask for. -/
noncomputable abbrev oneFreedom : StudentT ℝ where
  upperTail _ t := 0.5 - Real.arctan t / Real.pi
  quantile _ q := Real.tan (Real.pi * (q - 0.5))

omit [Exact.Factorizations] in
theorem run_linear_mean :
    let _ := Exact.factorizations
    let _ := oneFreedom
    ∃ report, run (.name "gauss-newton") [("decomposition", .text "lu")] meanParts (some ["mean"])
        () = .ok ⟨2, 1, report⟩ ∧
      report.IsOf GaussNewton.ones.toMatrix (Matrix.diagonal GaussNewton.meanWeights.get)
        (Vec.ofList [0, 4]).get := by
  intro _ _
  exact run_linear (optimizerOf_name (by decide +kernel) (by decide +kernel)) meanParts_isLinear
    (by decide) (fun _ _ hroot hJ => meanParts_accepts hroot hJ)
    (fun l h => by cases h; rfl) ()

end Fit

end LeastSquares
