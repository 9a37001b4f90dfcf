import LeastSquares.Proofs.AffineTrials
import LeastSquares.Proofs.GramPivots
import LeastSquares.Proofs.ParallelRuns

/-!
# What a run knows of the observations

With no more parameters than observations, the trust-region method knows the observations by the
cost and by the products `Jᵀ J` and `Jᵀ r` alone. Two problems for which these are the same
everywhere have parallel runs, whatever the ranks of their Jacobians, although every reflection and
all that is stored of a decomposition may differ: the pivots, ties included, are decided by
`Jᵀ J` (`LeastSquares.Proofs.GramPivots`), and the search for the damping parameter by the columns
(`LeastSquares.Proofs.Charts`, for the parameters as they are).

The observations may be exchanged, taken together with a rotation, or stand beside others that have
no weight: residuals and Jacobian are multiplied by a matrix with orthonormal columns then.

Results:
* `sameGram_of_isometry`: a matrix with orthonormal columns leaves cost and products the same;
* `LevenbergMarquardt.optimize_sameGram`: parallel courses for the same cost and products.
-/

namespace LeastSquares

open Matrix Decomposition LevenbergMarquardt

variable {σ σ' : Type} {m m' n : Nat}

/-- **The same cost and the same products**, of residuals and a Jacobian. -/
structure SameGram (r : Vec ℝ m) (J : Mat ℝ m n) (r' : Vec ℝ m') (J' : Mat ℝ m' n) : Prop where
  cost_eq : Residuals.cost r' = Residuals.cost r
  gram_eq : J'.gram = J.gram
  moment_eq : J'.transposeMulVec r' = J.transposeMulVec r

/-- Two evaluations at one point with the same cost and the same products. -/
structure Evaluation.SameGram (e : Evaluation ℝ m n) (e' : Evaluation ℝ m' n) : Prop where
  point_eq : e.point = e'.point
  products : LeastSquares.SameGram e.residuals e.jacobian e'.residuals e'.jacobian

/-- **Two problems with the same cost and the same products** at every point, and with the same
start, validation and budgets, without checkers. The states of their callers go together by `I`. -/
structure Problem.SameGram (I : σ → σ' → Prop) (P : Problem σ ℝ m n) (P' : Problem σ' ℝ m' n) :
    Prop where
  start_eq : P'.start = P.start
  maxEvaluations_eq : P'.maxEvaluations = P.maxEvaluations
  maxIterations_eq : P'.maxIterations = P.maxIterations
  checker_eq : P.checker = none
  checker_eq' : P'.checker = none
  validate : ∀ p w w', I w w' →
    Act.Parallel (· = ·) I ((P.validate p).after w) ((P'.validate p).after w')
  compute : ∀ p w w', I w w' →
    Act.Parallel (fun rJ rJ' => LeastSquares.SameGram rJ.1 rJ.2 rJ'.1 rJ'.2) I
      ((P.compute p).after w) ((P'.compute p).after w')

/-! ## Matrices with orthonormal columns -/

/-- **A matrix with orthonormal columns** leaves cost and products the same. -/
theorem sameGram_of_isometry {U : Matrix (Fin m') (Fin m) ℝ} (hU : Uᵀ * U = 1) {r : Vec ℝ m}
    {J : Mat ℝ m n} {r' : Vec ℝ m'} {J' : Mat ℝ m' n} (hr : r'.get = U *ᵥ r.get)
    (hJ : J'.toMatrix = U * J.toMatrix) : SameGram r J r' J' where
  cost_eq := by
    have hdot : dot r' r' = dot r r := by
      rw [Exact.dot_eq, Exact.dot_eq]
      change r'.get ⬝ᵥ r'.get = r.get ⬝ᵥ r.get
      rw [hr, dotProduct_mulVec, ← mulVec_transpose, mulVec_mulVec, hU, one_mulVec]
    rw [Residuals.cost, Residuals.cost, hdot]
  gram_eq := by
    have hgram : J'.gram.toMatrix = J.gram.toMatrix := by
      rw [Mat.gram_toMatrix, Mat.gram_toMatrix, hJ, transpose_mul, Matrix.mul_assoc,
        ← Matrix.mul_assoc Uᵀ, hU, Matrix.one_mul]
    exact Mat.ext fun i j => congrFun (congrFun hgram i) j
  moment_eq := by
    have hmoment : (J'.transposeMulVec r').get = (J.transposeMulVec r).get := by
      rw [Mat.transposeMulVec_get, Mat.transposeMulVec_get, hJ, hr, transpose_mul, mulVec_mulVec,
        Matrix.mul_assoc, hU, Matrix.mul_one]
    exact Vec.ext fun i => congrFun hmoment i

/-! ## Parallel runs -/

section Parallel

variable {e : Evaluation ℝ m n} {e' : Evaluation ℝ m' n}

theorem Evaluation.SameGram.matches (h : e.SameGram e') : (Chart.identity n).Matches e e' where
  point_eq := by rw [Chart.identity_point, h.point_eq]
  cost_eq := h.products.cost_eq
  gram := Chart.identity_gram h.products.gram_eq
  moment := h.products.moment_eq ▸ Chart.identity_dual _

/-- **The same pivots**, ties included, whatever the rank. -/
theorem Evaluation.SameGram.tame (h : e.SameGram e') : (Chart.identity n).Tame e e' where
  ranks d d' hd hd' := by
    obtain ⟨horder, hrank⟩ := ofJacobian_congr le_rfl h.products.gram_eq hd hd'
    refine ⟨hrank, fun c hc => ?_⟩
    unfold pivotColumns at hc ⊢
    rwa [horder, hrank] at hc
  null _ _ := rfl

/-- They are two problems in one chart. -/
theorem Problem.SameGram.problems {I : σ → σ' → Prop} {P : Problem σ ℝ m n}
    {P' : Problem σ' ℝ m' n} (h : P.SameGram I P') :
    (Chart.identity n).Problems Evaluation.SameGram I P P' where
  start_eq := by rw [Chart.identity_point, h.start_eq]
  maxEvaluations_eq := h.maxEvaluations_eq
  maxIterations_eq := h.maxIterations_eq
  checker_eq := h.checker_eq
  checker_eq' := h.checker_eq'
  matches_of e e' he := he.matches
  evaluation p w w' hw := by
    rw [Chart.identity_point, P.evaluation_after, P'.evaluation_after]
    have hvalidate := h.validate p w w' hw
    generalize (P.validate p).after w = x at hvalidate ⊢
    generalize (P'.validate p).after w' = x' at hvalidate ⊢
    cases hvalidate with
    | error f hw₁ => exact .error f hw₁
    | @ok q q' w₁ w₁' hq hw₁ =>
      subst hq
      have hcompute := h.compute q w₁ w₁' hw₁
      dsimp only
      generalize (P.compute q).after w₁ = y at hcompute ⊢
      generalize (P'.compute q).after w₁' = y' at hcompute ⊢
      cases hcompute with
      | error f hw₂ => exact .error f hw₂
      | ok hproducts hw₂ => exact .ok ⟨rfl, hproducts⟩ hw₂

end Parallel

namespace LevenbergMarquardt

/-- **Headline.** Two problems with no more parameters than observations and with the same cost and
the same products `Jᵀ J` and `Jᵀ r` at every point have parallel courses: trials at the same points,
with the same radii and damping parameters, and the same failure or evaluations at the same point
with the same cost and counts, whatever the ranks of the Jacobians. -/
theorem optimize_sameGram {given : Options (Setting ℝ)} {o : Options (Number ℝ)}
    (hc : Options.check given = .ok o) (ht : o.values.rankingThreshold = 0) (hn : n ≤ m)
    (hn' : n ≤ m') {I : σ → σ' → Prop} {P : Problem σ ℝ m n} {P' : Problem σ' ℝ m' n}
    (hP : P.SameGram I P') {w : σ} {w' : σ'} (hw : I w w') :
    Course.Parallel id Evaluation.SameGram I (optimize o P w) (optimize o P' w') := by
  have hparallel := hP.problems.optimize_parallel hn hn' (Options.regular_of_check hc ht)
    (fun e _ e' he => he.tame) hw
  rwa [show (Chart.identity n).point = id from funext Chart.identity_point] at hparallel

/-! ## An example -/

/-- The line with a second observation, which has no weight. -/
noncomputable def weightlessLine : Problem Unit ℝ 2 1 where
  model := affineModel (Mat.ofFn fun _ _ => 1) (Vec.replicate 2 0)
  target := Vec.ofFn ![1, 5]
  start := Vec.replicate 1 0
  weight := some (.diagonal (Vec.ofFn ![1, 0]))
  checker := none
  maxEvaluations := 2
  maxIterations := 1
  deferred := false
  validator := none

/-- It has the same cost and products as the line. -/
theorem weightlessLine_sameGram : (lineProblem ℝ).SameGram (· = ·) weightlessLine where
  start_eq := rfl
  maxEvaluations_eq := rfl
  maxIterations_eq := rfl
  checker_eq := rfl
  checker_eq' := rfl
  validate p w w' hw := .ok rfl hw
  compute p w w' hw := by
    obtain ⟨w₁, hline⟩ := line_isAffine.compute p w
    obtain ⟨w₁', hweightless⟩ := Model.IsAffine.compute (P := weightlessLine)
      (affineModel_isAffine (Mat.ofFn fun _ _ => 1) Nat.two_pos (Vec.replicate 2 0)) p w'
    rw [hline, hweightless]
    -- the second row is zero
    refine .ok (sameGram_of_isometry (U := !![1; 0]) ?_ ?_ ?_) rfl
    · rw [← Matrix.diagonal_one]
      ext i j
      simp [Matrix.mul_apply, Subsingleton.elim j i]
    · rw [Problem.residuals_get, Problem.residuals_get]
      ext i
      fin_cases i
      · simp [weightlessLine, lineProblem, WeightRoot.matrixOf, Matrix.mulVec, dotProduct,
          Mat.affine, Mat.mulVec_apply, Exact.sum_eq, Vec.replicate_apply]
      · simp [weightlessLine, lineProblem, WeightRoot.matrixOf, Matrix.mulVec, dotProduct]
    · rw [Problem.jacobian_toMatrix, Problem.jacobian_toMatrix]
      ext i j
      fin_cases i
      · simp [weightlessLine, lineProblem, WeightRoot.matrixOf, Matrix.mul_apply, Mat.toMatrix]
      · simp [weightlessLine, lineProblem, WeightRoot.matrixOf, Matrix.mul_apply]

theorem optimize_sameGram_weightlessLine :
    Options.check ((exactOptions ℝ).map Setting.number) = .ok (exactOptions ℝ) ∧
      (exactOptions ℝ).values.rankingThreshold = 0 ∧
      (lineProblem ℝ).SameGram (· = ·) weightlessLine ∧
      (∃ t, t ∈ (optimize (exactOptions ℝ) (lineProblem ℝ) ()).trials) ∧
      Course.Parallel id Evaluation.SameGram (· = ·)
        (optimize (exactOptions ℝ) (lineProblem ℝ) ())
        (optimize (exactOptions ℝ) weightlessLine ()) := by
  have hc : Options.check ((exactOptions ℝ).map Setting.number) = .ok (exactOptions ℝ) := rfl
  have hz : (exactOptions ℝ).values.rankingThreshold = 0 := Nat.cast_zero
  exact ⟨hc, hz, weightlessLine_sameGram, exists_line_trial,
    optimize_sameGram hc hz le_rfl one_le_two weightlessLine_sameGram rfl⟩

end LevenbergMarquardt

end LeastSquares
