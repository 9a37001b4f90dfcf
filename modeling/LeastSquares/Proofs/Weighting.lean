import Mathlib.Algebra.Order.Star.Real
import Mathlib.LinearAlgebra.Matrix.PosDef
import LeastSquares.Problem
import LeastSquares.Proofs.NormalEquations

/-!
# Weights as quadratic forms

A weight acts through its root, in exact arithmetic as a matrix `S` (`WeightRoot.matrixOf`) with
`Sᵀ S = W`: residuals are `S (target - value)`, the Jacobian is `S J`. So the squared length of the
residuals is what the quadratic form `W` makes of `target - value`.

Results:
* `WeightRoot.Weighs.isRoot`: the root of every weight, of none, of a vector and of a positive
  semidefinite matrix, is its square root;
* `Problem.misfit_eq`: the form that the residuals are the length of.
-/

namespace LeastSquares

open Matrix

variable {σ : Type} {m n : Nat}

namespace WeightRoot

/-- The root of a weight as a matrix. -/
noncomputable def matrixOf : Option (WeightRoot ℝ m) → Matrix (Fin m) (Fin m) ℝ
  | none => 1
  | some (.diagonal w) => Matrix.diagonal w.get
  | some (.full W) => W.toMatrix

/-- **The square root of a matrix**: it is positive semidefinite, so symmetric, and its square is
the matrix. -/
structure IsRoot (S W : Matrix (Fin m) (Fin m) ℝ) : Prop where
  posSemidef : S.PosSemidef
  mul_self : S * S = W

theorem IsRoot.gram_eq {S W : Matrix (Fin m) (Fin m) ℝ} (h : IsRoot S W) : Sᵀ * S = W := by
  rw [← conjTranspose_eq_transpose_of_trivial, h.posSemidef.isHermitian.eq, h.mul_self]

theorem eigen_toMatrix {e : Eigen ℝ m} {W : Mat ℝ m m} (h : e.Factors W) :
    W.toMatrix = e.vectors.toMatrix * Matrix.diagonal e.values.get * e.vectors.toMatrixᵀ := by
  ext i j
  refine (h.product i j).trans ?_
  rw [Matrix.mul_apply]
  simp only [mul_diagonal]
  rfl

/-- The eigenvalues of a semidefinite matrix are not negative. -/
theorem eigen_nonneg {e : Eigen ℝ m} {W : Mat ℝ m m} (h : e.Factors W)
    (hW : W.toMatrix.PosSemidef) (k : Fin m) : 0 ≤ e.values k := by
  set V := e.vectors.toMatrix
  have hV : Vᵀ * V = 1 := h.orthonormal.toMatrix_mul
  have hdiagonal : Vᵀ * W.toMatrix * V = Matrix.diagonal e.values.get := by
    calc Vᵀ * W.toMatrix * V
        = Vᵀ * V * Matrix.diagonal e.values.get * (Vᵀ * V) := by
          rw [eigen_toMatrix h]
          simp only [Matrix.mul_assoc]
          rfl
      _ = Matrix.diagonal e.values.get := by rw [hV, Matrix.one_mul, Matrix.mul_one]
  have hpsd : (Vᵀ * W.toMatrix * V).PosSemidef := by
    have := hW.conjTranspose_mul_mul_same V
    rwa [conjTranspose_eq_transpose_of_trivial] at this
  rw [hdiagonal, posSemidef_diagonal_iff] at hpsd
  exact hpsd k

variable [Exact.Factorizations]

/-- **The weights**: none, a vector, or a positive semidefinite matrix whose eigenvectors are
exact. -/
inductive Weighs :
    Matrix (Fin m) (Fin m) ℝ → Option (WeightRoot ℝ m) → Prop
  | none : Weighs 1 none
  | vector {w : Vec ℝ m} {root} (h : ofVector w = .ok root) :
      Weighs (Matrix.diagonal w.get) (some root)
  | matrix {W : Mat ℝ m m} {root} (hW : W.toMatrix.PosSemidef)
      (he : (Spectral.eigen W).Factors W) (h : ofMatrix W = .ok root) :
      Weighs W.toMatrix (some root)

/-- The root of a semidefinite matrix, through its eigenvectors. -/
theorem ofMatrix_isRoot {W : Mat ℝ m m} (hW : W.toMatrix.PosSemidef)
    (he : (Spectral.eigen W).Factors W) {root : WeightRoot ℝ m} (h : ofMatrix W = .ok root) :
    IsRoot (matrixOf (some root)) W.toMatrix := by
  set e := Spectral.eigen W with heigen
  unfold ofMatrix at h
  simp only at h
  split_ifs at h
  obtain rfl := Except.ok.inj h
  set V := e.vectors.toMatrix
  set D := Matrix.diagonal fun k => √(e.values k)
  have hV : Vᵀ * V = 1 := he.orthonormal.toMatrix_mul
  have hD : D * D = Matrix.diagonal e.values.get := by
    rw [diagonal_mul_diagonal]
    exact congrArg _ (funext fun k => Real.mul_self_sqrt (eigen_nonneg he hW k))
  have hroot : (Mat.ofFn fun i j => sum fun l => e.vectors i l *
      e.values.map (fun x => sqrt (Scalar.larger x 0)) l * e.vectors j l : Mat ℝ m m).toMatrix =
        V * D * Vᵀ := by
    ext i j
    refine (Mat.ofFn_apply _ i j).trans ?_
    rw [Exact.sum_eq, Matrix.mul_apply]
    refine Finset.sum_congr rfl fun l _ => ?_
    rw [mul_diagonal, Vec.map_apply, Exact.larger_eq, max_eq_left (eigen_nonneg he hW l)]
    rfl
  have hpsd : D.PosSemidef := posSemidef_diagonal_iff.mpr fun k => Real.sqrt_nonneg _
  change IsRoot (Mat.toMatrix _) _
  rw [hroot]
  refine ⟨?_, ?_⟩
  · rw [← conjTranspose_eq_transpose_of_trivial]
    exact hpsd.mul_mul_conjTranspose_same V
  · calc V * D * Vᵀ * (V * D * Vᵀ) = V * D * (Vᵀ * V) * (D * Vᵀ) := by
          simp only [Matrix.mul_assoc]
      _ = V * (D * D) * Vᵀ := by
          rw [hV, Matrix.mul_one]
          simp only [Matrix.mul_assoc]
      _ = W.toMatrix := by rw [hD, eigen_toMatrix he]

/-- **The root of every weight.** -/
theorem Weighs.isRoot {W : Matrix (Fin m) (Fin m) ℝ} {weight : Option (WeightRoot ℝ m)}
    (h : Weighs W weight) : IsRoot (matrixOf weight) W := by
  cases h with
  | none => exact ⟨PosSemidef.one, Matrix.one_mul 1⟩
  | @vector w root h =>
    unfold ofVector at h
    split_ifs at h with hneg
    obtain rfl := Except.ok.inj h
    change IsRoot (Matrix.diagonal (w.map sqrt).get) _
    refine ⟨posSemidef_diagonal_iff.mpr fun i => ?_, ?_⟩
    · exact (Real.sqrt_nonneg (w i)).trans_eq (Vec.map_apply _ w i).symm
    · rw [diagonal_mul_diagonal]
      congr 1
      funext i
      rw [Vec.map_apply]
      exact Real.mul_self_sqrt (not_lt.mp fun hi => hneg ⟨i, hi⟩)
  | matrix hW he h => exact ofMatrix_isRoot hW he h

theorem Weighs.gram_eq {W : Matrix (Fin m) (Fin m) ℝ} {weight : Option (WeightRoot ℝ m)}
    (h : Weighs W weight) : (matrixOf weight)ᵀ * matrixOf weight = W := h.isRoot.gram_eq

end WeightRoot

/-! ## Residuals and Jacobian -/

namespace Problem

variable {P : Problem σ ℝ m n}

theorem residuals_get (P : Problem σ ℝ m n) (v : Vec ℝ m) :
    (P.residuals v).get = WeightRoot.matrixOf P.weight *ᵥ (P.target.get - v.get) := by
  have hdiff : (Vec.ofFn fun i => P.target i - v i).get = P.target.get - v.get :=
    funext (Vec.ofFn_apply _)
  unfold residuals
  cases P.weight with
  | none => rw [WeightRoot.matrixOf, one_mulVec, ← hdiff]
  | some root =>
    cases root with
    | diagonal w =>
      funext i
      refine (Vec.ofFn_apply _ i).trans ?_
      rw [hdiff, WeightRoot.matrixOf, mulVec_diagonal]
    | full W => rw [WeightRoot.matrixOf, ← hdiff, ← Mat.mulVec_get]; rfl

theorem jacobian_toMatrix (P : Problem σ ℝ m n) (A : Mat ℝ m n) :
    (P.jacobian A).toMatrix = WeightRoot.matrixOf P.weight * A.toMatrix := by
  unfold jacobian
  cases P.weight with
  | none => exact (Matrix.one_mul _).symm
  | some root =>
    ext i j
    cases root with
    | diagonal w =>
      rw [WeightRoot.matrixOf, diagonal_mul]
      exact Mat.ofFn_apply _ i j
    | full W =>
      refine (Mat.mul_apply W A i j).trans ?_
      rw [Exact.sum_eq]
      rfl

/-- What a weight makes of the difference between the target and a model value. -/
noncomputable def misfit (P : Problem σ ℝ m n) (W : Matrix (Fin m) (Fin m) ℝ) (v : Vec ℝ m) : ℝ :=
  (P.target.get - v.get) ⬝ᵥ W *ᵥ (P.target.get - v.get)

/-- **The squared length of the residuals** is the misfit. -/
theorem misfit_eq [Exact.Factorizations] {W : Matrix (Fin m) (Fin m) ℝ}
    (h : WeightRoot.Weighs W P.weight) (v : Vec ℝ m) :
    P.misfit W v = (P.residuals v).get ⬝ᵥ (P.residuals v).get := by
  rw [misfit, residuals_get, ← h.gram_eq, ← mulVec_mulVec, dotProduct_mulVec, vecMul_transpose]

end Problem

end LeastSquares
