import Mathlib.LinearAlgebra.Matrix.NonsingularInverse
import LeastSquares.Evaluation
import LeastSquares.Proofs.NormalEquations

/-!
# The covariances are an inverse

`(JᵀJ)⁻¹` in exact arithmetic, from the orthogonal factorization `JᵀJ = Q R` without column
exchanges. Each column of the result solves a triangular system against a row of `Q`, so the columns
together make up an `X` with `R X = Qᵀ`. It is there for every `J` whose diagonal of `R` stays above
the threshold, and only for these.

Results:
* `Orthogonal.product_factor`: without exchanges the factors multiply out to the matrix itself;
* `Jacobian.covariances_eq_ok_iff`: the covariances by what makes them up;
* `Jacobian.exists_covariances`: the inverse of `JᵀJ`.
-/

namespace LeastSquares

open Matrix

variable {m n : Nat}

/-! ## The factorization without exchanges -/

namespace Orthogonal

/-- Without exchanges every column stays where it is. -/
theorem order_factor (A : Mat ℝ m n) : (factor false A).order = Vec.ofFn id := by
  refine foldl_finRange (I := fun _ (f : Orthogonal ℝ m n) => f.order = Vec.ofFn id) rfl
    fun k f hf => ?_
  by_cases hk : k.val < m
  · rw [dif_pos hk]
    exact hf
  · rw [dif_neg hk]
    exact hf

theorem product_factor (A : Mat ℝ m n) :
    (factor false A).q.toMatrix * (factor false A).r.toMatrix = A.toMatrix := by
  rw [(triangulates_factor false A).product, order_factor]
  ext i j
  rw [submatrix_apply, Vec.ofFn_apply]
  rfl

/-- The rows of the `R` of a square matrix. -/
theorem square_eq (f : Orthogonal ℝ n n) : f.square = f.r := by
  ext i j
  exact (Mat.ofFn_apply _ i j).trans (dif_pos i.isLt)

end Orthogonal

/-! ## The covariances -/

namespace Jacobian

variable {J : Mat ℝ m n} {threshold : Number ℝ}

/-- The diagonal that a threshold is applied to. -/
noncomputable def pivots (J : Mat ℝ m n) : Vec ℝ n := (Orthogonal.factor false J.gram).diagonal

/-- The columns solved for, as a matrix. -/
noncomputable def solved (J : Mat ℝ m n) : Mat ℝ n n :=
  let f := Orthogonal.factor false J.gram
  let columns : Vec (Vec ℝ n) n := Vec.ofFn fun j =>
    Triangular.solveUpper n f.r f.diagonal (Vec.ofFn fun i => f.q j i)
  Mat.ofFn fun i j => columns j i

/-- **The columns solve their triangular systems**, so they make up the inverse. -/
theorem gram_mul_solved (h : ∀ k, pivots J k ≠ 0) :
    J.toMatrixᵀ * J.toMatrix * (solved J).toMatrix = 1 := by
  set f := Orthogonal.factor false J.gram with hf
  have ht : f.Triangulates J.gram n := Orthogonal.triangulates_factor false J.gram
  have hcolumns : f.r.toMatrix * (solved J).toMatrix = f.q.toMatrixᵀ := by
    ext i j
    have hrow := Method.orthogonal_row ht le_rfl (fun k _ => h k) (Vec.ofFn fun i => f.q j i) i.isLt
    rw [Orthogonal.square_eq, Vec.ofFn_apply] at hrow
    refine Eq.trans ?_ hrow
    rw [Matrix.mul_apply, mulVec, dotProduct]
    refine Finset.sum_congr rfl fun l _ => congrArg _ ?_
    change solved J l j = _
    rw [solved, Mat.ofFn_apply, Vec.ofFn_apply]
  calc J.toMatrixᵀ * J.toMatrix * (solved J).toMatrix
      = f.q.toMatrix * f.r.toMatrix * (solved J).toMatrix := by
        rw [hf, Orthogonal.product_factor, Mat.gram_toMatrix]
    _ = f.q.toMatrix * f.q.toMatrixᵀ := by rw [Matrix.mul_assoc, hcolumns]
    _ = 1 := mul_eq_one_comm.mp ht.orthogonal

theorem isUnit_det_gram (h : ∀ k, pivots J k ≠ 0) : IsUnit (J.toMatrixᵀ * J.toMatrix).det :=
  isUnit_det_of_right_inverse (gram_mul_solved h)

/-- A Jacobian without a zero among the pivots has full column rank. -/
theorem linearIndependent (h : ∀ k, pivots J k ≠ 0) : LinearIndependent ℝ J.toMatrix.col := by
  have hunit := (isUnit_iff_isUnit_det _).mpr (isUnit_det_gram h)
  refine mulVec_injective_iff.mp fun v w hvw => mulVec_injective_of_isUnit hunit ?_
  rw [← mulVec_mulVec, ← mulVec_mulVec, hvw]

/-- The covariances in exact arithmetic, where every factor is finite. -/
theorem covariances_eq (J : Mat ℝ m n) (threshold : Number ℝ) : covariances J threshold =
    if ∃ k, |pivots J k| ≤ threshold.value then .error (.singularCovariance threshold)
    else if ∃ k, (pivots J k == 0) = true then .error .zeroPivot
    else .ok (solved J) := by
  have hfinite : (Orthogonal.factor false J.gram).isFinite = true :=
    Bool.and_eq_true_iff.mpr ⟨Method.isFinite_mat _, Method.isFinite_mat _⟩
  unfold covariances
  simp only [Method.isFinite_mat, hfinite, Bool.true_eq_false, if_false]
  rfl

/-- **What the covariances are made of**: no pivot is at or below the threshold or zero. -/
theorem covariances_eq_ok_iff {C : Mat ℝ n n} :
    covariances J threshold = .ok C ↔
      (∀ k, threshold.value < |pivots J k| ∧ pivots J k ≠ 0) ∧ C = solved J := by
  rw [covariances_eq]
  constructor
  · intro h
    split_ifs at h with hbelow hzero
    refine ⟨fun k => ⟨not_le.mp fun hk => hbelow ⟨k, hk⟩, fun hk => ?_⟩, (Except.ok.inj h).symm⟩
    exact hzero ⟨k, (Exact.beq_zero_iff _).mpr hk⟩
  · rintro ⟨h, rfl⟩
    rw [if_neg fun ⟨k, hk⟩ => (h k).1.not_ge hk,
      if_neg fun ⟨k, hk⟩ => (h k).2 ((Exact.beq_zero_iff _).mp hk)]

theorem pivots_ne_zero (h0 : 0 ≤ threshold.value) (h : ∀ k, threshold.value < |pivots J k|)
    (k : Fin n) : pivots J k ≠ 0 := abs_pos.mp (h0.trans_lt (h k))

/-- **The covariances are the inverse** of `JᵀJ` where every pivot passes the threshold. -/
theorem exists_covariances (h0 : 0 ≤ threshold.value)
    (h : ∀ k, threshold.value < |pivots J k|) :
    ∃ C, covariances J threshold = .ok C ∧ C.toMatrix = (J.toMatrixᵀ * J.toMatrix)⁻¹ := by
  have hne := pivots_ne_zero h0 h
  exact ⟨solved J, covariances_eq_ok_iff.mpr ⟨fun k => ⟨h k, hne k⟩, rfl⟩,
    (inv_eq_right_inv (gram_mul_solved hne)).symm⟩

/-- The only pivot of a single column is the square of its length. -/
theorem abs_pivots_single (J : Mat ℝ m 1) : |pivots J 0| = |J.gram 0 0| := by
  set f := Orthogonal.factor false J.gram with hf
  have hq : |f.q 0 0| = 1 := by
    have h := congrFun (congrFun (Orthogonal.triangulates_factor false J.gram).orthogonal 0) 0
    rw [Matrix.mul_apply, Fin.sum_univ_one] at h
    exact (abs_eq zero_le_one).mpr (mul_self_eq_one_iff.mp h)
  have hproduct : f.q 0 0 * f.r 0 0 = J.gram 0 0 := by
    have h := congrFun (congrFun (Orthogonal.product_factor J.gram) 0) 0
    rw [Matrix.mul_apply, Fin.sum_univ_one] at h
    exact h
  have hpivot : pivots J 0 = f.r 0 0 := (Vec.ofFn_apply _ 0).trans (dif_pos Nat.one_pos)
  rw [← hproduct, abs_mul, hq, one_mul, hpivot]

theorem defaultThreshold_nonneg : 0 ≤ (defaultThreshold : Number ℝ).value := by
  change (0 : ℝ) ≤ 1e-14
  norm_num

/-- A single column that is not shorter than one passes the default threshold. -/
theorem defaultThreshold_lt_single {J : Mat ℝ m 1} (h : 1 ≤ J.gram 0 0) (k : Fin 1) :
    (defaultThreshold : Number ℝ).value < |pivots J k| := by
  rw [Subsingleton.elim k 0, abs_pivots_single]
  refine lt_of_lt_of_le ?_ (h.trans (le_abs_self _))
  change (1e-14 : ℝ) < 1
  norm_num

/-- A column of two ones is one. -/
theorem one_le_gram_ones : 1 ≤ (Mat.ofFn fun _ _ => 1 : Mat ℝ 2 1).gram 0 0 := by
  rw [Mat.gram_apply, Exact.sum_eq]
  simp only [Mat.ofFn_apply]
  norm_num

/-- The roots of the diagonal of the covariances. -/
theorem sigma_eq {C : Mat ℝ n n} (h : covariances J threshold = .ok C) :
    sigma J threshold = .ok (Vec.ofFn fun i => √(C i i)) := by
  unfold sigma
  rw [h]
  rfl

end Jacobian

end LeastSquares
