import Mathlib.LinearAlgebra.Matrix.DotProduct
import Mathlib.LinearAlgebra.Matrix.ToLin
import LeastSquares.Proofs.Elimination

/-!
# What a step leaves of the residuals

A step `x` leaves `‖J x - r‖` of the residuals (`Mat.gap`). A solution of the normal equations
`Jᵀ J x = Jᵀ r` leaves the least, and where only some of these equations hold, a step leaves the
least of all steps that differ from it in their unknowns alone.

Results:
* `Mat.gap_sq_eq`: the gap of one step by that of another;
* `IsNormal.gap_le`: a solution of the normal equations leaves the least;
* `IsNormal.gap_lt`, `IsNormal.unique`: and with independent columns it is the only one.
-/

namespace LeastSquares

open Matrix

variable {m n : Nat} {J : Mat ℝ m n} {r : Vec ℝ m} {x y : Vec ℝ n}

/-! ## The normal equations -/

theorem Mat.mulVec_get (A : Mat ℝ m n) (v : Vec ℝ n) : (A.mulVec v).get = A.toMatrix *ᵥ v.get := by
  funext i
  rw [Mat.mulVec_apply, Exact.sum_eq]
  rfl

theorem Mat.transposeMulVec_get (A : Mat ℝ m n) (v : Vec ℝ m) :
    (A.transposeMulVec v).get = A.toMatrixᵀ *ᵥ v.get := by
  funext j
  rw [Mat.transposeMulVec_apply, Exact.sum_eq]
  rfl

theorem Mat.gram_toMatrix (A : Mat ℝ m n) : A.gram.toMatrix = A.toMatrixᵀ * A.toMatrix := by
  ext i j
  change A.gram i j = _
  rw [Mat.gram_apply, Exact.sum_eq]
  rfl

/-- A solution of the normal equations `Jᵀ J x = Jᵀ r`. -/
def IsNormal (J : Mat ℝ m n) (r : Vec ℝ m) (x : Vec ℝ n) : Prop :=
  J.toMatrixᵀ *ᵥ (J.toMatrix *ᵥ x.get) = J.toMatrixᵀ *ᵥ r.get

theorem isNormal_of_gram {x : Vec ℝ n} (h : J.gram.mulVec x = J.transposeMulVec r) :
    IsNormal J r x := by
  have hget := congrArg Vec.get h
  rw [Mat.mulVec_get, Mat.gram_toMatrix, Mat.transposeMulVec_get, ← mulVec_mulVec] at hget
  exact hget

/-! ## Gaps -/

/-- The length of what a step leaves of the residuals, `‖J x - r‖`. -/
noncomputable def Mat.gap (J : Mat ℝ m n) (r : Vec ℝ m) (x : Vec ℝ n) : ℝ :=
  norm (Vec.ofFn fun i => J.mulVec x i - r i)

theorem Mat.gap_nonneg (J : Mat ℝ m n) (r : Vec ℝ m) (x : Vec ℝ n) : 0 ≤ J.gap r x :=
  Exact.norm_nonneg _

theorem Mat.gap_sq (J : Mat ℝ m n) (r : Vec ℝ m) (x : Vec ℝ n) : J.gap r x ^ 2 =
    (J.toMatrix *ᵥ x.get - r.get) ⬝ᵥ (J.toMatrix *ᵥ x.get - r.get) := by
  have hget : (Vec.ofFn fun i => J.mulVec x i - r i).get = J.toMatrix *ᵥ x.get - r.get := by
    rw [← J.mulVec_get]
    exact funext (Vec.ofFn_apply _)
  rw [gap, Exact.norm_sq, hget]

theorem Mat.gap_eq_zero_iff : J.gap r x = 0 ↔ J.toMatrix *ᵥ x.get = r.get := by
  rw [← sq_eq_zero_iff, J.gap_sq, dotProduct_self_eq_zero, sub_eq_zero]

/-- **The gap of one step by that of another**, which solves the normal equations of all columns
where the two differ. -/
theorem Mat.gap_sq_eq (h : ∀ c, x c ≠ y c →
      (J.toMatrixᵀ *ᵥ (J.toMatrix *ᵥ x.get)) c = (J.toMatrixᵀ *ᵥ r.get) c) :
    J.gap r y ^ 2 = J.gap r x ^ 2 +
      (J.toMatrix *ᵥ (y.get - x.get)) ⬝ᵥ (J.toMatrix *ᵥ (y.get - x.get)) := by
  set e := J.toMatrix *ᵥ x.get - r.get with he
  set d := J.toMatrix *ᵥ (y.get - x.get) with hd
  have hy : J.toMatrix *ᵥ y.get - r.get = e + d := by
    rw [he, hd, mulVec_sub]
    abel
  have horthogonal : e ⬝ᵥ d = 0 := by
    rw [hd, dotProduct_mulVec, ← mulVec_transpose, he, mulVec_sub]
    refine Finset.sum_eq_zero fun c _ => ?_
    by_cases hc : x c = y c
    · rw [Pi.sub_apply y.get, show y.get c = x.get c from hc.symm, sub_self, mul_zero]
    · rw [Pi.sub_apply, h c hc, sub_self, zero_mul]
  rw [J.gap_sq, J.gap_sq, hy, add_dotProduct, dotProduct_add, dotProduct_add, dotProduct_comm d e,
    horthogonal]
  ring

theorem Mat.gap_le (h : ∀ c, x c ≠ y c →
      (J.toMatrixᵀ *ᵥ (J.toMatrix *ᵥ x.get)) c = (J.toMatrixᵀ *ᵥ r.get) c) :
    J.gap r x ≤ J.gap r y := by
  refine (sq_le_sq₀ (J.gap_nonneg r x) (J.gap_nonneg r y)).mp ?_
  rw [Mat.gap_sq_eq h]
  exact le_add_of_nonneg_right (Exact.dotProduct_self_nonneg _)

/-- **A solution of the normal equations** leaves the least. -/
theorem IsNormal.gap_le (h : IsNormal J r x) (y : Vec ℝ n) : J.gap r x ≤ J.gap r y :=
  Mat.gap_le fun c _ => congrFun h c

/-- A step that leaves as much has the same image. -/
theorem IsNormal.mulVec_sub_eq_zero (h : IsNormal J r x) (hy : J.gap r y ≤ J.gap r x) :
    J.toMatrix *ᵥ (y.get - x.get) = 0 := by
  have hsq := Mat.gap_sq_eq (y := y) fun c _ => congrFun h c
  have hle := (sq_le_sq₀ (J.gap_nonneg r y) (J.gap_nonneg r x)).mpr hy
  refine dotProduct_self_eq_zero.mp (le_antisymm ?_ (Exact.dotProduct_self_nonneg _))
  linarith

theorem eq_zero_of_mulVec {J : Matrix (Fin m) (Fin n) ℝ} (hJ : LinearIndependent ℝ J.col)
    {v : Fin n → ℝ} (h : J *ᵥ v = 0) : v = 0 :=
  mulVec_injective_iff.mpr hJ (h.trans (mulVec_zero J).symm)

/-- **With independent columns** any other step leaves more. -/
theorem IsNormal.gap_lt (h : IsNormal J r x) (hJ : LinearIndependent ℝ J.toMatrix.col)
    (hy : y ≠ x) : J.gap r x < J.gap r y := by
  refine lt_of_not_ge fun hle => hy ?_
  have hzero : y.get - x.get = 0 := eq_zero_of_mulVec hJ (h.mulVec_sub_eq_zero hle)
  exact Vec.ext fun c => sub_eq_zero.mp (congrFun hzero c)

/-- With independent columns the normal equations have one solution. -/
theorem IsNormal.unique (h : IsNormal J r x) (h' : IsNormal J r y)
    (hJ : LinearIndependent ℝ J.toMatrix.col) : x = y :=
  by_contra fun hne => (h'.gap_lt hJ hne).not_ge (h.gap_le y)

end LeastSquares
