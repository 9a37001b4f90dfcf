import Mathlib.Algebra.BigOperators.Field
import LeastSquares.Step
import LeastSquares.Proofs.Gaps
import LeastSquares.Proofs.Householder
import LeastSquares.Proofs.Spectra
import LeastSquares.Proofs.TriangularRoot

/-!
# The full step solves the normal equations

A step of the linearised problem in exact arithmetic. Each of the four solvers finds one for every
matrix that it accepts (`Method.Accepts`), and the step it finds is a solution of the normal
equations `Jᵀ J x = Jᵀ r`. The singular vectors come from outside and have to multiply out to the
matrix.

Results:
* `Method.solveLu_isNormal`, `Method.solveCholesky_isNormal`, `Method.solveQr_isNormal`,
  `Method.solveSvd_isNormal`: the four solvers;
* `Method.exists_solve`: all of them.
-/

namespace LeastSquares

open Matrix

variable {m n : Nat} {J : Mat ℝ m n} {r : Vec ℝ m}

/-! ## Singular vectors -/

theorem Mat.Orthonormal.toMatrix_mul {U : Mat ℝ m n} (h : U.Orthonormal) :
    U.toMatrixᵀ * U.toMatrix = 1 := by
  ext k l
  exact (h k l).trans Matrix.one_apply.symm

namespace Singular

theorem scaleOf_ne_zero (b : Vec ℝ m) : scaleOf b ≠ 0 := by
  unfold scaleOf
  simp only [Exact.beq_zero_iff]
  split_ifs with h0 h1
  · exact one_ne_zero
  · exact h0
  · exact one_ne_zero

theorem largest_nonneg (s : Singular ℝ m n) : 0 ≤ s.largest := Exact.le_foldl_larger s.values 0

/-- What counts as zero is not below zero. -/
theorem cutoff_nonneg (s : Singular ℝ m n) : 0 ≤ Scalar.epsilon * s.largest := by
  refine mul_nonneg ?_ s.largest_nonneg
  unfold Scalar.epsilon
  generalize 52 = e
  exact (Exact.one_div_two_pow_pos e).le

/-- No value counts as zero. -/
def KeepsAll (s : Singular ℝ m n) : Prop := ∀ k, Scalar.epsilon * s.largest < s.values k

/-- The matrix that the factors multiply out to. -/
noncomputable def matrix (s : Singular ℝ m n) : Mat ℝ m n :=
  Mat.ofFn fun i j => s.scale * ∑ k, s.left i k * s.values k * s.right j k

theorem matrix_toMatrix (s : Singular ℝ m n) : s.matrix.toMatrix =
    s.scale • (s.left.toMatrix * diagonal s.values.get * s.right.toMatrixᵀ) := by
  ext i j
  refine (Mat.ofFn_apply _ i j).trans ?_
  rw [Matrix.smul_apply, Matrix.mul_apply, smul_eq_mul]
  simp only [mul_diagonal]
  rfl

theorem Factors.matrix_eq {s : Singular ℝ m n} (h : s.Factors J) : s.matrix = J :=
  Mat.ext fun i j => (Mat.ofFn_apply _ i j).trans (h.product i j).symm

theorem Factors.toMatrix_eq {s : Singular ℝ m n} (h : s.Factors J) :
    J.toMatrix = s.scale • (s.left.toMatrix * diagonal s.values.get * s.right.toMatrixᵀ) :=
  h.matrix_eq ▸ s.matrix_toMatrix

/-- The factors with zero for the values that count as zero. -/
noncomputable def truncate (s : Singular ℝ m n) : Singular ℝ m n :=
  { s with values := Vec.ofFn fun k =>
      if Scalar.epsilon * s.largest < s.values k then s.values k else 0 }

/-- Nothing changes if no other value than zero counts as zero. -/
theorem truncate_eq {s : Singular ℝ m n}
    (h : ∀ k, s.values k ≤ Scalar.epsilon * s.largest → s.values k = 0) : s.truncate = s := by
  have hvalues : s.truncate.values = s.values := by
    refine Vec.ext fun k => (Vec.ofFn_apply _ k).trans ?_
    split_ifs with hk
    · rfl
    · exact (h k (not_lt.mp hk)).symm
  exact congrArg (fun values => { s with values }) hvalues

theorem KeepsAll.truncate_eq {s : Singular ℝ m n} (h : s.KeepsAll) : s.truncate = s :=
  Singular.truncate_eq fun k hk => absurd hk (h k).not_ge

/-- The coordinates of the solution, up to its scale: a value that counts as zero has none. -/
noncomputable def weights (s : Singular ℝ m n) (r : Vec ℝ m) : Fin (min m n) → ℝ := fun k =>
  if Scalar.epsilon * s.largest < s.values k then (s.left.toMatrixᵀ *ᵥ r.get) k / s.values k else 0

/-- The solution, as a combination of the right vectors. -/
theorem solve_get (s : Singular ℝ m n) (r : Vec ℝ m) :
    (s.solve r).get = s.scale⁻¹ • (s.right.toMatrix *ᵥ s.weights r) := by
  set size := scaleOf r
  have hsize : size ≠ 0 := scaleOf_ne_zero r
  have hweight (k : Fin (min m n)) : (sum fun i => s.left i k * (r i / size)) =
      (s.left.toMatrixᵀ *ᵥ r.get) k / size := by
    rw [Exact.sum_eq, mulVec, dotProduct, Finset.sum_div]
    exact Finset.sum_congr rfl fun i _ => (mul_div_assoc _ _ _).symm
  have hterm (j : Fin n) (k : Fin (min m n)) : s.right j k * (Vec.ofFn fun k =>
      if Scalar.epsilon * s.largest < s.values k then
        (sum fun i => s.left i k * (r i / size)) / s.values k else 0) k =
      s.right j k * s.weights r k / size := by
    rw [Vec.ofFn_apply, weights]
    split_ifs
    · rw [hweight]
      ring
    · rw [mul_zero, zero_div]
  funext j
  unfold solve
  rw [Vec.ofFn_apply, Exact.sum_eq, Finset.sum_congr rfl fun k _ => hterm j k, ← Finset.sum_div,
    Pi.smul_apply, smul_eq_mul, div_right_comm, div_mul_cancel₀ _ hsize, div_eq_inv_mul]
  rfl

/-- Where a value is kept, the weight meets its coordinate of the right-hand side. -/
theorem values_mul_weights (s : Singular ℝ m n) (r : Vec ℝ m) (k : Fin (min m n)) :
    s.values k * s.weights r k =
      if Scalar.epsilon * s.largest < s.values k then (s.left.toMatrixᵀ *ᵥ r.get) k else 0 := by
  unfold weights
  split_ifs with hk
  · exact mul_div_cancel₀ _ (s.cutoff_nonneg.trans_lt hk).ne'
  · exact mul_zero _

/-- **The singular vectors** solve the normal equations of the matrix that is left when what counts
as zero is zero. -/
theorem isNormal_truncate {s : Singular ℝ m n} (h : s.Factors J) (r : Vec ℝ m) :
    IsNormal s.truncate.matrix r (s.solve r) := by
  set U := s.left.toMatrix
  set V := s.right.toMatrix
  set D := diagonal s.truncate.values.get
  set c := Uᵀ *ᵥ r.get
  have hJ : s.truncate.matrix.toMatrix = s.scale • (U * D * Vᵀ) := s.truncate.matrix_toMatrix
  have hJt : s.truncate.matrix.toMatrixᵀ = s.scale • (V * (D * Uᵀ)) := by
    rw [hJ, transpose_smul, transpose_mul, transpose_mul, transpose_transpose, diagonal_transpose]
  have hJx : s.truncate.matrix.toMatrix *ᵥ (s.solve r).get = U *ᵥ (D *ᵥ s.weights r) := by
    calc s.truncate.matrix.toMatrix *ᵥ (s.solve r).get
        = (s.scale * s.scale⁻¹) • (U *ᵥ (D *ᵥ ((Vᵀ * V) *ᵥ s.weights r))) := by
          rw [hJ, solve_get, mulVec_smul, smul_mulVec, smul_smul, mul_comm s.scale⁻¹]
          simp only [mulVec_mulVec, Matrix.mul_assoc]
          rfl
      _ = U *ᵥ (D *ᵥ s.weights r) := by
          rw [mul_inv_cancel₀ h.scale_ne_zero, one_smul, h.right_orthonormal.toMatrix_mul,
            one_mulVec]
  -- a kept value meets its coordinate, and all others are zero on both sides
  have hkept : D *ᵥ (D *ᵥ s.weights r) = D *ᵥ c := by
    funext k
    rw [mulVec_diagonal, mulVec_diagonal, mulVec_diagonal, truncate, Vec.ofFn_apply]
    split_ifs with hk
    · rw [values_mul_weights, if_pos hk]
    · rw [zero_mul, zero_mul]
  unfold IsNormal
  rw [hJx, hJt, smul_mulVec, smul_mulVec]
  congr 1
  calc (V * (D * Uᵀ)) *ᵥ (U *ᵥ (D *ᵥ s.weights r))
      = V *ᵥ (D *ᵥ ((Uᵀ * U) *ᵥ (D *ᵥ s.weights r))) := by
        simp only [mulVec_mulVec, Matrix.mul_assoc]
    _ = V *ᵥ (D *ᵥ c) := by
        rw [h.left_orthonormal.toMatrix_mul, one_mulVec, hkept]
    _ = (V * (D * Uᵀ)) *ᵥ r.get := by simp only [c, mulVec_mulVec]

/-- **The singular vectors** solve the normal equations if all values are kept. -/
theorem solve_isNormal {s : Singular ℝ m n} (h : s.Factors J) (hkeep : s.KeepsAll) (r : Vec ℝ m) :
    IsNormal J r (s.solve r) := by
  have hnormal := isNormal_truncate h r
  rwa [hkeep.truncate_eq, h.matrix_eq] at hnormal

end Singular

/-! ## The other solvers -/

namespace Method

theorem negligible_pos : (0 : ℝ) < negligible := by
  unfold negligible
  norm_num

theorem isFinite_vec (v : Vec ℝ n) : v.isFinite = true := v.isFinite_iff.mpr fun _ => rfl

theorem isFinite_mat (A : Mat ℝ m n) : A.isFinite = true := A.isFinite_iff.mpr fun _ _ => rfl

/-- **Elimination** solves the normal equations if no pivot is negligible. -/
theorem solveLu_isNormal (h : ∀ i, negligible ≤ |(LowerUpper.factor J.gram).diagonal i|)
    (r : Vec ℝ m) : ∃ x, solveLu J r = .ok x ∧ IsNormal J r x := by
  refine ⟨(LowerUpper.factor J.gram).solve (J.transposeMulVec r), ?_, isNormal_of_gram ?_⟩
  · have htest : ¬ ∃ i, Scalar.abs ((LowerUpper.factor J.gram).diagonal i) < negligible :=
      fun ⟨i, hi⟩ => absurd hi (not_lt.mpr (h i))
    unfold solveLu requireFinite
    simp only [isFinite_mat, isFinite_vec, Bool.true_eq_false, if_false, if_neg htest, if_true]
    rfl
  · refine LowerUpper.mulVec_solve _ (fun i h0 => ?_) _
    have hi := h i
    rw [h0, abs_zero] at hi
    exact absurd hi (not_le.mpr negligible_pos)

/-- **The triangular root** solves the normal equations if no entry of its diagonal is
negligible. -/
theorem solveCholesky_isNormal {T : Mat ℝ n n} (hT : Cholesky.factor J.gram = some T)
    (h : ∀ i, negligible < Cholesky.diagonal T i) (r : Vec ℝ m) :
    ∃ x, solveCholesky J r = .ok x ∧ IsNormal J r x := by
  refine ⟨Cholesky.solve T (J.transposeMulVec r), ?_, isNormal_of_gram ?_⟩
  · have htest : ¬ ∃ i, Cholesky.diagonal T i ≤ negligible :=
      fun ⟨i, hi⟩ => absurd hi (not_le.mpr (h i))
    unfold solveCholesky requireFinite
    simp only [isFinite_mat, isFinite_vec, Bool.true_eq_false, if_false, hT, if_neg htest, if_true]
    rfl
  · refine Cholesky.mulVec_solve (fun i j => ?_) hT _
    rw [Mat.gram_apply, Mat.gram_apply]
    simp only [mul_comm]

theorem numericRank_eq {d : Vec ℝ n} (h : ∀ k, negligible < |d k|) : numericRank d = n := by
  have hall : (List.finRange n).filter (fun k => decide (negligible < Scalar.abs (d k))) =
      List.finRange n := List.filter_eq_self.mpr fun k _ => decide_eq_true (h k)
  unfold numericRank
  rw [hall, List.length_finRange]

/-- The rows of `R` before row `q` hold for the solution of the triangular system of that size. -/
theorem orthogonal_row {f : Orthogonal ℝ m n} (h : f.Triangulates J n) {q : Nat} (hq : q ≤ n)
    (hd : ∀ k : Fin n, k.val < q → f.diagonal k ≠ 0) (b : Vec ℝ n) {i : Fin m} (hi : i.val < q) :
    (f.r.toMatrix *ᵥ (Triangular.solveUpper q f.square f.diagonal b).get) i =
      b ⟨i, hi.trans_le hq⟩ := by
  have hin : i.val < n := hi.trans_le hq
  have hsquare (j : Fin n) : f.square ⟨i, hin⟩ j = f.r i j := by
    unfold Orthogonal.square
    rw [Mat.ofFn_apply, dif_pos i.isLt]
  have hdiagonal : f.diagonal ⟨i, hin⟩ = f.r i ⟨i, hin⟩ := by
    unfold Orthogonal.diagonal
    rw [Vec.ofFn_apply, dif_pos i.isLt]
  have hrow := Triangular.solveUpper_row q f.square f.diagonal b (j := ⟨i, hin⟩) hi (hd _ hi)
  simp only [hsquare, hdiagonal] at hrow
  rw [← hrow]
  refine Triangular.sum_eq_add (p := (⟨i, hin⟩ < ·)) (lt_irrefl _) fun j hne hle => ?_
  have hbefore : j < ⟨i, hin⟩ := lt_of_le_of_ne (not_lt.mp hle) hne
  change f.r i j * _ = 0
  rw [h.upper i j j.isLt hbefore, zero_mul]

/-- The solution of the triangular system of size `q`, in the order of the columns, solves the
normal equation of every column that has no entry from row `q` on. -/
theorem normal_of_order {f : Orthogonal ℝ m n} (h : f.Triangulates J n) {q : Nat} (hq : q ≤ n)
    (hd : ∀ k : Fin n, k.val < q → f.diagonal k ≠ 0) {x : Vec ℝ n} (hx : ∀ j, x (f.order j) =
      Triangular.solveUpper q f.square f.diagonal
        (Vec.ofFn fun i => if h : i.val < m then f.transposeApply r ⟨i, h⟩ else 0) j)
    {j : Fin n} (hj : ∀ i : Fin m, q ≤ i.val → f.r i j = 0) :
    (J.toMatrixᵀ *ᵥ (J.toMatrix *ᵥ x.get)) (f.order j) = (J.toMatrixᵀ *ᵥ r.get) (f.order j) := by
  set b : Vec ℝ n := Vec.ofFn fun i => if h : i.val < m then f.transposeApply r ⟨i, h⟩ else 0
  set z := Triangular.solveUpper q f.square f.diagonal b
  set Q := f.q.toMatrix
  set R := f.r.toMatrix
  have hproduct : Q * R = J.toMatrix.submatrix id f.order := h.product
  have hJx : J.toMatrix *ᵥ x.get = Q *ᵥ (R *ᵥ z.get) := by
    rw [mulVec_mulVec, hproduct]
    funext i
    refine ((Finite.injective_iff_bijective.mp h.order).sum_comp
      fun c => J.toMatrix i c * x c).symm.trans ?_
    exact Finset.sum_congr rfl fun j _ => congrArg _ (hx j)
  have hJt (v : Fin m → ℝ) (j : Fin n) :
      (J.toMatrixᵀ *ᵥ v) (f.order j) = (Rᵀ *ᵥ (Qᵀ *ᵥ v)) j := by
    rw [mulVec_mulVec, ← transpose_mul, hproduct]
    rfl
  rw [hJt, hJt, hJx, mulVec_mulVec _ Qᵀ, h.orthogonal, one_mulVec]
  change (∑ i, R i j * (R *ᵥ z.get) i) = ∑ i, R i j * (Qᵀ *ᵥ r.get) i
  refine Finset.sum_congr rfl fun i _ => ?_
  by_cases hi : i.val < q
  · have hrow : (R *ᵥ z.get) i = b ⟨i, hi.trans_le hq⟩ := orthogonal_row h hq hd b hi
    rw [hrow, Vec.ofFn_apply, dif_pos i.isLt]
    exact congrArg (R i j * ·) (congrFun (Mat.transposeMulVec_get f.q r) i)
  · have hzero : R i j = 0 := hj i (not_lt.mp hi)
    rw [hzero, zero_mul, zero_mul]

/-- The solution of the whole triangular system solves the normal equations. -/
theorem isNormal_of_order {f : Orthogonal ℝ m n} (h : f.Triangulates J n)
    (hd : ∀ k, f.diagonal k ≠ 0) {x : Vec ℝ n} (hx : ∀ j, x (f.order j) =
      Triangular.solveUpper n f.square f.diagonal
        (Vec.ofFn fun i => if h : i.val < m then f.transposeApply r ⟨i, h⟩ else 0) j) :
    IsNormal J r x := by
  funext c
  obtain ⟨j, rfl⟩ := Finite.surjective_of_injective h.order c
  exact normal_of_order h le_rfl (fun k _ => hd k) hx fun i hi =>
    h.upper i j j.isLt (j.isLt.trans_le hi)

/-- Without a column that counts the orthogonal factorization refuses the matrix. -/
theorem solveQr_of_rank_zero (h : numericRank (Orthogonal.factor true J).diagonal = 0)
    (r : Vec ℝ m) : solveQr J r = .error (.singularProblem qr) := by
  unfold solveQr
  simp only [isFinite_mat, h, Bool.true_eq_false, if_false, if_true]
  rfl

/-- The step by the orthogonal factorization, in the order of the columns. -/
theorem solveQr_of_rank {rank : Nat}
    (h : numericRank (Orthogonal.factor true J).diagonal = rank) (hrank : rank ≠ 0)
    (r : Vec ℝ m) :
    let f := Orthogonal.factor true J
    solveQr J r = .ok (Vec.ofFn fun c => ((List.finRange n).find? fun i => f.order i == c).elim 0
      (Triangular.solveUpper rank f.square f.diagonal
        (Vec.ofFn fun i => if h : i.val < m then f.transposeApply r ⟨i, h⟩ else 0))) := by
  intro f
  have hresize : r.resize m = (.ok r : Except (Failure ℝ) _) := dif_pos rfl
  have hfinite (y : ℝ) : isFinite y = true := rfl
  unfold solveQr
  simp only [isFinite_mat, h, hresize, hfinite, if_neg hrank, Bool.true_eq_false, and_false,
    exists_false, if_false]
  refine congrArg Except.ok (Vec.ext fun c => ?_)
  rw [Vec.ofFn_apply, Vec.ofFn_apply]
  cases (List.finRange n).find? fun i => f.order i == c <;> rfl

/-- **The orthogonal factorization** solves the normal equations if no entry of its diagonal is
negligible. -/
theorem solveQr_isNormal (hn : 0 < n)
    (h : ∀ k, negligible < |(Orthogonal.factor true J).diagonal k|) (r : Vec ℝ m) :
    ∃ x, solveQr J r = .ok x ∧ IsNormal J r x := by
  have hf := Orthogonal.triangulates_factor true J
  have hd (k : Fin n) : (Orthogonal.factor true J).diagonal k ≠ 0 := fun h0 => by
    have hk := h k
    rw [h0, abs_zero] at hk
    exact absurd hk negligible_pos.not_gt
  refine ⟨_, solveQr_of_rank (numericRank_eq h) hn.ne' r, isNormal_of_order hf hd fun j => ?_⟩
  rw [Vec.ofFn_apply, Decomposition.find?_order hf.order, Option.elim_some]

/-! ## All solvers -/

variable [Exact.Factorizations]

/-- **A matrix that a solver accepts**: nothing that it tests is negligible. Only the orthogonal
factorization refuses a matrix without columns, whose rank is zero. -/
def Accepts : Method → Mat ℝ m n → Prop
  | lu, J => ∀ i, negligible ≤ |(LowerUpper.factor J.gram).diagonal i|
  | qr, J => 0 < n ∧ ∀ k, negligible < |(Orthogonal.factor true J).diagonal k|
  | cholesky, J => ∃ T, Cholesky.factor J.gram = some T ∧ ∀ i, negligible < Cholesky.diagonal T i
  | svd, J => (Spectral.singular J).KeepsAll

/-- A solver whose factorization of a matrix is exact. Only singular vectors come from outside. -/
def IsExact (method : Method) (J : Mat ℝ m n) : Prop :=
  method = svd → (Spectral.singular J).Factors J

theorem solveSvd_eq (J : Mat ℝ m n) (r : Vec ℝ m) :
    solveSvd J r = .ok ((Spectral.singular J).solve r) := by
  have hJ : J.isFinite = true := isFinite_mat J
  have hr : r.isFinite = true := isFinite_vec r
  unfold solveSvd requireFinite
  simp only [hJ, hr, Bool.true_eq_false, if_false, if_true]
  rfl

theorem solveSvd_isNormal (h : (Spectral.singular J).Factors J)
    (hkeep : (Spectral.singular J).KeepsAll) (r : Vec ℝ m) :
    ∃ x, solveSvd J r = .ok x ∧ IsNormal J r x :=
  ⟨_, solveSvd_eq J r, Singular.solve_isNormal h hkeep r⟩

/-- **Every solver finds a step** of a matrix that it accepts, and it solves the normal
equations. -/
theorem exists_solve {method : Method} (h : method.Accepts J) (he : method.IsExact J)
    (r : Vec ℝ m) : ∃ x, method.solve J r = .ok x ∧ IsNormal J r x := by
  have hresize : r.resize m = (.ok r : Except (Failure ℝ) _) := dif_pos rfl
  unfold solve
  rw [hresize]
  cases method with
  | lu => exact solveLu_isNormal h r
  | qr => exact solveQr_isNormal h.1 h.2 r
  | cholesky =>
    obtain ⟨T, hT, hd⟩ := h
    exact solveCholesky_isNormal hT hd r
  | svd => exact solveSvd_isNormal (he rfl) h r

end Method

end LeastSquares
