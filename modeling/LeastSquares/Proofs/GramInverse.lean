import Mathlib.Algebra.Order.Star.Real
import Mathlib.LinearAlgebra.Matrix.PosDef
import Mathlib.LinearAlgebra.Matrix.Rank
import LeastSquares.Proofs.Covariances
import LeastSquares.Proofs.OrthogonalExtension

/-!
# Covariances or a singular matrix

Whether `JᵀJ` counts as singular is decided on the diagonal of the `R` of its orthogonal
factorization, and what is found then is `R⁻¹ Qᵀ`. In exact arithmetic a Jacobian of deficient rank
leaves a zero on that diagonal, whatever its shape, and whatever passes a threshold is the inverse
of `JᵀJ`: symmetric, with a positive diagonal. So the standard errors are roots of positive
numbers. Neither they nor the covariances depend on what a quotient by zero or the root of a
negative number is (`Extends`).

Results:
* `Extends.map_covariances`, `Extends.map_sigma`: both, whatever such a quotient or root is;
* `Jacobian.pivots_ne_zero_iff`: a pivot is zero if and only if the rank is deficient;
* `Jacobian.covariances_inverts`: the covariances.
-/

namespace LeastSquares

open Matrix

variable {m n : Nat}

/-! ## Other arithmetics -/

namespace Extends

variable {β : Type} [Scalar β] {ι : ℝ → β} (h : Extends ι)

include h

theorem map_gram (J : Mat ℝ m n) : (J.map ι).gram = J.gram.map ι := by
  unfold Mat.gram
  simp only [Mat.map_ofFn, Mat.map_apply, ← h.mul, h.sum_map]

theorem map_diagonal (f : Orthogonal ℝ m n) : (f.map ι).diagonal = f.diagonal.map ι := by
  unfold Orthogonal.diagonal Orthogonal.map
  simp only [Vec.map_ofFn, Mat.map_apply, apply_dite ι, h.zero]

theorem map_isFinite (A : Mat ℝ m n) : (A.map ι).isFinite = true :=
  (Mat.isFinite_iff _).mpr fun i j => by rw [Mat.map_apply, h.finite]

/-- A column of the inverse, solved for with pivots that are not zero. -/
theorem map_column (f : Orthogonal ℝ n n) (hd : ∀ k, f.diagonal k ≠ 0) (j : Fin n) :
    Triangular.solveUpper n (f.map ι).r (f.diagonal.map ι) (Vec.ofFn fun i => (f.map ι).q j i) =
      (Triangular.solveUpper n f.r f.diagonal (Vec.ofFn fun i => f.q j i)).map ι := by
  rw [← h.map_solveUpper fun k _ => hd k, Vec.map_ofFn]
  unfold Orthogonal.map
  simp only [Mat.map_apply]

/-- **The covariances**, where no pivot is zero. -/
theorem map_covariances {J : Mat ℝ m n} {threshold : Number ℝ} {t : Number β}
    (ht : t.value = ι threshold.value) {C : Mat ℝ n n}
    (hC : Jacobian.covariances J threshold = .ok C) :
    Jacobian.covariances (J.map ι) t = .ok (C.map ι) := by
  obtain ⟨hpivots, rfl⟩ := Jacobian.covariances_eq_ok_iff.mp hC
  set f := Orthogonal.factor false J.gram with hf
  have hbelow : ¬ ∃ k, Scalar.abs (f.diagonal.map ι k) ≤ t.value := by
    rintro ⟨k, hk⟩
    rw [Vec.map_apply, ← h.abs, ht, h.le_iff] at hk
    exact (hpivots k).1.not_ge hk
  have hzero : ¬ ∃ k, (f.diagonal.map ι k == 0) = true := by
    rintro ⟨k, hk⟩
    rw [Vec.map_apply, h.beq_zero] at hk
    exact (hpivots k).2 ((Exact.beq_zero_iff _).mp hk)
  have hfinite : (f.map ι).isFinite = true :=
    Bool.and_eq_true_iff.mpr ⟨h.map_isFinite f.q, h.map_isFinite f.r⟩
  unfold Jacobian.covariances
  simp only [h.map_gram, h.map_factor, ← hf, h.map_diagonal, h.map_isFinite, hfinite,
    Bool.true_eq_false, if_false, if_neg hbelow, if_neg hzero]
  refine congrArg Except.ok (Mat.ext fun i j => ?_)
  rw [Mat.map_apply, Mat.ofFn_apply, Vec.ofFn_apply, h.map_column f fun k => (hpivots k).2,
    Vec.map_apply, Jacobian.solved, Mat.ofFn_apply, Vec.ofFn_apply]

/-- **The standard errors**, which are roots of numbers that are not negative. -/
theorem map_sigma {J : Mat ℝ m n} {threshold : Number ℝ} {t : Number β}
    (ht : t.value = ι threshold.value) {C : Mat ℝ n n}
    (hC : Jacobian.covariances J threshold = .ok C) (hnonneg : ∀ i, 0 ≤ C i i) :
    Jacobian.sigma (J.map ι) t = .ok ((Vec.ofFn fun i => √(C i i)).map ι) := by
  unfold Jacobian.sigma
  rw [h.map_covariances ht hC]
  refine congrArg Except.ok (Vec.ext fun i => ?_)
  rw [Vec.ofFn_apply, Vec.map_apply, Vec.ofFn_apply, Mat.map_apply, ← h.sqrt (hnonneg i)]
  rfl

end Extends

/-! ## The rank -/

/-- The columns are independent if and only if the rank is full. -/
theorem rank_eq_iff {J : Matrix (Fin m) (Fin n) ℝ} :
    J.rank = n ↔ LinearIndependent ℝ J.col := by
  rw [linearIndependent_iff_card_eq_finrank_span, Fintype.card_fin, J.rank_eq_finrank_span_cols,
    Set.finrank, eq_comm]

namespace Jacobian

variable {J : Mat ℝ m n} {threshold : Number ℝ}

/-- With independent columns `JᵀJ` is positive definite. -/
theorem gram_posDef (h : LinearIndependent ℝ J.toMatrix.col) :
    (J.toMatrixᵀ * J.toMatrix).PosDef := by
  have hdefinite := PosDef.conjTranspose_mul_self J.toMatrix (mulVec_injective_iff.mpr h)
  rwa [conjTranspose_eq_transpose_of_trivial] at hdefinite

/-- The pivots multiply out to the determinant of `JᵀJ`, up to that of an orthogonal matrix. -/
theorem det_gram (J : Mat ℝ m n) : (J.toMatrixᵀ * J.toMatrix).det =
    (Orthogonal.factor false J.gram).q.toMatrix.det * ∏ k, pivots J k := by
  set f := Orthogonal.factor false J.gram with hf
  have ht : f.Triangulates J.gram n := Orthogonal.triangulates_factor false J.gram
  have hupper : f.r.toMatrix.IsUpperTriangular := fun i j hij => ht.upper i j j.isLt hij
  have hpivot (k : Fin n) : pivots J k = f.r.toMatrix k k :=
    (Vec.ofFn_apply _ k).trans (dif_pos k.isLt)
  rw [← Mat.gram_toMatrix, ← Orthogonal.product_factor, det_mul, det_of_isUpperTriangular hupper]
  simp only [hpivot]
  rfl

/-- **A pivot is zero if and only if the rank is deficient**, whatever the shape. -/
theorem pivots_ne_zero_iff : (∀ k, pivots J k ≠ 0) ↔ J.toMatrix.rank = n := by
  rw [rank_eq_iff]
  refine ⟨linearIndependent, fun h k => ?_⟩
  have hdet := (isUnit_iff_isUnit_det _).mp (gram_posDef h).isUnit
  rw [det_gram] at hdet
  exact Finset.prod_ne_zero_iff.mp (right_ne_zero_of_mul hdet.ne_zero) k (Finset.mem_univ k)

/-! ## The covariances -/

/-- **The inverse of `JᵀJ`**, as covariances have to be. -/
structure IsInverse (J : Mat ℝ m n) (C : Mat ℝ n n) : Prop where
  left : C.toMatrix * (J.toMatrixᵀ * J.toMatrix) = 1
  right : J.toMatrixᵀ * J.toMatrix * C.toMatrix = 1
  symmetric : C.toMatrix.IsSymm
  diagonal_pos : ∀ i, 0 < C i i

/-- What is solved for where no pivot is zero. -/
theorem isInverse_solved (h : ∀ k, pivots J k ≠ 0) : IsInverse J (solved J) := by
  have hright := gram_mul_solved h
  have hdefinite : (solved J).toMatrix.PosDef := by
    rw [← inv_eq_right_inv hright]
    exact (gram_posDef (linearIndependent h)).inv
  exact
    { left := mul_eq_one_comm.mp hright
      right := hright
      symmetric := isHermitian_iff_isSymm.mp hdefinite.isHermitian
      diagonal_pos := fun i => hdefinite.diag_pos }

/-- A threshold that is not negative refuses a singular matrix and nothing else: one with a pivot
that does not pass it. -/
theorem covariances_eq_error_iff (h0 : 0 ≤ threshold.value) {f : Failure ℝ} :
    covariances J threshold = .error f ↔
      (∃ k, |pivots J k| ≤ threshold.value) ∧ f = .singularCovariance threshold := by
  rw [covariances_eq]
  split_ifs with hbelow hzero
  · exact ⟨fun h => ⟨hbelow, (Except.error.inj h).symm⟩, fun h => congrArg _ h.2.symm⟩
  · -- a pivot that is zero passes no such threshold
    obtain ⟨k, hk⟩ := hzero
    refine absurd ⟨k, ?_⟩ hbelow
    rw [(Exact.beq_zero_iff _).mp hk, abs_zero]
    exact h0
  · exact ⟨nofun, fun h => absurd h.1 hbelow⟩

/-- **Covariances and standard errors that are the same in every arithmetic** that contains the real
numbers, whatever its quotients by zero and its roots of negative numbers are. -/
def IsDefined (J : Mat ℝ m n) (threshold : Number ℝ) (C : Mat ℝ n n) (s : Vec ℝ n) : Prop :=
  ∀ {β : Type} [Scalar β] {ι : ℝ → β}, Extends ι → ∀ t : Number β, t.value = ι threshold.value →
    covariances (J.map ι) t = .ok (C.map ι) ∧ sigma (J.map ι) t = .ok (s.map ι)

/-- **Covariances or a singular matrix**, at a threshold. -/
structure Inverts (J : Mat ℝ m n) (threshold : Number ℝ) : Prop where
  /-- Nothing is refused but a singular matrix. -/
  refused : ∀ f, covariances J threshold = .error f → f = .singularCovariance threshold
  /-- A Jacobian of deficient rank is, as every one with more columns than rows. -/
  deficient : J.toMatrix.rank < n →
    covariances J threshold = .error (.singularCovariance threshold) ∧
      sigma J threshold = .error (.singularCovariance threshold)
  /-- At the threshold zero no other is. -/
  regular : threshold.value = 0 → J.toMatrix.rank = n → ∃ C, covariances J threshold = .ok C
  /-- What is found is the inverse, without a quotient by zero, and the standard errors are the
  positive roots of its diagonal. -/
  found : ∀ C, covariances J threshold = .ok C → (∀ k, pivots J k ≠ 0) ∧ IsInverse J C ∧
    ∃ s, sigma J threshold = .ok s ∧ (∀ i, 0 < s i ∧ s i ^ 2 = C i i) ∧ IsDefined J threshold C s
  /-- What is refused stays refused at a higher threshold. -/
  raised : ∀ higher : Number ℝ, threshold.value ≤ higher.value →
    ∀ f, covariances J threshold = .error f →
      covariances J higher = .error (.singularCovariance higher)

/-- **Headline.** For every Jacobian, of any shape and rank, and every threshold that is not
negative: the covariances are the inverse of `JᵀJ`, or it is refused as singular. -/
theorem covariances_inverts (J : Mat ℝ m n) {threshold : Number ℝ} (h0 : 0 ≤ threshold.value) :
    Inverts J threshold where
  refused f h := ((covariances_eq_error_iff h0).mp h).2
  deficient hrank := by
    obtain ⟨k, hk⟩ := not_forall.mp fun h => hrank.ne (pivots_ne_zero_iff.mp h)
    have hzero : |pivots J k| ≤ threshold.value := by
      rw [not_not.mp hk, abs_zero]
      exact h0
    have hC := (covariances_eq_error_iff h0).mpr ⟨⟨k, hzero⟩, rfl⟩
    refine ⟨hC, ?_⟩
    unfold sigma
    rw [hC]
    rfl
  regular hzero hrank := by
    have hne := pivots_ne_zero_iff.mpr hrank
    exact ⟨_, covariances_eq_ok_iff.mpr ⟨fun k => ⟨hzero ▸ abs_pos.mpr (hne k), hne k⟩, rfl⟩⟩
  found C hC := by
    obtain ⟨hpivots, hsolved⟩ := covariances_eq_ok_iff.mp hC
    have hne (k : Fin n) : pivots J k ≠ 0 := (hpivots k).2
    have hinverse : IsInverse J C := hsolved ▸ isInverse_solved hne
    have hpos := hinverse.diagonal_pos
    refine ⟨hne, hinverse, _, sigma_eq hC, fun i => ?_, fun h t ht => ?_⟩
    · rw [Vec.ofFn_apply]
      exact ⟨Real.sqrt_pos.mpr (hpos i), Real.sq_sqrt (hpos i).le⟩
    · exact ⟨h.map_covariances ht hC, h.map_sigma ht hC fun i => (hpos i).le⟩
  raised higher hle f h := by
    obtain ⟨⟨k, hk⟩, -⟩ := (covariances_eq_error_iff h0).mp h
    exact (covariances_eq_error_iff (h0.trans hle)).mpr ⟨⟨k, hk.trans hle⟩, rfl⟩

/-- A matrix with more columns than rows, and a column of two ones. -/
theorem covariances_inverts_wideMatrix :
    0 ≤ (defaultThreshold : Number ℝ).value ∧
      covariances Decomposition.wideMatrix defaultThreshold =
        .error (.singularCovariance defaultThreshold) ∧
      ∃ C, covariances (Mat.ofFn fun _ _ => 1 : Mat ℝ 2 1) defaultThreshold = .ok C ∧
        IsInverse (Mat.ofFn fun _ _ => 1 : Mat ℝ 2 1) C := by
  have h0 := defaultThreshold_nonneg
  have hrank : Decomposition.wideMatrix.toMatrix.rank < 3 :=
    (rank_le_height _).trans_lt (by decide)
  obtain ⟨C, hC, -⟩ := exists_covariances h0 (defaultThreshold_lt_single one_le_gram_ones)
  exact ⟨h0, ((covariances_inverts _ h0).deficient hrank).1, C, hC,
    ((covariances_inverts _ h0).found C hC).2.1⟩

end Jacobian

end LeastSquares
