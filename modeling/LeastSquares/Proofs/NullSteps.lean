import LeastSquares.Proofs.PivotOrder

/-!
# Full steps with a column of zeros

What the four solvers make of a matrix with a column of zeros, in exact arithmetic. Column exchanges
put it behind the numeric rank, and a singular vector whose value counts does not see it, so
these two leave the parameter where it is. The normal equations have a zero row and column there:
elimination finds a zero pivot and the triangular root a square that is not positive, and both
refuse the matrix.

Results:
* `Method.solve_null`: the step of every solver is zero there, if it finds one;
* `Method.solve_singular`: the normal equations are refused.
-/

namespace LeastSquares

open Matrix

variable {m n : Nat} {J : Mat ℝ m n} {c : Fin n}

/-! ## The factorizations -/

/-- The column stays one of zeros during elimination. -/
theorem LowerUpper.factor_null {A : Mat ℝ n n} (hc : ∀ i, A i c = 0) (i : Fin n) :
    (LowerUpper.factor A).factors i c = 0 := by
  refine foldl_finRange (I := fun _ (e : LowerUpper ℝ n) => ∀ i, e.factors i c = 0) hc
    (fun k e he i => ?_) i
  have hswap (i : Fin n) : (e.swap k (e.pivotRow k)).factors i c = 0 := by
    unfold LowerUpper.swap
    rw [Mat.ofFn_apply]
    exact he _
  unfold LowerUpper.clear
  split_ifs with hpivot
  · exact hswap i
  · simp only [Mat.ofFn_apply, hswap, mul_zero, sub_zero]
    split_ifs with hki hck
    · -- the pivot of the column itself would be zero
      subst hck
      exact absurd ((Exact.beq_zero_iff _).mpr (hswap c)) hpivot
    all_goals rfl

/-- A matrix with a zero on its diagonal has no triangular root. -/
theorem Cholesky.factor_null {A : Mat ℝ n n} (hc : A c c = 0) : Cholesky.factor A = none := by
  cases hT : Cholesky.factor A with
  | none => rfl
  | some T =>
    have h := rooted_factor hT
    have hsum := h.product c c c.isLt le_rfl
    have hle : T c c * T c c ≤ ∑ l, T l c * T l c :=
      Finset.single_le_sum (f := fun l => T l c * T l c) (fun l _ => mul_self_nonneg _)
        (Finset.mem_univ c)
    have hpos := mul_pos (h.pos c c.isLt) (h.pos c c.isLt)
    rw [← hsum, hc] at hle
    exact absurd hpos hle.not_gt

/-- A singular vector with a positive value has no entry at the column. -/
theorem Singular.Factors.right_null {s : Singular ℝ m n} (h : s.Factors J)
    (hc : ∀ i, J i c = 0) {k : Fin (min m n)} (hk : 0 < s.values k) : s.right c k = 0 := by
  have hproduct : s.left.toMatrixᵀ * J.toMatrix =
      s.scale • (diagonal s.values.get * s.right.toMatrixᵀ) := by
    rw [h.toMatrix_eq, Matrix.mul_smul, Matrix.mul_assoc, ← Matrix.mul_assoc,
      h.left_orthonormal.toMatrix_mul, Matrix.one_mul]
  have hentry := congrFun (congrFun hproduct k) c
  rw [Matrix.smul_apply, diagonal_mul, Matrix.mul_apply] at hentry
  have hzero : ∑ i, s.left.toMatrixᵀ k i * J.toMatrix i c = 0 :=
    Finset.sum_eq_zero fun i _ => mul_eq_zero_of_right _ (hc i)
  rw [hzero, eq_comm, smul_eq_mul, mul_eq_zero, mul_eq_zero] at hentry
  exact (hentry.resolve_left h.scale_ne_zero).resolve_left hk.ne'

theorem Singular.solve_null {s : Singular ℝ m n} (h : s.Factors J) (hc : ∀ i, J i c = 0)
    (r : Vec ℝ m) : s.solve r c = 0 := by
  unfold Singular.solve
  simp only [Vec.ofFn_apply, Exact.sum_eq]
  rw [Finset.sum_eq_zero fun k _ => ?_, zero_div, zero_mul]
  split_ifs with hk
  · rw [h.right_null hc (s.cutoff_nonneg.trans_lt hk), zero_mul]
  · rw [mul_zero]

/-- The normal equations have a zero column there. -/
theorem Mat.gram_null (hc : ∀ i, J i c = 0) (a : Fin n) : J.gram a c = 0 := by
  rw [Mat.gram_apply, Exact.sum_eq]
  exact Finset.sum_eq_zero fun i _ => by rw [hc, mul_zero]

/-! ## The solvers -/

namespace Method

/-- Columns behind the numeric rank get no step. -/
theorem solveQr_null (hc : ∀ i, J i c = 0) {r : Vec ℝ m} {x : Vec ℝ n}
    (h : solveQr J r = .ok x) : x c = 0 := by
  have hf := Orthogonal.dominates_factor J
  have hrank : numericRank (Orthogonal.factor true J).diagonal ≠ 0 := fun h0 => by
    cases (solveQr_of_rank_zero h0 r).symm.trans h
  obtain rfl := Except.ok.inj ((solveQr_of_rank rfl hrank r).symm.trans h)
  obtain ⟨j, rfl⟩ := Finite.surjective_of_injective hf.order c
  rw [Vec.ofFn_apply, Decomposition.find?_order hf.order, Option.elim_some]
  exact Triangular.solveUpper_of_le _ _ _ _ (hf.numericRank_le hc)

variable [Exact.Factorizations] {r : Vec ℝ m}

/-- **The normal equations are refused.** -/
theorem solve_singular (hc : ∀ i, J i c = 0) {method : Method}
    (hmethod : method = lu ∨ method = cholesky) :
    method.solve J r = .error (.singularProblem method) := by
  have hresize : r.resize m = (.ok r : Except (Failure ℝ) _) := dif_pos rfl
  unfold solve
  rw [hresize]
  rcases hmethod with rfl | rfl
  · change solveLu J r = _
    have htest : ∃ i, Scalar.abs ((LowerUpper.factor J.gram).diagonal i) < negligible := by
      refine ⟨c, ?_⟩
      rw [LowerUpper.diagonal, Vec.ofFn_apply, LowerUpper.factor_null (Mat.gram_null hc)]
      exact lt_of_eq_of_lt abs_zero negligible_pos
    unfold solveLu
    simp only [isFinite_mat, Bool.true_eq_false, if_false, if_pos htest]
    rfl
  · change solveCholesky J r = _
    unfold solveCholesky
    simp only [isFinite_mat, Bool.true_eq_false, if_false,
      Cholesky.factor_null (Mat.gram_null hc c)]
    rfl

/-- **A step that is found does not move the parameter.** -/
theorem solve_null (hc : ∀ i, J i c = 0) {method : Method} (he : method.IsExact J)
    {x : Vec ℝ n} (h : method.solve J r = .ok x) : x c = 0 := by
  have hresize : r.resize m = (.ok r : Except (Failure ℝ) _) := dif_pos rfl
  cases method with
  | lu => cases (solve_singular hc (.inl rfl)).symm.trans h
  | cholesky => cases (solve_singular hc (.inr rfl)).symm.trans h
  | qr => exact solveQr_null hc h
  | svd =>
    unfold solve at h
    rw [hresize] at h
    change solveSvd J r = .ok x at h
    have hJ : J.isFinite = true := isFinite_mat J
    have hr : r.isFinite = true := isFinite_vec r
    unfold solveSvd requireFinite at h
    simp only [hJ, hr, Bool.true_eq_false, if_false, if_true] at h
    obtain rfl := Except.ok.inj h
    exact Singular.solve_null (he rfl) hc r

end Method

end LeastSquares
