import LeastSquares.Proofs.PivotOrder

/-!
# The steps of matrices of any rank

Two of the solvers find a step of any matrix:

* the orthogonal factorization solves for the columns that stand at its first pivots, as many as its
  numeric rank. The diagonal does not increase, so these are the pivots that count;
* the singular vectors find the shortest step, but of the matrix that is left when what counts as
  zero is zero: a singular value that is not above `epsilon` times the largest one.

Results:
* `Method.solveQr_isBasic`: the orthogonal factorization, at every rank;
* `Singular.solve_isShortest`: the singular vectors;
* `Singular.cutoff_mul_norm_solve_le`: how long their step can be.
-/

namespace LeastSquares

open Matrix

variable {m n p : Nat} {J : Mat ℝ m n} {r : Vec ℝ m} {x y : Vec ℝ n}

/-! ## The orthogonal factorization -/

namespace Orthogonal

/-- The columns that stand at the first `q` pivots. -/
def leading (f : Orthogonal ℝ m n) (q : Nat) : Finset (Fin n) :=
  (Finset.univ.filter fun j : Fin n => j.val < q).image f.order

theorem mem_leading {f : Orthogonal ℝ m n} (hf : Function.Injective f.order) {q : Nat}
    {j : Fin n} : f.order j ∈ f.leading q ↔ j.val < q := by
  unfold leading
  rw [Finset.mem_image]
  constructor
  · rintro ⟨k, hk, hkj⟩
    exact hf hkj ▸ (Finset.mem_filter.mp hk).2
  · exact fun h => ⟨j, Finset.mem_filter.mpr ⟨Finset.mem_univ j, h⟩, rfl⟩

/-- Nothing of `R` is left from row and column `q` on. -/
def EndsAt (f : Orthogonal ℝ m n) (q : Nat) : Prop :=
  ∀ (i : Fin m) (j : Fin n), q ≤ i.val → q ≤ j.val → f.r i j = 0

end Orthogonal

/-- **A basic step**: it is zero outside of the columns `s`, and no other such step leaves less. -/
structure IsBasic (J : Mat ℝ m n) (r : Vec ℝ m) (s : Finset (Fin n)) (x : Vec ℝ n) : Prop where
  outside : ∀ c, c ∉ s → x c = 0
  least : ∀ y : Vec ℝ n, (∀ c, c ∉ s → y c = 0) → J.gap r x ≤ J.gap r y

namespace Method

/-- **The orthogonal factorization finds a basic step** on the columns that count, of every matrix
that has one. No step at all leaves less if nothing of `R` was discarded. -/
theorem solveQr_isBasic {rank : Nat}
    (h : numericRank (Orthogonal.factor true J).diagonal = rank) (hrank : rank ≠ 0)
    (r : Vec ℝ m) : ∃ x, solveQr J r = .ok x ∧
      IsBasic J r ((Orthogonal.factor true J).leading rank) x ∧
      ((Orthogonal.factor true J).EndsAt rank → ∀ y, J.gap r x ≤ J.gap r y) := by
  set f := Orthogonal.factor true J with hf
  have hdominates : f.Dominates J n := Orthogonal.dominates_factor J
  have htriangulates : f.Triangulates J n := hdominates.toTriangulates
  have hcounts (k : Fin n) : k.val < rank ↔ negligible < |f.diagonal k| :=
    h ▸ Orthogonal.lt_numericRank_iff (fun a b hab => hdominates.abs_diagonal_le hab) k
  have hle : rank ≤ n := by
    rw [← h, Orthogonal.numericRank_eq_card]
    exact (Finset.card_le_univ _).trans_eq (Fintype.card_fin n)
  have hd (k : Fin n) (hk : k.val < rank) : f.diagonal k ≠ 0 := fun h0 => by
    have hlt := (hcounts k).mp hk
    rw [h0, abs_zero] at hlt
    exact hlt.not_gt negligible_pos
  refine ⟨_, solveQr_of_rank h hrank r, ?_⟩
  set x : Vec ℝ n := Vec.ofFn _ with hx
  have horder (j : Fin n) : x (f.order j) = Triangular.solveUpper rank f.square f.diagonal
      (Vec.ofFn fun i => if h : i.val < m then f.transposeApply r ⟨i, h⟩ else 0) j := by
    rw [hx, Vec.ofFn_apply, Decomposition.find?_order htriangulates.order, Option.elim_some]
  have houtside (c : Fin n) (hc : c ∉ f.leading rank) : x c = 0 := by
    obtain ⟨j, rfl⟩ := Finite.surjective_of_injective htriangulates.order c
    rw [horder]
    exact Triangular.solveUpper_of_le _ _ _ _
      (not_lt.mp fun hlt => hc ((Orthogonal.mem_leading htriangulates.order).mpr hlt))
  refine ⟨⟨houtside, fun y hy => Mat.gap_le fun c hc => ?_⟩,
    fun hends y => Mat.gap_le fun c _ => ?_⟩
  · -- two steps that are zero outside of the leading columns differ only there
    have hmem : c ∈ f.leading rank := by_contra fun hout =>
      hc ((houtside c hout).trans (hy c hout).symm)
    obtain ⟨j, rfl⟩ := Finite.surjective_of_injective htriangulates.order c
    have hj := (Orthogonal.mem_leading htriangulates.order).mp hmem
    exact normal_of_order htriangulates hle hd horder fun i hi =>
      htriangulates.upper i j j.isLt (hj.trans_le hi)
  · obtain ⟨j, rfl⟩ := Finite.surjective_of_injective htriangulates.order c
    refine normal_of_order htriangulates hle hd horder fun i hi => ?_
    rcases Nat.lt_or_ge j.val rank with hj | hj
    · exact htriangulates.upper i j j.isLt (hj.trans_le hi)
    · exact hends i j hi hj

end Method

/-! ## The singular vectors -/

/-- **The shortest step**: any other one leaves more, or as much and is longer. -/
def IsShortest (J : Mat ℝ m n) (r : Vec ℝ m) (x : Vec ℝ n) : Prop :=
  ∀ y, y ≠ x → J.gap r x < J.gap r y ∨ J.gap r x = J.gap r y ∧ norm x < norm y

/-- A step with the same image is the longer one if the step is orthogonal to what they differ
in. -/
theorem norm_lt_norm (h : x.get ⬝ᵥ (y.get - x.get) = 0) (hy : y ≠ x) : norm x < norm y := by
  set d := y.get - x.get with hd
  have hne : d ≠ 0 := fun h0 => hy (Vec.ext fun c => sub_eq_zero.mp (congrFun h0 c))
  have hpos : 0 < d ⬝ᵥ d := lt_of_le_of_ne (Exact.dotProduct_self_nonneg d)
    fun h0 => hne (dotProduct_self_eq_zero.mp h0.symm)
  have hsum : y.get = x.get + d := (add_sub_cancel x.get y.get).symm
  refine (sq_lt_sq₀ (Exact.norm_nonneg x) (Exact.norm_nonneg y)).mp ?_
  rw [Exact.norm_sq, Exact.norm_sq, hsum, add_dotProduct, dotProduct_add, dotProduct_add,
    dotProduct_comm d, h]
  linarith

namespace Singular

/-- **The singular vectors find the shortest step** of the matrix that is left when what counts as
zero is zero. -/
theorem solve_isShortest {s : Singular ℝ m n} (h : s.Factors J) (r : Vec ℝ m) :
    IsShortest s.truncate.matrix r (s.solve r) := by
  have hnormal := isNormal_truncate h r
  intro y hy
  rcases lt_or_ge (s.truncate.matrix.gap r (s.solve r)) (s.truncate.matrix.gap r y) with hlt | hge
  · exact .inl hlt
  refine .inr ⟨le_antisymm (hnormal.gap_le y) hge, norm_lt_norm ?_ hy⟩
  set U := s.left.toMatrix
  set V := s.right.toMatrix
  set D := diagonal s.truncate.values.get
  set d := y.get - (s.solve r).get
  -- the difference has no coordinate at a value that is kept, the step at no other one
  have hcoordinates : D *ᵥ (Vᵀ *ᵥ d) = 0 := by
    have himage : s.scale • (U *ᵥ (D *ᵥ (Vᵀ *ᵥ d))) = 0 := by
      rw [← hnormal.mulVec_sub_eq_zero hge, s.truncate.matrix_toMatrix, smul_mulVec]
      simp only [mulVec_mulVec, Matrix.mul_assoc]
      rfl
    have hzero := (smul_eq_zero.mp himage).resolve_left h.scale_ne_zero
    have hleft := congrArg (Uᵀ *ᵥ ·) hzero
    simp only [mulVec_zero] at hleft
    rwa [mulVec_mulVec _ Uᵀ, h.left_orthonormal.toMatrix_mul, one_mulVec] at hleft
  have hweights : s.weights r ⬝ᵥ (Vᵀ *ᵥ d) = 0 := by
    refine Finset.sum_eq_zero fun k _ => ?_
    have hk := congrFun hcoordinates k
    rw [mulVec_diagonal, truncate, Vec.ofFn_apply] at hk
    unfold weights
    split_ifs at hk ⊢ with hkept
    · rw [(mul_eq_zero.mp hk).resolve_left (s.cutoff_nonneg.trans_lt hkept).ne', mul_zero]
    · exact zero_mul _
  rw [solve_get, smul_dotProduct, ← vecMul_transpose, ← dotProduct_mulVec, hweights, smul_zero]

end Singular

/-! ## How long a step can be -/

/-- Orthonormal columns keep products. -/
theorem Mat.Orthonormal.dot_mulVec {U : Mat ℝ m p} (hU : U.Orthonormal) (a b : Fin p → ℝ) :
    (U.toMatrix *ᵥ a) ⬝ᵥ (U.toMatrix *ᵥ b) = a ⬝ᵥ b := by
  rw [dotProduct_mulVec, ← mulVec_transpose, mulVec_mulVec, hU.toMatrix_mul, one_mulVec]

/-- No vector is shorter than its coordinates along orthonormal columns. -/
theorem Mat.Orthonormal.dot_coordinates_le {U : Mat ℝ m p} (hU : U.Orthonormal) (v : Fin m → ℝ) :
    (U.toMatrixᵀ *ᵥ v) ⬝ᵥ (U.toMatrixᵀ *ᵥ v) ≤ v ⬝ᵥ v := by
  set c := U.toMatrixᵀ *ᵥ v with hc
  have hcross : v ⬝ᵥ U.toMatrix *ᵥ c = c ⬝ᵥ c := by
    rw [dotProduct_mulVec, ← mulVec_transpose]
  have hrest := Exact.dotProduct_self_nonneg (v - U.toMatrix *ᵥ c)
  rw [sub_dotProduct, dotProduct_sub, dotProduct_sub, hU.dot_mulVec,
    dotProduct_comm (U.toMatrix *ᵥ c) v, hcross] at hrest
  linarith

namespace Singular

theorem le_largest (s : Singular ℝ m n) (k : Fin (min m n)) : s.values k ≤ s.largest := by
  have hle := (Exact.le_foldl_max (fun _ => True) s.values 0).2 k trivial
  unfold largest
  simp only [Exact.larger_eq]
  simpa only [if_true] using hle

/-- A value that is kept is above the cutoff, all others have no weight. -/
theorem cutoff_mul_weights_sq_le (s : Singular ℝ m n) (r : Vec ℝ m) (k : Fin (min m n)) :
    (Scalar.epsilon * s.largest) ^ 2 * s.weights r k ^ 2 ≤ (s.left.toMatrixᵀ *ᵥ r.get) k ^ 2 := by
  have hvalue := s.values_mul_weights r k
  rcases lt_or_ge (Scalar.epsilon * s.largest) (s.values k) with hk | hk
  · rw [if_pos hk] at hvalue
    rw [← hvalue, mul_pow (s.values k)]
    exact mul_le_mul_of_nonneg_right (pow_le_pow_left₀ s.cutoff_nonneg hk.le 2) (sq_nonneg _)
  · rw [weights, if_neg hk.not_gt, zero_pow two_ne_zero, mul_zero]
    exact sq_nonneg _

/-- **A step is at most as long** as the residuals over the least value that can be kept. -/
theorem cutoff_mul_norm_solve_le {s : Singular ℝ m n} (h : s.Factors J) (r : Vec ℝ m) :
    |s.scale| * (Scalar.epsilon * s.largest) * norm (s.solve r) ≤ norm r := by
  have hstep : s.scale ^ 2 * norm (s.solve r) ^ 2 = s.weights r ⬝ᵥ s.weights r := by
    rw [Exact.norm_sq, solve_get, smul_dotProduct, dotProduct_smul, h.right_orthonormal.dot_mulVec,
      smul_eq_mul, smul_eq_mul, ← mul_assoc, ← mul_assoc, sq, mul_assoc s.scale,
      mul_inv_cancel₀ h.scale_ne_zero, mul_one, mul_inv_cancel₀ h.scale_ne_zero, one_mul]
  have hcoordinates : (Scalar.epsilon * s.largest) ^ 2 * (s.weights r ⬝ᵥ s.weights r) ≤
      (s.left.toMatrixᵀ *ᵥ r.get) ⬝ᵥ (s.left.toMatrixᵀ *ᵥ r.get) := by
    rw [dotProduct, dotProduct, Finset.mul_sum]
    refine Finset.sum_le_sum fun k _ => ?_
    rw [← sq, ← sq]
    exact s.cutoff_mul_weights_sq_le r k
  have hnonneg : 0 ≤ |s.scale| * (Scalar.epsilon * s.largest) * norm (s.solve r) :=
    mul_nonneg (mul_nonneg (abs_nonneg _) s.cutoff_nonneg) (Exact.norm_nonneg _)
  refine (sq_le_sq₀ hnonneg (Exact.norm_nonneg r)).mp ?_
  calc (|s.scale| * (Scalar.epsilon * s.largest) * norm (s.solve r)) ^ 2
      = (Scalar.epsilon * s.largest) ^ 2 * (s.weights r ⬝ᵥ s.weights r) := by
        rw [← hstep, mul_pow, mul_pow, sq_abs]
        ring
    _ ≤ r.get ⬝ᵥ r.get := hcoordinates.trans (h.left_orthonormal.dot_coordinates_le r.get)
    _ = norm r ^ 2 := (Exact.norm_sq r).symm

/-- The squares of the values are those of all entries. -/
theorem Factors.sum_sq {s : Singular ℝ m n} (h : s.Factors J) :
    ∑ i, ∑ j, J i j ^ 2 = s.scale ^ 2 * ∑ k, s.values k ^ 2 := by
  set U := s.left.toMatrix
  set V := s.right.toMatrix
  set D := diagonal s.values.get
  have hgram : J.toMatrixᵀ * J.toMatrix = s.scale ^ 2 • (V * (D * D * Vᵀ)) := by
    calc J.toMatrixᵀ * J.toMatrix
        = (s.scale * s.scale) • (V * (D * (Uᵀ * U) * D * Vᵀ)) := by
          rw [h.toMatrix_eq, transpose_smul, transpose_mul, transpose_mul, transpose_transpose,
            diagonal_transpose, Matrix.smul_mul, Matrix.mul_smul, smul_smul]
          simp only [Matrix.mul_assoc]
          rfl
      _ = s.scale ^ 2 • (V * (D * D * Vᵀ)) := by
          rw [h.left_orthonormal.toMatrix_mul, Matrix.mul_one, sq]
  have htrace : (J.toMatrixᵀ * J.toMatrix).trace = s.scale ^ 2 * ∑ k, s.values k ^ 2 := by
    rw [hgram, trace_smul, trace_mul_comm, Matrix.mul_assoc, h.right_orthonormal.toMatrix_mul,
      Matrix.mul_one, diagonal_mul_diagonal, trace_diagonal, smul_eq_mul]
    simp only [sq]
  rw [← htrace, trace, Finset.sum_comm]
  refine Finset.sum_congr rfl fun j _ => ?_
  rw [diag_apply, Matrix.mul_apply]
  exact Finset.sum_congr rfl fun i _ => sq _

/-- The largest value is not below the mean of the squares. -/
theorem Factors.sum_sq_le {s : Singular ℝ m n} (h : s.Factors J) :
    ∑ i, ∑ j, J i j ^ 2 ≤ (min m n : Nat) * (s.scale * s.largest) ^ 2 := by
  have hvalues : ∑ k, s.values k ^ 2 ≤ (min m n : Nat) * s.largest ^ 2 := by
    calc ∑ k, s.values k ^ 2 ≤ ∑ _k : Fin (min m n), s.largest ^ 2 :=
          Finset.sum_le_sum fun k _ => pow_le_pow_left₀ (h.values_nonneg k) (s.le_largest k) 2
      _ = (min m n : Nat) * s.largest ^ 2 := by
          rw [Finset.sum_const, Finset.card_univ, Fintype.card_fin, nsmul_eq_mul]
  rw [h.sum_sq, mul_pow, ← mul_assoc, mul_comm _ (s.scale ^ 2), mul_assoc]
  exact mul_le_mul_of_nonneg_left hvalues (sq_nonneg _)

end Singular

end LeastSquares
