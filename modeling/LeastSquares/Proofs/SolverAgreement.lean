import LeastSquares.Proofs.Columns
import LeastSquares.Proofs.LeastSteps

/-!
# The solvers agree

Five ways to a step: elimination and the triangular root in the normal equations, the orthogonal
factorization and the singular vectors of `J`, and the decomposition of `-J` that the trust-region
method has, whose undamped direction has the sign of the negated Jacobian. Each of them has its own
thresholds and its own order of the columns. Where the columns are independent and nothing is
refused or cut, there is one solution of the normal equations, and all of them find it
(`IsAgreed`).

Elsewhere the orthogonal factorization finds a basic step and the singular vectors the shortest one.
They do so by their own idea of rank: a singular value that is not above `epsilon` times the largest
one counts as zero, even where the columns are independent. The length of the step is bounded by
that (`Singular.cutoff_mul_norm_solve_le`), and a matrix whose shortest minimiser is longer does not
get it.

Results:
* `Decomposition.direction_eq_undamped`: a parameter of zero belongs to the undamped direction;
* `Decomposition.exists_undamped_isNormal`: the undamped direction solves the normal equations;
* `exists_isAgreed`: with independent columns all ways lead to the one minimiser;
* `Method.solve_agree`: what every solver finds of every matrix.
-/

namespace LeastSquares

open Matrix

variable {m n p : Nat} {J : Mat ℝ m n} {r : Vec ℝ m} {x : Vec ℝ n}

/-! ## The undamped direction -/

theorem SolvesDamped.isNormal {D : Vec ℝ n}
    (h : SolvesDamped J D 0 (J.transposeMulVec r).get x.get) : IsNormal J r x := by
  refine isNormal_of_gram (Vec.ext fun c => ?_)
  have hc := h c
  rw [zero_mul, zero_mul, add_zero] at hc
  rw [Mat.mulVec_apply, Exact.sum_eq]
  exact hc

namespace Decomposition

variable (d : Decomposition ℝ m n) (hm : p ≤ m) (hn : p ≤ n) (qy : Vec ℝ m) (δ : ℝ) (D : Vec ℝ n)

theorem leaveZero_ne_zero (s : Damped.Newton ℝ) : s.leaveZero.lambda ≠ 0 := by
  unfold Damped.Newton.leaveZero
  split_ifs with h0
  · rw [Exact.larger_eq]
    exact (lt_max_of_lt_left Exact.leastNormal_pos).ne'
  · exact fun h => h0 ((Exact.beq_zero_iff _).mpr h)

/-- No Newton pass ends the search at a parameter of zero, wherever it began. -/
theorem newton_lambda_ne_zero (left : Nat) (s : Damped.Newton ℝ) :
    (newton hm hn qy δ D left s d).lambda ≠ 0 := by
  induction left generalizing s d with
  | zero =>
    unfold newton
    simp only [ite_self]
    exact leaveZero_ne_zero s
  | succ left ih =>
    unfold newton
    simp only
    split_ifs
    · exact leaveZero_ne_zero s
    · exact ih _ _

/-- **A parameter of zero belongs to the undamped direction**, for every radius and scaling and
every parameter that the search begins with. -/
theorem direction_eq_undamped {initial : ℝ}
    (h : (d.parameter hm hn qy δ D initial).lambda = 0) :
    (d.parameter hm hn qy δ D initial).direction = d.toColumns (d.undamped qy) := by
  rw [parameter_eq] at h ⊢
  split_ifs at h ⊢ with hfit
  · rfl
  · exact absurd h (newton_lambda_ne_zero d hm hn qy δ D _ _)

/-- **With independent columns** the undamped direction, with its sign changed, solves the normal
equations. -/
theorem exists_undamped_isNormal (hJ : LinearIndependent ℝ J.toMatrix.col) (r : Vec ℝ m) :
    ∃ d, ofJacobian J 0 = .ok d ∧
      Represents (Nat.min_le_left m n) (Nat.min_le_right m n) J r (d.transposeApply r)
        (d.writeDiagonal (min m n)) ∧
      IsNormal J r (((d.writeDiagonal (min m n)).toColumns
        ((d.writeDiagonal (min m n)).undamped (d.transposeApply r))).map fun x => -x) := by
  obtain ⟨d, hd, h⟩ := exists_ofJacobian J le_rfl
  have hrank : d.rank = n := h.rank_eq fun v => eq_zero_of_mulVec hJ
  have hall : n ≤ min m n := hrank.ge.trans h.rank_le
  have hrep := represents_writeDiagonal h h.rank_le (Nat.min_le_left m n) (Nat.min_le_right m n) r
  have hstep := isStep_undamped hrep (Vec.replicate n 0)
  exact ⟨d, hd, hrep, (hstep.solves (pivotColumns_eq_univ hrep.order hall)).isNormal⟩

end Decomposition

/-! ## One step -/

section

variable [Exact.Factorizations]

/-- **The step that all ways lead to**: it leaves less of the residuals than any other one, every
solver that accepts the matrix finds it, and so does the trust-region method whenever its damping
parameter is zero. -/
structure IsAgreed (J : Mat ℝ m n) (r : Vec ℝ m) (x : Vec ℝ n) : Prop where
  least : ∀ y, y ≠ x → J.gap r x < J.gap r y
  solved : ∀ method : Method, method.Accepts J → method.IsExact J → method.solve J r = .ok x
  undamped : ∃ d, Decomposition.ofJacobian J 0 = .ok d ∧ ∀ radius scaling initial,
    let found := (d.writeDiagonal (min m n)).parameter (Nat.min_le_left m n) (Nat.min_le_right m n)
      (d.transposeApply r) radius scaling initial
    found.lambda = 0 → (found.direction.map fun x => -x) = x

/-- **With independent columns all ways lead to the one minimiser.** -/
theorem exists_isAgreed (hJ : LinearIndependent ℝ J.toMatrix.col) (r : Vec ℝ m) :
    ∃ x, IsAgreed J r x := by
  obtain ⟨d, hd, -, hnormal⟩ := Decomposition.exists_undamped_isNormal hJ r
  refine ⟨_, fun y hy => hnormal.gap_lt hJ hy, fun method haccepts hexact => ?_, d, hd, ?_⟩
  · obtain ⟨y, hsolve, hy⟩ := Method.exists_solve haccepts hexact r
    rw [hsolve, hy.unique hnormal hJ]
  · intro radius scaling initial found hzero
    rw [Decomposition.direction_eq_undamped _ _ _ _ _ _ hzero]

/-! ## All solvers -/

namespace Method

theorem solve_svd_eq (J : Mat ℝ m n) (r : Vec ℝ m) :
    svd.solve J r = .ok ((Spectral.singular J).solve r) := by
  have hresize : r.resize m = (.ok r : Except (Failure ℝ) _) := dif_pos rfl
  unfold solve
  rw [hresize]
  exact solveSvd_eq J r

/-- **Headline.** With independent columns there is one minimiser of `‖J x - r‖`, and all ways lead
to it. Of any matrix the orthogonal factorization finds a basic step on the columns that count,
which is a minimiser if nothing was discarded, and fails if no column counts; the singular vectors
find the shortest minimiser for the matrix whose values that count as zero are zero, which is `J`
itself if no other ones do. -/
theorem solve_agree (J : Mat ℝ m n) (r : Vec ℝ m) :
    let f := Orthogonal.factor true J
    let rank := numericRank f.diagonal
    let s := Spectral.singular J
    (LinearIndependent ℝ J.toMatrix.col → ∃ x, IsAgreed J r x) ∧
    (rank = 0 → qr.solve J r = .error (.singularProblem qr)) ∧
    (rank ≠ 0 → ∃ x, qr.solve J r = .ok x ∧ IsBasic J r (f.leading rank) x ∧
      (f.EndsAt rank → ∀ y, J.gap r x ≤ J.gap r y)) ∧
    (s.Factors J → ∃ x, svd.solve J r = .ok x ∧ IsShortest s.truncate.matrix r x ∧
      ((∀ k, s.values k ≤ Scalar.epsilon * s.largest → s.values k = 0) → IsShortest J r x)) := by
  intro f rank s
  refine ⟨fun hJ => exists_isAgreed hJ r, fun h => solveQr_of_rank_zero h r,
    fun h => solveQr_isBasic rfl h r, fun hs => ⟨s.solve r, solve_svd_eq J r, ?_, fun hcut => ?_⟩⟩
  · exact Singular.solve_isShortest hs r
  · have hshortest := Singular.solve_isShortest hs r
    rwa [Singular.truncate_eq hcut, hs.matrix_eq] at hshortest

end Method

end

/-! ### A value that counts as zero

The columns `(1, 0)` and `(0, 2⁻⁶⁰)` are independent, and no residual `(1, 1)` is left by the step
`(1, 2⁶⁰)`. No step of the singular vectors is that long. -/

theorem Exact.epsilon_eq : (Scalar.epsilon : ℝ) = 1 / 2 ^ 52 := by
  unfold Scalar.epsilon
  rw [Nat.pow_eq, Nat.cast_pow, Nat.cast_ofNat]

namespace Method

/-- The first `p` vectors of the basis. -/
noncomputable def basis : Mat ℝ m p := Mat.ofFn fun i k => if i.val = k.val then 1 else 0

theorem basis_orthonormal (h : p ≤ m) : (basis : Mat ℝ m p).Orthonormal := by
  intro k l
  simp only [basis, Mat.ofFn_apply]
  rw [Finset.sum_eq_single (k.castLE h)]
  · simp [Fin.ext_iff]
  · intro i _ hi
    exact mul_eq_zero_of_left (if_neg fun hik => hi (Fin.ext hik)) _
  · exact fun hk => absurd (Finset.mem_univ _) hk

/-- A matrix of full rank whose second singular value counts as zero. -/
noncomputable def thin : Mat ℝ 2 2 :=
  Mat.ofFn fun i j => if i = j then ((![1, 2 ^ 60] i : Nat) : ℝ)⁻¹ else 0

theorem exists_thin_factors : ∃ s : Singular ℝ 2 2, s.Factors thin := by
  refine ⟨⟨1, basis, Vec.ofFn (n := 2) ![1, 1 / 2 ^ 60], basis⟩, one_ne_zero,
    basis_orthonormal (min_le_left 2 2), basis_orthonormal (min_le_right 2 2),
    fun k => ?_, fun i j => ?_⟩
  · refine le_of_le_of_eq ?_ (Vec.ofFn_apply (n := 2) _ k).symm
    revert k
    refine Fin.forall_fin_two.mpr ⟨?_, ?_⟩ <;> simp
  · refine Eq.trans ?_ (congrArg (1 * ·) (Fin.sum_univ_two _).symm)
    fin_cases i <;> fin_cases j <;> simp [thin, basis]
    norm_num

theorem solve_thin_gap {s : Singular ℝ 2 2} (h : s.Factors thin) :
    0 < thin.gap (Vec.replicate 2 1) (s.solve (Vec.replicate 2 1)) := by
  set x := s.solve (Vec.replicate 2 1)
  refine lt_of_le_of_ne (Mat.gap_nonneg _ _ _) fun h0 => ?_
  have hx : x 1 = 2 ^ 60 := by
    have hsecond := congrFun (Mat.gap_eq_zero_iff.mp h0.symm) 1
    simp [mulVec, dotProduct, Mat.toMatrix, thin, Vec.replicate_apply] at hsecond
    linarith
  have hlong : (2 : ℝ) ^ 120 ≤ norm x ^ 2 := by
    rw [Exact.norm_sq, dotProduct, Fin.sum_univ_two]
    change _ ≤ x 0 * x 0 + x 1 * x 1
    rw [hx]
    linarith [mul_self_nonneg (x 0)]
  have hlargest : 1 / 2 ≤ (s.scale * s.largest) ^ 2 := by
    have hle := h.sum_sq_le
    simp only [Fin.sum_univ_two, thin, Mat.ofFn_apply] at hle
    norm_num at hle
    linarith
  have hshort : (s.scale * s.largest) ^ 2 * (1 / 2 ^ 52) ^ 2 * norm x ^ 2 ≤ 2 := by
    have hbound := pow_le_pow_left₀ (mul_nonneg (mul_nonneg (abs_nonneg _) s.cutoff_nonneg)
      (Exact.norm_nonneg _)) (Singular.cutoff_mul_norm_solve_le h (Vec.replicate 2 1)) 2
    have hresiduals : norm (Vec.replicate 2 (1 : ℝ)) ^ 2 = 2 := by
      rw [Exact.norm_sq, dotProduct, Fin.sum_univ_two]
      change Vec.replicate 2 (1 : ℝ) 0 * Vec.replicate 2 1 0 + _ * Vec.replicate 2 1 1 = _
      rw [Vec.replicate_apply, Vec.replicate_apply]
      norm_num
    rw [hresiduals, mul_pow, mul_pow, sq_abs, Exact.epsilon_eq, mul_pow] at hbound
    rw [mul_pow]
    linarith
  have hproduct : (1 / 2 : ℝ) * (1 / 2 ^ 52) ^ 2 * 2 ^ 120 ≤ 2 := by
    refine le_trans ?_ hshort
    gcongr
  norm_num at hproduct

/-- **The step of the singular vectors is not the shortest minimiser**, not even a minimiser. -/
theorem solve_svd_not_isShortest :
    let _ := Exact.factorizations
    (Spectral.singular thin).Factors thin ∧
      ∃ x y : Vec ℝ 2, svd.solve thin (Vec.replicate 2 1) = .ok x ∧ y.get = ![1, 2 ^ 60] ∧
        thin.gap (Vec.replicate 2 1) y = 0 ∧ 0 < thin.gap (Vec.replicate 2 1) x ∧
        ¬ IsShortest thin (Vec.replicate 2 1) x := by
  intro _
  have hs : (Spectral.singular thin).Factors thin :=
    Exact.factorizations_singular exists_thin_factors
  have hgap := solve_thin_gap hs
  set x := (Spectral.singular thin).solve (Vec.replicate 2 1)
  set y : Vec ℝ 2 := Vec.ofFn ![1, 2 ^ 60]
  have hy : thin.gap (Vec.replicate 2 1) y = 0 := by
    rw [Mat.gap_eq_zero_iff]
    funext i
    fin_cases i <;> simp [mulVec, dotProduct, Mat.toMatrix, thin, y, Vec.replicate_apply]
    norm_num
  refine ⟨hs, x, y, solve_svd_eq _ _, funext fun i => Vec.ofFn_apply _ i, hy, hgap, fun h => ?_⟩
  have hne : y ≠ x := fun h0 => hgap.ne' (h0 ▸ hy)
  rcases h y hne with hlt | ⟨heq, -⟩
  · exact (hgap.trans hlt).ne' hy
  · exact hgap.ne' (heq.trans hy)

end Method

/-! ## An example

One column, `(3, 4)`, and the residuals `(5, 10)`. -/

namespace Method

/-- The column. -/
noncomputable def slope : Mat ℝ 2 1 := Mat.ofFn fun i _ => ((![3, 4] i : Nat) : ℝ)

/-- The residuals. -/
noncomputable def rise : Vec ℝ 2 := Vec.ofFn fun i => ((![5, 10] i : Nat) : ℝ)

theorem slope_gram : slope.gram 0 0 = 25 := by
  rw [Mat.gram_apply, Exact.sum_eq, Fin.sum_univ_two]
  simp [slope]
  norm_num

theorem slope_independent : LinearIndependent ℝ slope.toMatrix.col :=
  LinearIndependent.of_subsingleton 0 fun h => by
    have h0 : slope 0 0 = 0 := congrFun h 0
    simp [slope] at h0

theorem slope_accepts_lu [Exact.Factorizations] : lu.Accepts slope := fun i => by
  rw [LowerUpper.diagonal_single, slope_gram, negligible]
  norm_num

theorem slope_accepts_cholesky [Exact.Factorizations] : cholesky.Accepts slope := by
  have hpivot : (0 : ℝ) < slope.gram 0 0 -
      sumOver (· < (0 : Fin 1)) fun l => (Mat.ofFn fun _ _ => 0 : Mat ℝ 1 1) l 0 *
        (Mat.ofFn fun _ _ => 0 : Mat ℝ 1 1) l 0 := by
    rw [slope_gram, Exact.sumOver_eq]
    simp
  obtain ⟨T, hT⟩ : ∃ T, Cholesky.factor slope.gram = some T := ⟨_, if_pos hpivot⟩
  refine ⟨T, hT, fun i => ?_⟩
  obtain rfl := Subsingleton.elim i 0
  have hrooted := Cholesky.rooted_factor hT
  have hpos : 0 < T 0 0 := hrooted.pos 0 Nat.one_pos
  have hsquare := hrooted.product 0 0 Nat.one_pos le_rfl
  rw [slope_gram, Fin.sum_univ_one] at hsquare
  have hone : 1 ≤ T 0 0 := le_of_not_gt fun hlt => by nlinarith
  rw [Cholesky.diagonal_apply, negligible]
  exact lt_of_lt_of_le (by norm_num) hone

theorem slope_accepts_qr [Exact.Factorizations] : qr.Accepts slope := by
  refine ⟨Nat.one_pos, fun k => ?_⟩
  obtain rfl := Subsingleton.elim k 0
  have hfirst : (0 : Fin 2).val = 0 ∧ (0 : Fin 1).val = 0 := ⟨rfl, rfl⟩
  have hlength := (Orthogonal.dominates_factor slope).column_sq_le hfirst.1 hfirst.2 0
  rw [← Mat.gram_eq, slope_gram] at hlength
  have hfive : (5 : ℝ) ^ 2 ≤ |(Orthogonal.factor true slope).diagonal 0| ^ 2 := by
    rw [sq_abs]
    linarith
  have hle := (sq_le_sq₀ (by norm_num) (abs_nonneg _)).mp hfive
  refine lt_of_lt_of_le ?_ hle
  rw [negligible]
  norm_num

theorem exists_slope_factors : ∃ s : Singular ℝ 2 1, s.Factors slope := by
  have hsingle (k l : Fin (min 2 1)) : k = l := Subsingleton.elim (α := Fin 1) k l
  refine ⟨⟨5, Mat.ofFn fun i _ => ![3 / 5, 4 / 5] i, Vec.replicate _ 1, Mat.ofFn fun _ _ => 1⟩,
    by norm_num, fun k l => ?_, fun k l => ?_, fun k => ?_, fun i j => ?_⟩
  · rw [if_pos (hsingle k l), Fin.sum_univ_two]
    simp only [Mat.ofFn_apply]
    norm_num
  · rw [if_pos (hsingle k l), Fin.sum_univ_one]
    simp only [Mat.ofFn_apply, mul_one]
  · rw [Vec.replicate_apply]
    exact zero_le_one
  · refine Eq.trans ?_ (congrArg (5 * ·) (Fin.sum_univ_one _).symm)
    simp only [slope, Mat.ofFn_apply, Vec.replicate_apply, mul_one]
    fin_cases i <;> norm_num

theorem slope_accepts_svd [Exact.Factorizations] (hs : (Spectral.singular slope).Factors slope) :
    svd.Accepts slope := by
  intro k
  set s := Spectral.singular slope
  obtain rfl : k = (0 : Fin 1) := Subsingleton.elim (α := Fin 1) k 0
  have hsum : s.scale ^ 2 * s.values (0 : Fin 1) ^ 2 = 25 := by
    have hvalues : ∑ k, s.values k ^ 2 = s.values (0 : Fin 1) ^ 2 := Fin.sum_univ_one _
    rw [← hvalues, ← hs.sum_sq]
    simp only [Fin.sum_univ_two, Fin.sum_univ_one, slope, Mat.ofFn_apply]
    norm_num
  have hpos : 0 < s.values (0 : Fin 1) := by
    refine lt_of_le_of_ne (hs.values_nonneg _) fun h0 => ?_
    rw [← h0] at hsum
    norm_num at hsum
  have hlargest : s.largest = s.values (0 : Fin 1) := by
    have hfold : s.largest = Scalar.larger 0 (s.values (0 : Fin 1)) := rfl
    rw [hfold, Exact.larger_eq, max_eq_right hpos.le]
  rw [hlargest, Exact.epsilon_eq]
  linarith

/-- A column of zeros has no step. -/
theorem numericRank_zero :
    numericRank (Orthogonal.factor true (Mat.ofFn fun _ _ => 0 : Mat ℝ 2 1)).diagonal = 0 := by
  refine Nat.le_zero.mp ?_
  exact (Orthogonal.dominates_factor _).numericRank_le (j := 0) fun i => Mat.ofFn_apply _ i _

theorem solve_agree_slope :
    let _ := Exact.factorizations
    (∃ x : Vec ℝ 1, x 0 = 11 / 5 ∧ (∀ y, y ≠ x → slope.gap rise x < slope.gap rise y) ∧
      (∀ method : Method, method.solve slope rise = .ok x) ∧
      (∃ d, Decomposition.ofJacobian slope 0 = .ok d ∧
        let found := (d.writeDiagonal (min 2 1)).parameter (Nat.min_le_left 2 1)
          (Nat.min_le_right 2 1) (d.transposeApply rise) 10 (Vec.replicate 1 1) 0
        found.lambda = 0 ∧ (found.direction.map fun x => -x) = x) ∧
      IsShortest slope rise x ∧ ∀ y, slope.gap rise x ≤ slope.gap rise y) ∧
    qr.solve (Mat.ofFn fun _ _ => 0 : Mat ℝ 2 1) rise = .error (.singularProblem qr) := by
  intro _
  have hs : (Spectral.singular slope).Factors slope :=
    Exact.factorizations_singular exists_slope_factors
  have haccepts (method : Method) : method.Accepts slope := by
    cases method with
    | lu => exact slope_accepts_lu
    | qr => exact slope_accepts_qr
    | cholesky => exact slope_accepts_cholesky
    | svd => exact slope_accepts_svd hs
  obtain ⟨hagreed, -, hbasic, hshortest⟩ := solve_agree slope rise
  obtain ⟨x, hx⟩ := hagreed slope_independent
  have hsolve (method : Method) : method.solve slope rise = .ok x :=
    hx.solved method (haccepts method) fun _ => hs
  obtain ⟨y, hy, hnormal⟩ := exists_solve slope_accepts_lu (fun h => by cases h) rise
  obtain rfl := Except.ok.inj (hy.symm.trans (hsolve lu))
  have hvalue : y 0 = 11 / 5 := by
    have h := congrFun hnormal 0
    simp [mulVec, dotProduct, Fin.sum_univ_two, Mat.toMatrix, slope, rise] at h
    linarith
  refine ⟨⟨y, hvalue, hx.least, hsolve, ?_, ?_, ?_⟩, (solve_agree _ rise).2.1 numericRank_zero⟩
  · obtain ⟨d, hd, hrep, hundamped⟩ := Decomposition.exists_undamped_isNormal slope_independent rise
    obtain ⟨d', hd', hdirection⟩ := hx.undamped
    obtain rfl := Except.ok.inj (hd'.symm.trans hd)
    have hfound := Decomposition.parameter_spec hrep (D := Vec.replicate 1 1) (δ := 10)
      (fun c => one_pos.trans_eq (Vec.replicate_apply 1 c).symm) (by norm_num) le_rfl
    have hzero := hfound.2.2.1.mpr <| by
      rw [hundamped.unique hnormal slope_independent, Exact.norm_single, Damped.scaled,
        Vec.ofFn_apply, Vec.replicate_apply, hvalue]
      norm_num [abs_of_pos]
    exact ⟨d', hd, hzero, hdirection _ _ _ hzero⟩
  · obtain ⟨z, hz, -, hzshortest⟩ := hshortest hs
    obtain rfl := Except.ok.inj (hz.symm.trans (hsolve svd))
    exact hzshortest fun k hk => absurd hk (slope_accepts_svd hs k).not_ge
  · have hrank : numericRank (Orthogonal.factor true slope).diagonal = 1 :=
      numericRank_eq slope_accepts_qr.2
    obtain ⟨z, hz, -, hleast⟩ := hbasic (hrank.trans_ne Nat.one_ne_zero)
    obtain rfl := Except.ok.inj (hz.symm.trans (hsolve qr))
    exact hleast fun i j _ hj => absurd (hrank.ge.trans hj) (Nat.not_le.mpr j.isLt)

end Method

end LeastSquares
