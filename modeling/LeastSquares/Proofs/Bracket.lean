import LeastSquares.Proofs.Minimizer
import LeastSquares.Proofs.Secular

/-!
# The bracket of the damping parameter

The Newton search for the damping parameter in exact arithmetic, at a decomposition of full rank
whose undamped direction is too long. With `x(λ)` the damped solution, `IsDamped`, the scaled
directions `y(λ) = D x(λ)` solve the damped equations of `Secular`, for the triangle and the
gradient divided by the scaling. So there is one root `λ*` of `‖D x(λ)‖ = δ`. The slope that a pass
divides by comes from forward substitution, before the first pass in `R` and after it in the
triangle that the damped solve left (`dot_eq_slope`). The upper end of the bracket is never
enforced: the parameter stays below it because no Newton step passes the root.

Results:
* `FullRank`: what is asked of the decomposition. One of a Jacobian without negligible columns has
  it (`Factored.fullRank`), and keeps it when its scratch is used (`FullRank.agrees`);
* `IsRoot.correction_le`: a Newton pass does not pass the root;
* `TooLong.brackets_start`: the bracket before the first pass holds the root;
* `IsRoot.nextOf_spec`, `IsRoot.newton_passes`: one pass, and all passes;
* `parameter_approaches`: the search approaches the root and ends near it.
-/

namespace LeastSquares.Decomposition

open Matrix Secular

variable {m n p : Nat} {d : Decomposition ℝ m n} {hm : p ≤ m} {hn : p ≤ n} {qy : Vec ℝ m}
  {D : Vec ℝ n} {δ lambda mu root : ℝ}

/-! ## Damped solutions -/

/-- **The damped solution** `x(λ)`: it solves `(Rᵀ R + λ D²) Pᵀ x = Rᵀ qy` on the first `p` pivots
and is zero on all other columns. -/
structure IsDamped (hm : p ≤ m) (hn : p ≤ n) (d : Decomposition ℝ m n) (qy : Vec ℝ m)
    (D : Vec ℝ n) (lambda : ℝ) (x : Vec ℝ n) : Prop where
  outside : ∀ c, c ∉ d.pivotColumns p → x c = 0
  normal : ∀ a : Fin p,
    (∑ c, (∑ i, d.block hm hn i a * d.block hm hn i c) * d.gather hn x c) +
      lambda * d.gather hn D a ^ 2 * d.gather hn x a = ∑ i, d.block hm hn i a * qy (i.castLE hm)

/-- The scaled length of a vector over the columns of the first `p` pivots. -/
noncomputable def scaledLength (d : Decomposition ℝ m n) (hn : p ≤ n) (D x : Vec ℝ n) : ℝ :=
  norm (Damped.scaled (d.gather hn D) (d.gather hn x))

/-- The triangle with its columns divided by the scaling. -/
noncomputable def scaledBlock (d : Decomposition ℝ m n) (hm : p ≤ m) (hn : p ≤ n)
    (D : Vec ℝ n) : Matrix (Fin p) (Fin p) ℝ :=
  fun i k => d.block hm hn i k / d.gather hn D k

/-- The gradient divided by the scaling. -/
noncomputable def scaledGradient (d : Decomposition ℝ m n) (hm : p ≤ m) (hn : p ≤ n)
    (qy : Vec ℝ m) (D : Vec ℝ n) : Fin p → ℝ :=
  fun k => d.gradient hm hn qy k / d.gather hn D k

theorem length_get (v : Vec ℝ p) : length v.get = norm v := (Exact.norm_eq v).symm

theorem gather_pos (hD : ∀ c, 0 < D c) (k : Fin p) : 0 < d.gather hn D k := by
  rw [gather, Vec.ofFn_apply]
  exact hD _

/-- The left side of the damped equations in the unscaled direction. -/
theorem mul_shifted_scaledBlock (hD : ∀ c, 0 < D c) (x : Fin p → ℝ) (a : Fin p) :
    d.gather hn D a * shifted (d.scaledBlock hm hn D) lambda (fun k => d.gather hn D k * x k) a =
      (∑ c, (∑ i, d.block hm hn i a * d.block hm hn i c) * x c) +
        lambda * d.gather hn D a ^ 2 * x a := by
  have hne (k : Fin p) : d.gather hn D k ≠ 0 := (gather_pos hD k).ne'
  have hrow (i : Fin p) : (d.scaledBlock hm hn D *ᵥ fun k => d.gather hn D k * x k) i =
      ∑ c, d.block hm hn i c * x c := by
    rw [mulVec, dotProduct]
    refine Finset.sum_congr rfl fun c _ => ?_
    rw [scaledBlock, ← mul_assoc, div_mul_cancel₀ _ (hne c)]
  have hcolumn : d.gather hn D a * ((d.scaledBlock hm hn D)ᵀ *ᵥ
      (d.scaledBlock hm hn D *ᵥ fun k => d.gather hn D k * x k)) a =
        ∑ i, d.block hm hn i a * ∑ c, d.block hm hn i c * x c := by
    rw [mulVec, dotProduct, Finset.mul_sum]
    refine Finset.sum_congr rfl fun i _ => ?_
    rw [hrow, transpose_apply, scaledBlock, ← mul_assoc, mul_div_cancel₀ _ (hne a)]
  unfold shifted
  rw [Pi.add_apply, mul_add, hcolumn, Mat.sum_gram_mul, Pi.smul_apply, smul_eq_mul]
  ring

/-- The damped equations in the scaled direction are the normal equations. -/
theorem shifted_eq_iff (hD : ∀ c, 0 < D c) (x : Fin p → ℝ) :
    shifted (d.scaledBlock hm hn D) lambda (fun k => d.gather hn D k * x k) =
        d.scaledGradient hm hn qy D ↔
      ∀ a, (∑ c, (∑ i, d.block hm hn i a * d.block hm hn i c) * x c) +
        lambda * d.gather hn D a ^ 2 * x a = ∑ i, d.block hm hn i a * qy (i.castLE hm) := by
  have hne (k : Fin p) : d.gather hn D k ≠ 0 := (gather_pos hD k).ne'
  rw [funext_iff]
  refine forall_congr' fun a => ?_
  rw [← mul_shifted_scaledBlock hD, ← gradient_apply, scaledGradient, eq_div_iff (hne a), mul_comm]

/-- The scaled directions of the damped solutions solve the damped equations. -/
theorem isDamped_iff (hD : ∀ c, 0 < D c) (x : Vec ℝ n) :
    IsDamped hm hn d qy D lambda x ↔ (∀ c, c ∉ d.pivotColumns p → x c = 0) ∧
      shifted (d.scaledBlock hm hn D) lambda
        (Damped.scaled (d.gather hn D) (d.gather hn x)).get = d.scaledGradient hm hn qy D := by
  have hget : (Damped.scaled (d.gather hn D) (d.gather hn x)).get =
      fun k => d.gather hn D k * d.gather hn x k := funext fun k => Vec.ofFn_apply _ k
  rw [hget, shifted_eq_iff hD]
  exact ⟨fun h => ⟨h.outside, h.normal⟩, fun h => ⟨h.1, h.2⟩⟩

/-! ## Decompositions of full rank -/

/-- The diagonal of `R` stands in the buffer, and it has no zero on the first `p` pivots, which is
the rank. -/
structure FullRank (p : Nat) (d : Decomposition ℝ m n) : Prop extends Written p d where
  rank_eq : d.rank = p
  diagonal_ne : ∀ k : Fin n, k.val < p → d.diagonal k ≠ 0

theorem FullRank.agrees {d' : Decomposition ℝ m n} (h : FullRank p d) (ha : Agrees p d d') :
    FullRank p d' where
  toWritten := ha.written h.toWritten
  rank_eq := ha.rank_eq.trans h.rank_eq
  diagonal_ne k hk := by
    rw [ha.diagonal_eq]
    exact h.diagonal_ne k hk

/-- The decomposition of a Jacobian has full rank if no column was negligible. -/
theorem Factored.fullRank {J : Mat ℝ m n} {t : ℝ} (h : Factored J t d) (ht : 0 ≤ t)
    (hr : d.rank = p) : FullRank p (d.writeDiagonal p) where
  toWritten := writeDiagonal_written h.order p
  rank_eq := hr
  diagonal_ne k hk := h.diagonal_ne ht k (hr ▸ hk)

section FullRank

variable (h : FullRank p d)

include h

theorem FullRank.solvable (hm : p ≤ m) (hn : p ≤ n) : Solvable hm hn d :=
  ⟨h.rank_eq.le, h.block_diagonal hm hn, fun k hk => h.diagonal_ne k (h.rank_eq ▸ hk)⟩

/-- No vector is taken to zero. -/
theorem FullRank.scaledBlock_regular (hm : p ≤ m) (hn : p ≤ n) (hD : ∀ c, 0 < D c) (y : Fin p → ℝ)
    (hy : d.scaledBlock hm hn D *ᵥ y = 0) : y = 0 := by
  have hz := (h.solvable hm hn).eq_zero_of_rows (z := fun k => y k / d.gather hn D k)
    (fun k hk => absurd k.isLt (not_lt.mpr (h.rank_eq ▸ hk))) fun i => by
      refine Eq.trans ?_ (congrFun hy i)
      refine Finset.sum_congr rfl fun k _ => ?_
      change _ = d.block hm hn i k / d.gather hn D k * y k
      rw [mul_div_assoc', div_mul_eq_mul_div]
  funext k
  exact (div_eq_zero_iff.mp (hz k)).resolve_right (gather_pos hD k).ne'

/-- The undamped direction solves the equations without damping. -/
theorem FullRank.shifted_undamped (hm : p ≤ m) (hn : p ≤ n) (qy : Vec ℝ m) (hD : ∀ c, 0 < D c) :
    shifted (d.scaledBlock hm hn D) 0
      (Damped.scaled (d.gather hn D) ((d.undamped qy).take hn)).get =
        d.scaledGradient hm hn qy D := by
  have hget : (Damped.scaled (d.gather hn D) ((d.undamped qy).take hn)).get =
      fun k => d.gather hn D k * d.undamped qy (k.castLE hn) :=
    funext fun k => (Vec.ofFn_apply _ k).trans (by rw [Vec.take_apply])
  rw [hget, shifted_eq_iff hD]
  intro a
  rw [zero_mul, zero_mul, add_zero, Mat.sum_gram_mul]
  refine Finset.sum_congr rfl fun i _ => ?_
  rw [(h.solvable hm hn).undamped_row qy i (h.rank_eq ▸ i.isLt)]

end FullRank

/-! ## The damped direction at a parameter -/

/-- The damped direction at a parameter. -/
noncomputable def dampedAt (d : Decomposition ℝ m n) (hm : p ≤ m) (hn : p ≤ n) (qy : Vec ℝ m)
    (D : Vec ℝ n) (lambda : ℝ) : Direction ℝ m n p :=
  d.direction hm hn (qy.take hm) (D.map (√lambda * ·))

/-- Its scaled length. -/
noncomputable def lengthAt (d : Decomposition ℝ m n) (hm : p ≤ m) (hn : p ≤ n) (qy : Vec ℝ m)
    (D : Vec ℝ n) (lambda : ℝ) : ℝ :=
  norm (Damped.scaled (d.gather hn D) (d.dampedAt hm hn qy D lambda).solution.direction)

theorem dampedAt_solution (d : Decomposition ℝ m n) (hm : p ≤ m) (hn : p ≤ n) (qy : Vec ℝ m)
    (D : Vec ℝ n) (lambda : ℝ) : (d.dampedAt hm hn qy D lambda).solution =
      Damped.solve (d.block hm hn) (qy.take hm) (d.gather hn (D.map (√lambda * ·))) :=
  direction_solution d hm hn _ _

/-- At the pivots it is the solution of the damped system. -/
theorem gather_dampedAt (hd : Function.Injective d.order) (hm : p ≤ m) (hn : p ≤ n) (qy : Vec ℝ m)
    (D : Vec ℝ n) (lambda : ℝ) : d.gather hn (d.dampedAt hm hn qy D lambda).direction =
      (d.dampedAt hm hn qy D lambda).solution.direction := by
  rw [dampedAt, direction_direction, direction_solution]
  exact gather_scatter hd _

theorem gather_root (hl : 0 ≤ lambda) (k : Fin p) :
    d.gather hn (D.map (√lambda * ·)) k * d.gather hn (D.map (√lambda * ·)) k =
      lambda * d.gather hn D k ^ 2 := by
  simp only [gather, Vec.ofFn_apply, Vec.map_apply]
  rw [mul_mul_mul_comm, Real.mul_self_sqrt hl, sq]

theorem firstZero_dampedAt (d : Decomposition ℝ m n) (hm : p ≤ m) (hn : p ≤ n) (qy : Vec ℝ m)
    (hD : ∀ c, 0 < D c) (hl : 0 < lambda) :
    Damped.firstZero (d.dampedAt hm hn qy D lambda).solution.diagonal = p := by
  rw [dampedAt_solution]
  refine Damped.firstZero_solve _ _ (block_isUpper d hm hn) fun k => ?_
  simp only [gather, Vec.ofFn_apply, Vec.map_apply]
  exact (mul_pos (Real.sqrt_pos.mpr hl) (hD _)).ne'

theorem isDamped_dampedAt (hd : Function.Injective d.order) (hm : p ≤ m) (hn : p ≤ n)
    (qy : Vec ℝ m) (hD : ∀ c, 0 < D c) (hl : 0 < lambda) :
    IsDamped hm hn d qy D lambda (d.dampedAt hm hn qy D lambda).direction := by
  have hfull := firstZero_dampedAt d hm hn qy hD hl
  rw [dampedAt_solution] at hfull
  constructor
  · intro c hc
    have hp := not_lt.mp fun hlt => hc ((mem_pivotColumns hd).mpr hlt)
    rw [dampedAt, direction_direction, scatter, Vec.ofFn_apply, dif_neg (not_lt.mpr hp)]
  · intro a
    have hnormal := Damped.solve_normal (qy.take hm) (d.gather hn (D.map (√lambda * ·)))
      (block_isUpper d hm hn) (a := a) (hfull.symm ▸ a.isLt)
    rw [gather_root hl.le] at hnormal
    rw [gather_dampedAt hd, dampedAt_solution]
    simp only [Vec.take_apply] at hnormal
    exact hnormal

theorem shifted_dampedAt (hd : Function.Injective d.order) (hm : p ≤ m) (hn : p ≤ n)
    (qy : Vec ℝ m) (hD : ∀ c, 0 < D c) (hl : 0 < lambda) :
    shifted (d.scaledBlock hm hn D) lambda
      (Damped.scaled (d.gather hn D) (d.dampedAt hm hn qy D lambda).solution.direction).get =
        d.scaledGradient hm hn qy D := by
  have h := ((isDamped_iff hD _).mp (isDamped_dampedAt hd hm hn qy hD hl)).2
  rwa [gather_dampedAt hd] at h

/-! ## The slope of the length -/

/-- Forward substitution solves the system of the transpose. -/
theorem transpose_mulVec_solveTransposed {S : Mat ℝ p p} {t : Vec ℝ p} (hS : S.IsUpper)
    (hdiag : ∀ k, t k = S k k) (hne : ∀ k, t k ≠ 0) (w : Vec ℝ p) :
    S.toMatrixᵀ *ᵥ (Triangular.solveTransposed S t w).get = w.get := by
  funext k
  refine Eq.trans ?_ (Triangular.solveTransposed_row S t w (hne k))
  change ∑ i, S i k * Triangular.solveTransposed S t w i = _
  rw [Damped.Elimination.sum_change k (g := fun i => if i < k then
    S i k * Triangular.solveTransposed S t w i else 0), if_neg (lt_irrefl k), hdiag]
  · ring
  · intro i hi
    split_ifs with hlt
    · rfl
    · rw [hS i k (lt_of_le_of_ne (not_lt.mp hlt) hi.symm), zero_mul]

/-- **The slope of the length** from the triangle of the damped system: the squares of the vector
that the search solves for. -/
theorem dot_eq_slope (hD : ∀ c, 0 < D c) {S : Mat ℝ p p} {t w : Vec ℝ p} (hS : S.IsUpper)
    (hdiag : ∀ k, t k = S k k) (hne : ∀ k, t k ≠ 0)
    (hgram : S.toMatrixᵀ * S.toMatrix = (d.block hm hn).toMatrixᵀ * (d.block hm hn).toMatrix +
      Matrix.diagonal fun k => lambda * d.gather hn D k ^ 2)
    {y v : Fin p → ℝ} (hv : shifted (d.scaledBlock hm hn D) lambda v = y)
    (hw : ∀ k, length y * w k = y k * d.gather hn D k) :
    y ⬝ᵥ v = length y ^ 2 *
      dot (Triangular.solveTransposed S t w) (Triangular.solveTransposed S t w) := by
  have hDne (k : Fin p) : d.gather hn D k ≠ 0 := (gather_pos hD k).ne'
  set u := Triangular.solveTransposed S t w
  have hu : S.toMatrixᵀ *ᵥ u.get = w.get := transpose_mulVec_solveTransposed hS hdiag hne w
  -- `v` without the scaling
  obtain ⟨x, rfl⟩ : ∃ x : Fin p → ℝ, (fun k => d.gather hn D k * x k) = v :=
    ⟨fun k => v k / d.gather hn D k, funext fun k => mul_div_cancel₀ _ (hDne k)⟩
  have hx : S.toMatrixᵀ *ᵥ (S.toMatrix *ᵥ x) = S.toMatrixᵀ *ᵥ (length y • u.get) := by
    rw [mulVec_smul, hu, mulVec_mulVec, hgram, add_mulVec]
    funext a
    rw [Pi.add_apply, mulVec_diagonal, Pi.smul_apply, smul_eq_mul, hw, ← hv,
      mul_comm (shifted _ _ _ _), mul_shifted_scaledBlock hD]
    rfl
  have hupper : S.toMatrix.IsUpperTriangular := fun i j hij => hS i j hij
  have hdet : S.toMatrixᵀ.det ≠ 0 := by
    rw [det_transpose, det_of_isUpperTriangular hupper]
    exact Finset.prod_ne_zero_iff.mpr fun k _ h0 => hne k ((hdiag k).trans h0)
  have hSx : S.toMatrix *ᵥ x = length y • u.get := by
    refine sub_eq_zero.mp (eq_zero_of_mulVec_eq_zero hdet ?_)
    rw [mulVec_sub, hx, sub_self]
  calc y ⬝ᵥ (fun k => d.gather hn D k * x k) = (length y • w.get) ⬝ᵥ x := by
        refine Finset.sum_congr rfl fun k _ => ?_
        rw [Pi.smul_apply, smul_eq_mul, hw, mul_assoc]
    _ = length y * (u.get ⬝ᵥ (S.toMatrix *ᵥ x)) := by
        rw [← hu, smul_dotProduct, smul_eq_mul, mulVec_transpose, dotProduct_mulVec]
    _ = length y ^ 2 * dot u u := by
        rw [hSx, dotProduct_smul, smul_eq_mul, Exact.dot_eq]
        change length y * (length y * ∑ k, u k * u k) = _
        ring

/-! ## Newton steps -/

/-- A root of the secular equation, for a decomposition of full rank and a right-hand side with a
gradient that is not zero. -/
structure IsRoot (hm : p ≤ m) (hn : p ≤ n) (d : Decomposition ℝ m n) (qy : Vec ℝ m) (D : Vec ℝ n)
    (δ root : ℝ) : Prop where
  rank : FullRank p d
  scaling_pos : ∀ c, 0 < D c
  radius_pos : 0 < δ
  gradient_ne : d.scaledGradient hm hn qy D ≠ 0
  root_pos : 0 < root
  length_eq : d.lengthAt hm hn qy D root = δ

section Root

variable (h : IsRoot hm hn d qy D δ root)

include h

theorem IsRoot.shifted_eq (hl : 0 < lambda) :
    shifted (d.scaledBlock hm hn D) lambda
      (Damped.scaled (d.gather hn D) (d.dampedAt hm hn qy D lambda).solution.direction).get =
        d.scaledGradient hm hn qy D :=
  shifted_dampedAt h.rank.order hm hn qy h.scaling_pos hl

theorem IsRoot.lengthAt_lt (hl : 0 < lambda) (hlt : lambda < mu) :
    d.lengthAt hm hn qy D mu < d.lengthAt hm hn qy D lambda := by
  have hlen := Secular.length_lt (h.rank.scaledBlock_regular hm hn h.scaling_pos) hl.le hlt
    (h.shifted_eq hl) (h.shifted_eq (hl.trans hlt)) h.gradient_ne
  rwa [length_get, length_get] at hlen

/-- A direction is longer than the radius exactly before the root. -/
theorem IsRoot.lt_lengthAt_iff (hl : 0 < lambda) :
    δ < d.lengthAt hm hn qy D lambda ↔ lambda < root := by
  refine ⟨fun hlt => not_le.mp fun hle => ?_, fun hlt => ?_⟩
  · rcases hle.eq_or_lt with rfl | hgt
    · exact hlt.ne' h.length_eq
    · exact (hlt.trans (h.lengthAt_lt h.root_pos hgt)).ne' h.length_eq
  · rw [← h.length_eq]
    exact h.lengthAt_lt hl hlt

/-- It is shorter exactly behind the root. -/
theorem IsRoot.lengthAt_lt_iff (hl : 0 < lambda) :
    d.lengthAt hm hn qy D lambda < δ ↔ root < lambda := by
  refine ⟨fun hlt => not_le.mp fun hle => ?_, fun hlt => ?_⟩
  · rcases hle.eq_or_lt with rfl | hgt
    · exact hlt.ne h.length_eq
    · exact hlt.not_gt ((h.lt_lengthAt_iff hl).mpr hgt)
  · rw [← h.length_eq]
    exact h.lengthAt_lt h.root_pos hlt

theorem IsRoot.lengthAt_eq_iff (hl : 0 < lambda) :
    d.lengthAt hm hn qy D lambda = δ ↔ lambda = root := by
  have hlong := h.lt_lengthAt_iff hl
  have hshort := h.lengthAt_lt_iff hl
  constructor
  · rintro heq
    exact le_antisymm (not_lt.mp (hshort.not.mp heq.not_lt)) (not_lt.mp (hlong.not.mp heq.not_gt))
  · rintro rfl
    exact h.length_eq

end Root

/-- The vector that a pass solves for. -/
noncomputable def slopeAt (d : Decomposition ℝ m n) (hm : p ≤ m) (hn : p ≤ n) (qy : Vec ℝ m)
    (D : Vec ℝ n) (lambda : ℝ) : Vec ℝ p :=
  let s := (d.dampedAt hm hn qy D lambda).solution
  let w := Damped.scaled (d.gather hn D) s.direction
  Triangular.solveTransposedByColumns s.upper s.diagonal
    (Vec.ofFn fun k => w k * d.gather hn D k / norm w)

/-- It is the solution of the system of the transposed triangle. -/
theorem slopeAt_eq (d : Decomposition ℝ m n) (hm : p ≤ m) (hn : p ≤ n) (qy : Vec ℝ m) (D : Vec ℝ n)
    (lambda : ℝ) :
    d.slopeAt hm hn qy D lambda =
      let s := Damped.solve (d.block hm hn) (qy.take hm) (d.gather hn (D.map (√lambda * ·)))
      Triangular.solveTransposed s.upper s.diagonal (Vec.ofFn fun k =>
        Damped.scaled (d.gather hn D) s.direction k * d.gather hn D k /
          d.lengthAt hm hn qy D lambda) := by
  unfold slopeAt lengthAt
  rw [dampedAt_solution, ← Triangular.solveTransposedByColumns_eq]

/-- The correction of a Newton pass. -/
noncomputable def correctionAt (d : Decomposition ℝ m n) (hm : p ≤ m) (hn : p ≤ n) (qy : Vec ℝ m)
    (D : Vec ℝ n) (δ lambda : ℝ) : ℝ :=
  (d.lengthAt hm hn qy D lambda - δ) /
    (δ * dot (d.slopeAt hm hn qy D lambda) (d.slopeAt hm hn qy D lambda))

section Root

variable (h : IsRoot hm hn d qy D δ root)

include h

/-- **A Newton pass does not pass the root**. -/
theorem IsRoot.correction_le (hl : 0 < lambda) :
    lambda + d.correctionAt hm hn qy D δ lambda ≤ root := by
  have hB := h.rank.scaledBlock_regular hm hn h.scaling_pos
  have hy := h.shifted_eq hl
  have hfull := firstZero_dampedAt d hm hn qy h.scaling_pos hl
  unfold correctionAt
  rw [slopeAt_eq, lengthAt]
  rw [dampedAt_solution] at hy hfull ⊢
  set s := Damped.solve (d.block hm hn) (qy.take hm) (d.gather hn (D.map (√lambda * ·))) with hs
  set w := Damped.scaled (d.gather hn D) s.direction with hw
  obtain ⟨v, hv⟩ := exists_shifted_eq hB hl.le w.get
  have hlen : length w.get ≠ 0 := (length_pos (ne_zero_of_shifted h.gradient_ne hy)).ne'
  have hne (k : Fin p) : s.diagonal k ≠ 0 :=
    (Damped.firstZero_spec _).2.1 k (hfull.symm ▸ k.isLt)
  have hgram := Damped.solve_gram (qy.take hm) (d.gather hn (D.map (√lambda * ·)))
    (block_isUpper d hm hn)
  simp only [gather_root hl.le] at hgram
  have ht := dot_eq_slope (t := s.diagonal) (w := Vec.ofFn fun k => w k * d.gather hn D k / norm w)
    h.scaling_pos (Damped.solve_isUpper _ _ (block_isUpper d hm hn))
    (fun k => Damped.solve_diagonal _ _ k) hne hgram hv fun k => by
      rw [Vec.ofFn_apply, ← length_get, mul_div_cancel₀ _ hlen]
  have hle := (newton_le hB hl.le h.root_pos.le h.gradient_ne hy (h.shifted_eq h.root_pos)
    h.radius_pos ((length_get _).trans h.length_eq) hv ht).2
  rw [length_get] at hle
  exact hle

end Root

/-! ## The bracket before the first pass -/

/-- The root is in the bracket of a search, and the parameter is not below the bracket. -/
structure Brackets (root : ℝ) (s : Damped.Newton ℝ) : Prop where
  lower_pos : 0 < s.lower
  lower_le : s.lower ≤ root
  le_upper : root ≤ s.upper
  lower_le_lambda : s.lower ≤ s.lambda

/-- The undamped direction is too long. -/
structure TooLong (hm : p ≤ m) (hn : p ≤ n) (d : Decomposition ℝ m n) (qy : Vec ℝ m) (D : Vec ℝ n)
    (δ : ℝ) : Prop where
  rank : FullRank p d
  scaling_pos : ∀ c, 0 < D c
  radius_pos : 0 < δ
  length_gt : δ < norm (Damped.scaled (d.gather hn D) ((d.undamped qy).take hn))

section Start

variable (h : TooLong hm hn d qy D δ)

include h

theorem TooLong.gradient_ne : d.scaledGradient hm hn qy D ≠ 0 := by
  intro h0
  have hy := eq_zero_of_shifted (h.rank.scaledBlock_regular hm hn h.scaling_pos) le_rfl
    ((h.rank.shifted_undamped hm hn qy h.scaling_pos).trans h0)
  have hlong := h.length_gt
  rw [← length_get, hy, length, dotProduct_zero, Real.sqrt_zero] at hlong
  exact hlong.not_gt h.radius_pos

theorem TooLong.isRoot (hl : 0 < lambda) (hlen : d.lengthAt hm hn qy D lambda = δ) :
    IsRoot hm hn d qy D δ lambda :=
  ⟨h.rank, h.scaling_pos, h.radius_pos, h.gradient_ne, hl, hlen⟩

/-- **There is a root**, not above the scaled gradient over the radius. -/
theorem TooLong.exists_isRoot :
    ∃ root, IsRoot hm hn d qy D δ root ∧ root ≤ length (d.scaledGradient hm hn qy D) / δ := by
  have hB := h.rank.scaledBlock_regular hm hn h.scaling_pos
  obtain ⟨root, hpos, hle, hroot⟩ := exists_root hB h.radius_pos
    (h.rank.shifted_undamped hm hn qy h.scaling_pos)
    (by rw [length_get]; exact h.length_gt)
  refine ⟨root, h.isRoot hpos ?_, hle⟩
  have hsolution := eq_of_shifted_eq hB hpos.le
    ((shifted_dampedAt h.rank.order hm hn qy h.scaling_pos hpos).trans
      (shifted_solution hB hpos.le _).symm)
  rw [lengthAt, ← length_get, hsolution, hroot]

/-- **The bracket before the first pass** holds the root: the first Newton step from zero does not
pass it. -/
theorem TooLong.brackets_start (hroot : IsRoot hm hn d qy D δ root)
    (hle : root ≤ length (d.scaledGradient hm hn qy D) / δ) (initial : ℝ) :
    Brackets root (d.newtonStart hm hn qy δ D initial) := by
  have hB := h.rank.scaledBlock_regular hm hn h.scaling_pos
  set w := Damped.scaled (d.gather hn D) ((d.undamped qy).take hn) with hw
  have hy := h.rank.shifted_undamped hm hn qy h.scaling_pos
  obtain ⟨v, hv⟩ := exists_shifted_eq hB le_rfl w.get
  have hlen : length w.get ≠ 0 := (length_pos (ne_zero_of_shifted h.gradient_ne hy)).ne'
  have ht := dot_eq_slope (S := d.block hm hn) (t := d.diagonal.take hn)
    (w := Vec.ofFn fun k => w k * (d.gather hn D k / norm w)) h.scaling_pos
    (block_isUpper d hm hn) (fun k => (h.rank.block_diagonal hm hn k).symm ▸ Vec.take_apply _ _ _)
    (fun k => by
      rw [Vec.take_apply]
      exact h.rank.diagonal_ne _ k.isLt) (by simp) hv fun k => by
      rw [Vec.ofFn_apply, ← length_get, mul_div_assoc', mul_div_cancel₀ _ hlen]
  obtain ⟨hslope, hnewton⟩ := newton_le hB le_rfl hroot.root_pos.le h.gradient_ne hy
    (hroot.shifted_eq hroot.root_pos) h.radius_pos ((length_get _).trans hroot.length_eq) hv ht
  rw [zero_add, length_get] at hnewton
  have hlower := div_pos (sub_pos.mpr h.length_gt) (mul_pos h.radius_pos hslope)
  have hupper : norm (Vec.ofFn fun k => d.gradient hm hn qy k / d.gather hn D k) =
      length (d.scaledGradient hm hn qy D) := by
    rw [← length_get]
    exact congrArg length (funext fun k => Vec.ofFn_apply _ k)
  have hbound := div_pos (length_pos h.gradient_ne) h.radius_pos
  have hnezero {x : ℝ} (hx : 0 < x) : ¬ (x == 0) = true := fun h0 =>
    hx.ne' ((Exact.beq_zero_iff _).mp h0)
  unfold newtonStart
  simp only [if_pos h.rank.rank_eq, hupper, if_neg (hnezero hbound), Exact.smaller_eq,
    Exact.larger_eq]
  have hstart := lt_min hbound (lt_max_of_lt_right (b := initial) hlower)
  rw [if_neg (hnezero hstart)]
  exact ⟨hlower, hnewton, hle, le_min (hnewton.trans hle) (le_max_right _ _)⟩

end Start

/-! ## The passes -/

section Passes

/-- The search that ends with a pass. -/
noncomputable def endedAt (d : Decomposition ℝ m n) (hm : p ≤ m) (hn : p ≤ n) (qy : Vec ℝ m)
    (D : Vec ℝ n) (s : Damped.Newton ℝ) : Parameter ℝ m n :=
  let r := d.dampedAt hm hn qy D s.lambda
  ⟨s.lambda, r.direction, r.decomposition, [s]⟩

/-- The search before the pass that follows. -/
noncomputable def nextOf (d : Decomposition ℝ m n) (hm : p ≤ m) (hn : p ≤ n) (qy : Vec ℝ m)
    (D : Vec ℝ n) (δ : ℝ) (s : Damped.Newton ℝ) : Damped.Newton ℝ :=
  s.next (d.lengthAt hm hn qy D s.lambda - δ) (d.correctionAt hm hn qy D δ s.lambda)

theorem Brackets.leaveZero_eq {s : Damped.Newton ℝ} (h : Brackets root s) : s.leaveZero = s :=
  if_neg fun h0 => (h.lower_pos.trans_le h.lower_le_lambda).ne' ((Exact.beq_zero_iff _).mp h0)

theorem Brackets.isSettled_iff {s : Damped.Newton ℝ} (h : Brackets root s) (e : ℝ) :
    s.isSettled δ e ↔ |e| ≤ 0.1 * δ :=
  or_iff_left fun h0 => h.lower_pos.ne' ((Exact.beq_zero_iff _).mp h0.1)

theorem newton_zero (s : Damped.Newton ℝ) :
    newton hm hn qy δ D 0 s d = d.endedAt hm hn qy D s.leaveZero := by
  unfold newton
  simp only [ite_self]
  rfl

/-- A pass that is not the last one allowed. What it leaves in the scratch is not read. -/
theorem newton_succ (hd : d.Written p) (left : Nat) (s : Damped.Newton ℝ) :
    newton hm hn qy δ D (left + 1) s d =
      if s.leaveZero.isSettled δ (d.lengthAt hm hn qy D s.leaveZero.lambda - δ) then
        d.endedAt hm hn qy D s.leaveZero
      else
        let r := newton hm hn qy δ D left (d.nextOf hm hn qy D δ s.leaveZero) d
        { r with passes := s.leaveZero :: r.passes } := by
  rw [newton]
  simp only [(hd.direction hm hn _ _).newton_eq, solveTransposedByColumns_scratch]
  rfl

variable (h : IsRoot hm hn d qy D δ root)

include h

/-- **One pass** keeps the root in the bracket and moves the parameter to its left side, and from
there only towards the root. -/
theorem IsRoot.nextOf_spec {s : Damped.Newton ℝ} (hs : Brackets root s) :
    Brackets root (d.nextOf hm hn qy D δ s) ∧ (d.nextOf hm hn qy D δ s).lambda ≤ root ∧
      (s.lambda ≤ root → s.lambda ≤ (d.nextOf hm hn qy D δ s).lambda) := by
  have hpos := hs.lower_pos.trans_le hs.lower_le_lambda
  have hcorrection := h.correction_le hpos
  unfold nextOf Damped.Newton.next
  simp only [Exact.larger_eq, Exact.smaller_eq]
  rcases lt_trichotomy (d.lengthAt hm hn qy D s.lambda) δ with hlt | heq | hgt
  · have hroot := (h.lengthAt_lt_iff hpos).mp hlt
    rw [if_neg (by linarith), if_neg (by linarith), if_pos (by linarith)]
    exact ⟨⟨hs.lower_pos, hs.lower_le, le_min hs.le_upper hroot.le, le_max_left _ _⟩,
      max_le hs.lower_le hcorrection, fun hle => absurd hle (not_le.mpr hroot)⟩
  · have hzero : d.correctionAt hm hn qy D δ s.lambda = 0 := by
      rw [correctionAt, heq, sub_self, zero_div]
    rw [if_neg (by linarith), if_neg (by linarith), if_neg (by linarith)]
    refine ⟨⟨hs.lower_pos, hs.lower_le, hs.le_upper, le_max_left _ _⟩,
      max_le hs.lower_le hcorrection, fun _ => le_max_of_le_right ?_⟩
    rw [hzero, add_zero]
  · have hroot := (h.lt_lengthAt_iff hpos).mp hgt
    rw [if_pos (by linarith), if_pos (by linarith)]
    have hlower := max_le hs.lower_le hroot.le
    exact ⟨⟨lt_max_of_lt_left hs.lower_pos, hlower, hs.le_upper, le_max_left _ _⟩,
      max_le hlower hcorrection, fun _ => le_max_of_le_left (le_max_right _ _)⟩

/-- The passes of a search. From the second one on they approach the root from the left. -/
theorem IsRoot.newton_passes (left : Nat) {s : Damped.Newton ℝ} (hs : Brackets root s) :
    ∃ rest, (newton hm hn qy δ D left s d).passes = s :: rest ∧ rest.length ≤ left ∧
      (∀ t ∈ rest, Brackets root t ∧ t.lambda ≤ root) ∧
      rest.Pairwise (fun t t' => t.lambda ≤ t'.lambda) ∧
      (s.lambda ≤ root → ∀ t ∈ rest, s.lambda ≤ t.lambda) := by
  induction left generalizing s with
  | zero =>
    rw [newton_zero, hs.leaveZero_eq]
    exact ⟨[], rfl, Nat.le_refl 0, by simp, .nil, by simp⟩
  | succ left ih =>
    rw [newton_succ h.rank.toWritten, hs.leaveZero_eq]
    split_ifs
    · exact ⟨[], rfl, Nat.zero_le _, by simp, .nil, by simp⟩
    · obtain ⟨hnext, hroot, hmono⟩ := h.nextOf_spec hs
      obtain ⟨rest, hpasses, hlength, hrest, hsorted, hfirst⟩ := ih hnext
      refine ⟨_ :: rest, congrArg (s :: ·) hpasses, Nat.succ_le_succ hlength, ?_, ?_, ?_⟩
      · exact List.forall_mem_cons.mpr ⟨⟨hnext, hroot⟩, hrest⟩
      · exact List.pairwise_cons.mpr ⟨hfirst hroot, hsorted⟩
      · intro hle
        refine List.forall_mem_cons.mpr ⟨hmono hle, fun t ht => ?_⟩
        exact (hmono hle).trans (hfirst hroot t ht)

/-- Where a search ends: at the damped direction of its parameter, which is not too short, and not
too long unless no pass was left. -/
theorem IsRoot.newton_ends (left : Nat) {s : Damped.Newton ℝ} (hs : Brackets root s)
    (hlast : left = 0 → s.lambda ≤ root) :
    let found := newton hm hn qy δ D left s d
    0 < found.lambda ∧ found.direction = (d.dampedAt hm hn qy D found.lambda).direction ∧
      9 / 10 * δ ≤ d.lengthAt hm hn qy D found.lambda ∧
      (found.passes.length ≤ left → d.lengthAt hm hn qy D found.lambda ≤ 11 / 10 * δ) := by
  have hpos {s : Damped.Newton ℝ} (hs : Brackets root s) : 0 < s.lambda :=
    hs.lower_pos.trans_le hs.lower_le_lambda
  induction left generalizing s with
  | zero =>
    rw [newton_zero, hs.leaveZero_eq]
    refine ⟨hpos hs, rfl, ?_, fun hle => absurd hle (by simp [endedAt])⟩
    have hle := not_lt.mp ((h.lengthAt_lt_iff (hpos hs)).not.mpr (not_lt.mpr (hlast rfl)))
    have hδ := h.radius_pos
    change _ ≤ d.lengthAt hm hn qy D s.lambda
    linarith
  | succ left ih =>
    rw [newton_succ h.rank.toWritten, hs.leaveZero_eq]
    split_ifs with hsettled
    · rw [hs.isSettled_iff] at hsettled
      obtain ⟨hlow, hhigh⟩ := abs_le.mp hsettled
      refine ⟨hpos hs, rfl, ?_, fun _ => ?_⟩
      · change _ ≤ d.lengthAt hm hn qy D s.lambda
        linarith
      · change d.lengthAt hm hn qy D s.lambda ≤ _
        linarith
    · obtain ⟨hnext, hroot, -⟩ := h.nextOf_spec hs
      obtain ⟨h₁, h₂, h₃, h₄⟩ := ih hnext fun _ => hroot
      exact ⟨h₁, h₂, h₃, fun hle => h₄ (Nat.le_of_succ_le_succ hle)⟩

end Passes

/-! ## The search -/

/-- **What a search for the damping parameter does** that has the root `root`: in every pass the
root is in the bracket and the parameter is not below it, from the second pass on the parameter
approaches the root from the left, and it ends at a damped solution with about the right length. -/
structure Approaches (hm : p ≤ m) (hn : p ≤ n) (d : Decomposition ℝ m n) (qy : Vec ℝ m)
    (D : Vec ℝ n) (δ root : ℝ) (found : Parameter ℝ m n) : Prop where
  bracket : ∀ s ∈ found.passes, s.lower ≤ root ∧ root ≤ s.upper ∧ s.lower ≤ s.lambda
  le_root : ∀ s ∈ found.passes.tail, s.lambda ≤ root
  le_length : ∀ s ∈ found.passes.tail, ∀ x, IsDamped hm hn d qy D s.lambda x →
    δ ≤ d.scaledLength hn D x
  sorted : found.passes.tail.Pairwise fun s t => s.lambda ≤ t.lambda
  lambda_pos : 0 < found.lambda
  isDamped : IsDamped hm hn d qy D found.lambda found.direction
  length_ge : 9 / 10 * δ ≤ d.scaledLength hn D found.direction
  passes_le : found.passes.length ≤ 10
  length_le : found.passes.length ≠ 10 → d.scaledLength hn D found.direction ≤ 11 / 10 * δ

theorem FullRank.isDamped_unique (h : FullRank p d) (hD : ∀ c, 0 < D c) (hl : 0 ≤ lambda)
    {x x' : Vec ℝ n} (hx : IsDamped hm hn d qy D lambda x)
    (hx' : IsDamped hm hn d qy D lambda x') : x = x' := by
  have hscaled := eq_of_shifted_eq (h.scaledBlock_regular hm hn hD) hl
    (((isDamped_iff hD x).mp hx).2.trans ((isDamped_iff hD x').mp hx').2.symm)
  refine Vec.ext fun c => ?_
  by_cases hc : c ∈ d.pivotColumns p
  · have hlt := (mem_pivotColumns h.order).mp hc
    have hk := congrFun hscaled ⟨(d.pivotOf c).val, hlt⟩
    have hc : d.order ((⟨(d.pivotOf c).val, hlt⟩ : Fin p).castLE hn) = c := order_pivotOf h.order c
    simp only [Damped.scaled, gather, Vec.ofFn_apply, hc] at hk
    exact mul_left_cancel₀ (hD c).ne' hk
  · rw [hx.outside c hc, hx'.outside c hc]

theorem gather_toColumns (hd : Function.Injective d.order) (hn : p ≤ n) (v : Vec ℝ n) :
    d.gather hn (d.toColumns v) = v.take hn := by
  refine Vec.ext fun k => ?_
  rw [gather, Vec.ofFn_apply, toColumns, Vec.ofFn_apply, pivotOf_order hd, Vec.take_apply]

theorem scaledLength_dampedAt (hd : Function.Injective d.order) :
    d.scaledLength hn D (d.dampedAt hm hn qy D lambda).direction = d.lengthAt hm hn qy D lambda :=
  congrArg (fun x => norm (Damped.scaled (d.gather hn D) x)) (gather_dampedAt hd hm hn qy D lambda)

/-- There is exactly one damped solution for a positive parameter. -/
theorem FullRank.existsUnique_isDamped (h : FullRank p d) (hm : p ≤ m) (hn : p ≤ n)
    (hD : ∀ c, 0 < D c) (qy : Vec ℝ m) (hl : 0 < lambda) :
    ∃! x, IsDamped hm hn d qy D lambda x := by
  have hx := isDamped_dampedAt h.order hm hn qy hD hl
  exact ⟨_, hx, fun x' hx' => h.isDamped_unique hD hl.le hx' hx⟩

/-- Its length is that of the damped solve. -/
theorem IsRoot.scaledLength_eq (h : IsRoot hm hn d qy D δ root) {x : Vec ℝ n} (hl : 0 < lambda)
    (hx : IsDamped hm hn d qy D lambda x) :
    d.scaledLength hn D x = d.lengthAt hm hn qy D lambda := by
  have hdamped := isDamped_dampedAt h.rank.order hm hn qy h.scaling_pos hl
  rw [h.rank.isDamped_unique h.scaling_pos hl.le hx hdamped, scaledLength_dampedAt h.rank.order]

/-- **The passes of a search** whose bracket holds the root approach it. -/
theorem IsRoot.approaches (h : IsRoot hm hn d qy D δ root) {s : Damped.Newton ℝ}
    (hs : Brackets root s) :
    Approaches hm hn d qy D δ root (newton hm hn qy δ D Damped.furtherPasses s d) := by
  obtain ⟨rest, hpasses, hcount, hrest, hsorted, -⟩ := h.newton_passes Damped.furtherPasses hs
  obtain ⟨hpos, hdirection, hlow, hhigh⟩ :=
    h.newton_ends Damped.furtherPasses hs fun h0 => absurd h0 (by decide)
  generalize newton hm hn qy δ D Damped.furtherPasses s d = found at *
  have hdamped : IsDamped hm hn d qy D found.lambda found.direction := by
    rw [hdirection]
    exact isDamped_dampedAt h.rank.order hm hn qy h.scaling_pos hpos
  have hlength := h.scaledLength_eq hpos hdamped
  constructor
  case bracket =>
    rw [hpasses]
    refine List.forall_mem_cons.mpr ⟨⟨hs.lower_le, hs.le_upper, hs.lower_le_lambda⟩, ?_⟩
    intro t ht
    obtain ⟨hb, -⟩ := hrest t ht
    exact ⟨hb.lower_le, hb.le_upper, hb.lower_le_lambda⟩
  case le_root =>
    rw [hpasses]
    exact fun t ht => (hrest t ht).2
  case le_length =>
    rw [hpasses]
    intro t ht x hx
    obtain ⟨hb, hle⟩ := hrest t ht
    have htpos := hb.lower_pos.trans_le hb.lower_le_lambda
    rw [h.scaledLength_eq htpos hx]
    exact not_lt.mp ((h.lengthAt_lt_iff htpos).not.mpr (not_lt.mpr hle))
  case sorted =>
    rw [hpasses]
    exact hsorted
  case lambda_pos => exact hpos
  case isDamped => exact hdamped
  case length_ge => exact hlength ▸ hlow
  case passes_le =>
    rw [hpasses]
    exact Nat.succ_le_succ hcount
  case length_le =>
    intro hne
    rw [hlength]
    refine hhigh ?_
    rw [hpasses] at hne ⊢
    simp only [List.length_cons, Damped.furtherPasses] at hne hcount ⊢
    omega

/-- **Headline.** At a decomposition of full rank whose undamped direction is longer than the radius
and a tenth of it there is exactly one parameter whose damped solution is as long as the radius, and
the search approaches it. -/
theorem parameter_approaches (hm : p ≤ m) (hn : p ≤ n) (h : FullRank p d) (hD : ∀ c, 0 < D c)
    (hδ : 0 < δ) (qy : Vec ℝ m)
    (hlong : 11 / 10 * δ < d.scaledLength hn D (d.toColumns (d.undamped qy))) (initial : ℝ) :
    (∀ lambda, 0 < lambda → ∃! x, IsDamped hm hn d qy D lambda x) ∧
      ∃ root, 0 < root ∧
        (∀ lambda x, 0 < lambda → IsDamped hm hn d qy D lambda x →
          (d.scaledLength hn D x = δ ↔ lambda = root)) ∧
        Approaches hm hn d qy D δ root (d.parameter hm hn qy δ D initial) ∧
        ((parameterFor p qy.toList δ D.toList initial).after d).1 =
          .ok ((d.parameter hm hn qy δ D initial).lambda,
            (d.parameter hm hn qy δ D initial).direction) := by
  rw [scaledLength, gather_toColumns h.order] at hlong
  have htoo : TooLong hm hn d qy D δ := ⟨h, hD, hδ, by linarith⟩
  obtain ⟨root, hroot, hle⟩ := htoo.exists_isRoot
  have hfound : d.parameter hm hn qy δ D initial =
      newton hm hn qy δ D Damped.furtherPasses (d.newtonStart hm hn qy δ D initial) d := by
    rw [parameter_eq, if_neg]
    refine not_le.mpr ?_
    unfold SignRule.undampedExcess
    linarith
  refine ⟨fun lambda hl => h.existsUnique_isDamped hm hn hD qy hl, root, hroot.root_pos, ?_, ?_,
    parameterFor_after hm hn h.rank_eq.le qy δ D initial⟩
  · intro lambda x hl hx
    rw [hroot.scaledLength_eq hl hx]
    exact hroot.lengthAt_eq_iff hl
  · rw [hfound]
    exact hroot.approaches (htoo.brackets_start hroot hle initial)

/-- The triangle with the rows `(1, 1)` and `(0, 1)`, for columns that changed places, with a
scratch that was used. -/
def steepTriangle : Decomposition ℝ 2 2 where
  buffer := Mat.ofFn fun i k => if k < i then 7 else 1
  order := Vec.ofFn Fin.rev
  diagonal := Vec.replicate 2 1
  beta := Vec.replicate 2 0
  columnNorm := Vec.replicate 2 1
  rank := 2

theorem steepTriangle_fullRank : FullRank 2 steepTriangle where
  order i j h := by simpa [steepTriangle] using h
  diagonal_eq i k hik _ := by
    obtain rfl := Fin.ext hik
    simp [steepTriangle, Vec.replicate]
  rank_eq := rfl
  diagonal_ne k _ := by simp [steepTriangle, Vec.replicate]

/-- The undamped direction for the right-hand side `(3, 1)` is `(2, 1)` in pivot order. -/
theorem steepTriangle_tooLong :
    11 / 10 * (1 : ℝ) < steepTriangle.scaledLength le_rfl (Vec.replicate 2 1)
      (steepTriangle.toColumns (steepTriangle.undamped (Vec.ofFn fun i => 3 - 2 * i.val))) := by
  have hrow (i : Fin 2) := (steepTriangle_fullRank.solvable le_rfl le_rfl).undamped_row
    (Vec.ofFn fun i => 3 - 2 * i.val) i i.isLt
  have h₀ := hrow 0
  have h₁ := hrow 1
  rw [scaledLength, gather_toColumns steepTriangle_fullRank.order, Exact.norm_eq]
  generalize steepTriangle.undamped (Vec.ofFn fun i => 3 - 2 * i.val) = x at h₀ h₁ ⊢
  simp [block, steepTriangle, Damped.scaled, gather, Vec.take, Vec.replicate] at h₀ h₁ ⊢
  have e₁ : x 1 = 1 := by linarith
  have e₀ : x 0 = 2 := by linarith
  rw [e₀, e₁]
  exact Real.lt_sqrt_of_sq_lt (by norm_num)

theorem parameter_approaches_steepTriangle :
    FullRank 2 steepTriangle ∧ ∃ root, 0 < root ∧
      Approaches le_rfl le_rfl steepTriangle (Vec.ofFn fun i => 3 - 2 * i.val) (Vec.replicate 2 1) 1
        root (steepTriangle.parameter le_rfl le_rfl (Vec.ofFn fun i => 3 - 2 * i.val) 1
          (Vec.replicate 2 1) 0) := by
  obtain ⟨-, root, hpos, -, h, -⟩ := parameter_approaches le_rfl le_rfl steepTriangle_fullRank
    (D := Vec.replicate 2 1) (fun c => by simp [Vec.replicate]) one_pos _ steepTriangle_tooLong 0
  exact ⟨steepTriangle_fullRank, root, hpos, h⟩

end LeastSquares.Decomposition
