import LeastSquares.Proofs.Cosines
import LeastSquares.Proofs.Divisors
import LeastSquares.Proofs.NormalEquations
import LeastSquares.Proofs.RankRevealing

/-!
# The search for the damping parameter by columns

A decomposition stores the Jacobian in pivot order and up to rotations. Where the Jacobian has no
more columns than rows, all that a search for the damping parameter makes of it is a matter of its
columns: of their products `Jᵀ J`, of the products `Jᵀ r` and of the scaling. Every quantity of the
search is given here by equations in the order of the columns, that have one solution.

Results:
* `SolvesDamped.dot_eq`, `SolvesDamped.unique`: the damped normal equations and their one solution;
* `Represents.dampedAt_solves`, `Represents.lengthAt_eq`, `Represents.exists_slopeAt`: a Newton pass;
* `Represents.undampedLength_eq`, `Represents.exists_undampedSlope`, `Represents.gradientNorm_eq`:
  what the bracket before the first pass is made of;
* `Factored.rank_eq`: independent columns are all solved for.
-/

namespace LeastSquares

open Matrix

variable {m n p : Nat}

/-! ## The damped normal equations -/

/-- `x` solves the damped normal equations `(JᵀJ + λ D²) x = b`. -/
def SolvesDamped (J : Mat ℝ m n) (D : Vec ℝ n) (lambda : ℝ) (b x : Fin n → ℝ) : Prop :=
  ∀ c, (∑ l, J.gram c l * x l) + lambda * D c ^ 2 * x c = b c

theorem Mat.gram_eq (J : Mat ℝ m n) (c l : Fin n) : J.gram c l = ∑ i, J i c * J i l := by
  rw [gram_apply, Exact.sum_eq]

/-- The products of the columns as one matrix. -/
theorem Mat.gram_mulVec (J : Mat ℝ m n) (x : Fin n → ℝ) :
    (fun c => ∑ l, J.gram c l * x l) = J.toMatrixᵀ *ᵥ (J.toMatrix *ᵥ x) := by
  rw [mulVec_mulVec, ← gram_toMatrix]
  rfl

/-- The length of an image by the products of the columns. -/
theorem Mat.dot_gram (J : Mat ℝ m n) (x : Fin n → ℝ) :
    ∑ c, x c * ∑ l, J.gram c l * x l = (J.toMatrix *ᵥ x) ⬝ᵥ (J.toMatrix *ᵥ x) := by
  change x ⬝ᵥ (fun c => ∑ l, J.gram c l * x l) = _
  rw [gram_mulVec, dotProduct_mulVec, vecMul_transpose]

theorem Mat.transposeMulVec_eq (J : Mat ℝ m n) (r : Vec ℝ m) (c : Fin n) :
    J.transposeMulVec r c = ∑ i, J i c * r i := by
  rw [transposeMulVec_apply, Exact.sum_eq]

section Solves

variable {J : Mat ℝ m n} {D : Vec ℝ n} {lambda : ℝ} {b b' x x' y : Fin n → ℝ}

/-- The damped equations against a vector. -/
theorem SolvesDamped.dot_eq (h : SolvesDamped J D lambda b x) (y : Fin n → ℝ) :
    y ⬝ᵥ b = (J.toMatrix *ᵥ y) ⬝ᵥ (J.toMatrix *ᵥ x) +
      lambda * ∑ c, (D c * y c) * (D c * x c) := by
  have hb : b = J.toMatrixᵀ *ᵥ (J.toMatrix *ᵥ x) + fun c => lambda * D c ^ 2 * x c := by
    rw [← Mat.gram_mulVec]
    exact (funext h).symm
  have hdamping : (y ⬝ᵥ fun c => lambda * D c ^ 2 * x c) =
      lambda * ∑ c, (D c * y c) * (D c * x c) := by
    rw [dotProduct, Finset.mul_sum]
    exact Finset.sum_congr rfl fun c _ => by ring
  rw [hb, dotProduct_add, hdamping, dotProduct_mulVec, vecMul_transpose]

theorem SolvesDamped.sub (h : SolvesDamped J D lambda b x) (h' : SolvesDamped J D lambda b' x') :
    SolvesDamped J D lambda (b - b') (x - x') := fun c => by
  have hc := congrArg₂ (· - ·) (h c) (h' c)
  simp only [Pi.sub_apply, mul_sub, Finset.sum_sub_distrib] at hc ⊢
  linear_combination hc

/-- The equations have one solution: there is damping on every column, or the columns are
independent. -/
def Definite (J : Mat ℝ m n) (D : Vec ℝ n) (lambda : ℝ) : Prop :=
  0 < lambda ∧ (∀ c, 0 < D c) ∨ 0 ≤ lambda ∧ ∀ v, J.toMatrix *ᵥ v = 0 → v = 0

theorem SolvesDamped.eq_zero (hdef : Definite J D lambda) (h : SolvesDamped J D lambda 0 x) :
    x = 0 := by
  have henergy := h.dot_eq x
  rw [dotProduct_zero] at henergy
  have hsquare := Exact.dotProduct_self_nonneg (J.toMatrix *ᵥ x)
  have hscaled : 0 ≤ ∑ c, (D c * x c) * (D c * x c) :=
    Finset.sum_nonneg fun c _ => mul_self_nonneg _
  rcases hdef with ⟨hl, hD⟩ | ⟨hl, hJ⟩
  · have hzero : ∑ c, (D c * x c) * (D c * x c) = 0 := by
      refine le_antisymm ?_ hscaled
      exact nonpos_of_mul_nonpos_right (by linarith) hl
    funext c
    have hc := (Finset.sum_eq_zero_iff_of_nonneg fun c _ => mul_self_nonneg (D c * x c)).mp hzero c
      (Finset.mem_univ c)
    exact (mul_eq_zero.mp (mul_self_eq_zero.mp hc)).resolve_left (hD c).ne'
  · have hproduct := mul_nonneg hl hscaled
    exact hJ x (dotProduct_self_eq_zero.mp (by linarith))

/-- **The damped normal equations have one solution at most**. -/
theorem SolvesDamped.unique (hdef : Definite J D lambda) (h : SolvesDamped J D lambda b x)
    (h' : SolvesDamped J D lambda b x') : x = x' := by
  have hsub := h.sub h'
  rw [sub_self] at hsub
  exact sub_eq_zero.mp (hsub.eq_zero hdef)

end Solves

/-- A step on all columns solves the damped normal equations. -/
theorem IsStep.solves {J : Mat ℝ m n} {r : Vec ℝ m} {D x : Vec ℝ n} {lambda : ℝ}
    {s : Finset (Fin n)} (h : IsStep J r D lambda s x) (hs : s = Finset.univ) :
    SolvesDamped J D lambda (J.transposeMulVec r).get x.get := by
  subst hs
  intro c
  have hc := h.normal c (Finset.mem_univ c)
  rw [← Mat.transposeMulVec_eq] at hc
  simp only [← Mat.gram_eq] at hc
  exact hc

namespace Decomposition

variable {d : Decomposition ℝ m n} {J : Mat ℝ m n} {r qy : Vec ℝ m} {hm : p ≤ m} {hn : p ≤ n}
  {D : Vec ℝ n} {lambda : ℝ}

/-! ## All columns -/

/-- As many pivots as columns are all columns. -/
theorem pivotColumns_eq_univ (hd : Function.Injective d.order) (hp : n ≤ p) :
    d.pivotColumns p = Finset.univ :=
  Finset.eq_univ_of_forall fun c => (mem_pivotColumns hd).mpr ((d.pivotOf c).isLt.trans_le hp)

theorem sum_order (hd : Function.Injective d.order) (hn : p ≤ n) (hp : n ≤ p) (f : Fin n → ℝ) :
    ∑ k : Fin p, f (d.order (k.castLE hn)) = ∑ c, f c := by
  rw [← sum_pivotColumns hd hn, pivotColumns_eq_univ hd hp]

/-- A sum of terms that vanish outside the columns of the first `p` pivots. -/
theorem sum_order_of_outside (hd : Function.Injective d.order) (hn : p ≤ n) {f : Fin n → ℝ}
    (hf : ∀ c, c ∉ d.pivotColumns p → f c = 0) :
    ∑ k : Fin p, f (d.order (k.castLE hn)) = ∑ c, f c := by
  rw [← sum_pivotColumns hd hn]
  exact Finset.sum_subset (Finset.subset_univ _) fun c _ hc => hf c hc

theorem scatter_order (hd : Function.Injective d.order) (hn : p ≤ n) (v : Vec ℝ p) (k : Fin p) :
    d.scatter v (d.order (k.castLE hn)) = v k := by
  have hk : d.gather hn (d.scatter v) k = v k := by rw [gather_scatter hd]
  rwa [gather, Vec.ofFn_apply] at hk

/-- The scaled length of a vector on the columns of the first `p` pivots is that of all of it. -/
theorem scaledLength_of_outside (hd : Function.Injective d.order) (hn : p ≤ n) (D : Vec ℝ n)
    {x : Vec ℝ n} (hx : ∀ c, c ∉ d.pivotColumns p → x c = 0) :
    d.scaledLength hn D x = norm (Damped.scaled D x) := by
  rw [scaledLength, Exact.norm_eq, Exact.norm_eq]
  simp only [Damped.scaled, gather, Vec.ofFn_apply]
  rw [sum_order_of_outside hd hn (f := fun c => D c * x c * (D c * x c)) fun c hc => by
    rw [hx c hc, mul_zero, mul_zero]]

/-- The scaled length is that of all columns. -/
theorem scaledLength_eq (hd : Function.Injective d.order) (hn : p ≤ n) (hp : n ≤ p)
    (D x : Vec ℝ n) : d.scaledLength hn D x = norm (Damped.scaled D x) :=
  scaledLength_of_outside hd hn D fun c hc =>
    absurd (pivotColumns_eq_univ hd hp ▸ Finset.mem_univ c) hc

theorem norm_scaled_neg (D x : Vec ℝ n) :
    norm (Damped.scaled D (x.map fun x => -x)) = norm (Damped.scaled D x) := by
  rw [Exact.norm_eq, Exact.norm_eq]
  simp only [Damped.scaled, Vec.ofFn_apply, Vec.map_apply, mul_neg, neg_mul, neg_neg]

/-- **Independent columns are all solved for.** -/
theorem Factored.rank_eq (h : Factored J 0 d) (hJ : ∀ v, J.toMatrix *ᵥ v = 0 → v = 0) :
    d.rank = n := by
  have hinjective : Function.Injective J.toMatrix.mulVecLin :=
    LinearMap.ker_eq_bot.mp (LinearMap.ker_eq_bot'.mpr hJ)
  rw [h.rank_eq_rank le_rfl h.leavesNothing, Matrix.rank,
    LinearMap.finrank_range_of_inj hinjective, Module.finrank_fin_fun]

/-- The triangle takes a vector on the columns of its pivots to one as long as the Jacobian
does. -/
theorem Represents.rows_mul_rows (h : Represents hm hn J r qy d) {x : Vec ℝ n}
    (hx : ∀ c, c ∉ d.pivotColumns p → x c = 0) :
    ∑ i, (∑ k, d.block hm hn i k * d.gather hn x k) * ∑ k, d.block hm hn i k * d.gather hn x k =
      (J.toMatrix *ᵥ x.get) ⬝ᵥ (J.toMatrix *ᵥ x.get) := by
  have hentry (k : Fin p) : d.gather hn x k = x (d.order (k.castLE hn)) := Vec.ofFn_apply _ k
  calc _ = ∑ a, d.gather hn x a *
        ∑ c, (∑ i, d.block hm hn i a * d.block hm hn i c) * d.gather hn x c :=
        Damped.sum_rows_mul (d.block hm hn) (d.gather hn x).get (d.gather hn x).get
    _ = ∑ c, x c * ∑ l, J.gram c l * x l := by
        rw [← sum_order_of_outside h.order hn fun c hc => by rw [hx c hc, zero_mul]]
        refine Finset.sum_congr rfl fun a _ => ?_
        rw [← sum_order_of_outside h.order hn fun c hc => by rw [hx c hc, mul_zero], hentry]
        simp only [hentry, Mat.gram_eq, h.gram]
    _ = _ := J.dot_gram x.get

/-! ## A Newton pass -/

section Represents

variable (h : Represents hm hn J r qy d) (hp : n ≤ p)

include h hp

/-- The damped equations of the triangle, laid out by columns. -/
theorem Represents.solves_scatter {b : Fin n → ℝ} {z : Vec ℝ p}
    (hz : ∀ a, (∑ c, (∑ i, d.block hm hn i a * d.block hm hn i c) * z c) +
      lambda * d.gather hn D a ^ 2 * z a = b (d.order (a.castLE hn))) :
    SolvesDamped J D lambda b (d.scatter z).get := by
  intro c
  obtain ⟨a, rfl⟩ : ∃ a : Fin p, d.order (a.castLE hn) = c :=
    ⟨⟨(d.pivotOf c).val, (d.pivotOf c).isLt.trans_le hp⟩, order_pivotOf h.order c⟩
  rw [← hz a, ← sum_order h.order hn hp, scatter_order h.order]
  simp only [gather, Vec.ofFn_apply, scatter_order h.order, Mat.gram_eq, h.gram]

/-- A decomposition of full rank is one of independent columns. -/
theorem Represents.eq_zero_of_mulVec (hr : d.rank = p) {v : Fin n → ℝ}
    (hv : J.toMatrix *ᵥ v = 0) : v = 0 := by
  have hsquare := h.rows_mul_rows (x := Vec.ofFn v) fun c hc =>
    absurd (pivotColumns_eq_univ h.order hp ▸ Finset.mem_univ c) hc
  rw [show (Vec.ofFn v).get = v from funext (Vec.ofFn_apply v), hv, dotProduct_zero] at hsquare
  have hrows (i : Fin p) := (Finset.sum_eq_zero_iff_of_nonneg fun i _ => mul_self_nonneg _).mp
    hsquare i (Finset.mem_univ i)
  have hzero := h.solvable.eq_zero_of_rows (z := (d.gather hn (Vec.ofFn v)).get)
    (fun k hk => absurd k.isLt (not_lt.mpr (hr ▸ hk))) fun i => mul_self_eq_zero.mp (hrows i)
  funext c
  have hc := hzero ⟨(d.pivotOf c).val, (d.pivotOf c).isLt.trans_le hp⟩
  change d.gather hn (Vec.ofFn v) _ = 0 at hc
  rw [gather, Vec.ofFn_apply, Vec.ofFn_apply] at hc
  exact (congrArg v (order_pivotOf h.order c)).symm.trans hc

/-- **The damped direction**, with its sign changed, solves the damped normal equations. -/
theorem Represents.dampedAt_solves (hD : ∀ c, 0 < D c) (hl : 0 < lambda) :
    SolvesDamped J D lambda (J.transposeMulVec r).get
      ((d.dampedAt hm hn qy D lambda).direction.map fun x => -x).get :=
  (isStep_direction h hD hl).solves (pivotColumns_eq_univ h.order hp)

/-- Its length over all columns. -/
theorem Represents.lengthAt_eq :
    d.lengthAt hm hn qy D lambda =
      norm (Damped.scaled D (d.dampedAt hm hn qy D lambda).direction) := by
  rw [← scaledLength_dampedAt h.order, scaledLength_eq h.order hn hp]

/-- The right-hand side of the equations for the slope of the length of a direction. -/
noncomputable def slopeSide (D x : Vec ℝ n) (length : ℝ) : Fin n → ℝ :=
  fun c => D c ^ 2 * x c / length

omit h in
/-- Forward substitution in a triangle `S` with `Sᵀ S = Rᵀ R + λ D²`, against the solution of the
equations with that matrix. -/
theorem Represents.exists_slope (h : Represents hm hn J r qy d) {S : Mat ℝ p p} {t w : Vec ℝ p}
    (hS : S.IsUpper)
    (hdiag : ∀ k, t k = S k k) (hne : ∀ k, t k ≠ 0)
    (hgram : S.toMatrixᵀ * S.toMatrix = (d.block hm hn).toMatrixᵀ * (d.block hm hn).toMatrix +
      Matrix.diagonal fun k => lambda * d.gather hn D k ^ 2)
    {b : Fin n → ℝ} (hw : ∀ k : Fin p, w k = b (d.order (k.castLE hn))) :
    ∃ z, SolvesDamped J D lambda b z ∧
      dot (Triangular.solveTransposed S t w) (Triangular.solveTransposed S t w) = b ⬝ᵥ z := by
  set u := Triangular.solveTransposed S t w
  have hu : S.toMatrixᵀ *ᵥ u.get = w.get := transpose_mulVec_solveTransposed hS hdiag hne w
  have hdet : IsUnit S.toMatrix.det := by
    have hupper : S.toMatrix.IsUpperTriangular := fun i j hij => hS i j hij
    rw [det_of_isUpperTriangular hupper, isUnit_iff_ne_zero]
    exact Finset.prod_ne_zero_iff.mpr fun k _ h0 => hne k ((hdiag k).trans h0)
  set z : Vec ℝ p := Vec.ofFn (S.toMatrix⁻¹ *ᵥ u.get)
  have hzget : z.get = S.toMatrix⁻¹ *ᵥ u.get := funext fun k => Vec.ofFn_apply _ k
  have hSz : S.toMatrix *ᵥ z.get = u.get := by
    rw [hzget, mulVec_mulVec, mul_nonsing_inv _ hdet, one_mulVec]
  refine ⟨(d.scatter z).get, h.solves_scatter hp fun a => ?_, ?_⟩
  · have ha := congrFun (congrArg (S.toMatrixᵀ *ᵥ ·) hSz) a
    simp only [mulVec_mulVec, hgram, hu, add_mulVec, Pi.add_apply, mulVec_diagonal] at ha
    rw [← hw, ← ha]
    rfl
  · calc dot u u = u.get ⬝ᵥ u.get := Exact.dot_eq u u
      _ = w.get ⬝ᵥ z.get := by
        nth_rewrite 2 [← hSz]
        rw [dotProduct_mulVec, ← mulVec_transpose, hu]
      _ = b ⬝ᵥ (d.scatter z).get := by
        rw [dotProduct, dotProduct, ← sum_order h.order hn hp]
        refine Finset.sum_congr rfl fun k _ => ?_
        rw [hw, scatter_order h.order]

/-- **The slope of a pass**, which its correction is divided by. -/
theorem Represents.exists_slopeAt (hD : ∀ c, 0 < D c) (hl : 0 < lambda) :
    let x := (d.dampedAt hm hn qy D lambda).direction
    let b := slopeSide D x (d.lengthAt hm hn qy D lambda)
    ∃ z, SolvesDamped J D lambda b z ∧
      dot (d.slopeAt hm hn qy D lambda) (d.slopeAt hm hn qy D lambda) = b ⬝ᵥ z := by
  intro x b
  have hfull := firstZero_dampedAt d hm hn qy hD hl
  have hgather := gather_dampedAt h.order hm hn qy D lambda
  rw [dampedAt_solution] at hfull hgather
  rw [slopeAt_eq]
  set s := Damped.solve (d.block hm hn) (qy.take hm) (d.gather hn (D.map (√lambda * ·)))
  have hne (k : Fin p) : s.diagonal k ≠ 0 :=
    (Damped.firstZero_spec _).2.1 k (hfull.symm ▸ k.isLt)
  have hgram := Damped.solve_gram (qy.take hm) (d.gather hn (D.map (√lambda * ·)))
    (block_isUpper d hm hn)
  simp only [gather_root hl.le] at hgram
  refine h.exists_slope hp (Damped.solve_isUpper _ _ (block_isUpper d hm hn))
    (fun k => Damped.solve_diagonal _ _ k) hne hgram fun k => ?_
  have hk : d.gather hn x k = x (d.order (k.castLE hn)) := Vec.ofFn_apply _ k
  rw [Vec.ofFn_apply, Damped.scaled, Vec.ofFn_apply, ← hgather, hk, gather, Vec.ofFn_apply]
  change _ = D _ ^ 2 * x _ / _
  ring

/-! ## The bracket before the first pass -/

/-- The undamped direction over all columns. -/
theorem Represents.undampedLength_eq (D : Vec ℝ n) :
    norm (Damped.scaled (d.gather hn D) ((d.undamped qy).take hn)) =
      norm (Damped.scaled D (d.toColumns (d.undamped qy))) := by
  rw [← gather_toColumns h.order hn, ← scaledLength_eq h.order hn hp, scaledLength]

/-- **The slope at zero**, for a decomposition of full rank. -/
theorem Represents.exists_undampedSlope (hr : d.rank = p) :
    let x := d.toColumns (d.undamped qy)
    let b := slopeSide D x (norm (Damped.scaled D x))
    ∃ z, SolvesDamped J D 0 b z ∧
      dot (d.undampedSlope hm hn qy D) (d.undampedSlope hm hn qy D) = b ⬝ᵥ z := by
  intro x b
  have hgather : d.gather hn x = (d.undamped qy).take hn := gather_toColumns h.order hn _
  refine h.exists_slope hp (S := d.block hm hn) (t := d.diagonal.take hn) (b := b)
    (block_isUpper d hm hn) (fun k => ?_) (fun k => ?_) (by simp) fun k => ?_
  · rw [Vec.take_apply, h.diagonal_eq]
  · rw [Vec.take_apply]
    exact h.diagonal_ne _ (hr ▸ k.isLt)
  · have hk : d.gather hn x k = x (d.order (k.castLE hn)) := Vec.ofFn_apply _ k
    rw [Vec.ofFn_apply, Damped.scaled, Vec.ofFn_apply, ← hgather, hk, gather, Vec.ofFn_apply,
      hgather]
    change _ = D _ ^ 2 * x _ / _
    rw [← h.undampedLength_eq hp, Damped.scaled]
    simp only [gather]
    ring

/-- **The scaled gradient** over all columns. -/
theorem Represents.gradientNorm_eq (D : Vec ℝ n) :
    norm (Vec.ofFn fun k => d.gradient hm hn qy k / d.gather hn D k) =
      √(∑ c, (J.transposeMulVec r c / D c) ^ 2) := by
  rw [Exact.norm_eq, ← sum_order h.order hn hp]
  congr 1
  refine Finset.sum_congr rfl fun k _ => ?_
  rw [Vec.ofFn_apply, h.gradient_eq, ← Mat.transposeMulVec_eq, gather, Vec.ofFn_apply]
  ring

end Represents

end Decomposition

/-! ## Trials -/

namespace LevenbergMarquardt

open Decomposition

/-- Options within their bounds, with zero as ranking threshold. -/
structure Options.Regular (o : Options ℝ) : Prop where
  threshold_eq : o.rankingThreshold = 0
  factor_pos : 0 < o.initialStepFactor
  parameter_nonneg : 0 ≤ o.parameterTolerance
  orthogonality_nonneg : 0 ≤ o.orthogonalityTolerance

theorem Options.regular_of_check {given : Options (Setting ℝ)} {o : Options (Number ℝ)}
    (hc : Options.check given = .ok o) (ht : o.values.rankingThreshold = 0) :
    o.values.Regular := by
  obtain ⟨hfactor, hbounded⟩ := Options.of_check_eq_ok hc
  exact ⟨ht, value_pos hfactor,
    value_nonneg (hbounded (.parameterTolerance, _) (by simp [Options.bounded])),
    value_nonneg (hbounded (.orthogonalityTolerance, _) (by simp [Options.bounded]))⟩

/-- A search of a run stands at the evaluation its outer iteration began at. -/
theorem Reached.stands {o : Options ℝ} {e₀ : Evaluation ℝ m n} {bs : List (Evaluation ℝ m n)}
    {s : Search ℝ m n} (h : Reached o e₀ bs s) : s.standing = .ofEvaluation s.base := by
  induction h with
  | first hs =>
    obtain ⟨d, -, rfl⟩ := Search.of_start_eq_ok hs
    rfl
  | retried _ hn ih => exact Search.stands_of_retry (fun _ => not_lt.mpr) ih hn
  | renewed _ hn hs ih =>
    obtain rfl := Search.standing_of_renew ih hn 0
    obtain ⟨d, -, rfl⟩ := Search.of_start_eq_ok hs
    rfl

/-- **What the trials of a search rest on**: the decomposition represents the Jacobian it stands
on, and the region is one. -/
structure Search.Poised (s : Search ℝ m n) : Prop where
  stands : s.standing = .ofEvaluation s.base
  represents : Represents (Nat.min_le_left m n) (Nat.min_le_right m n) s.base.jacobian
    s.base.residuals s.projected s.decomposition
  written : s.decomposition.Written (min m n)
  scaling_pos : ∀ c, 0 < s.region.scaling c
  radius_pos : 0 < s.region.radius
  lambda_nonneg : 0 ≤ s.region.lambda

/-- Every search of a run is such. -/
theorem Reached.poised {o : Options ℝ} (ho : o.Regular) {e₀ : Evaluation ℝ m n}
    {bs : List (Evaluation ℝ m n)} {s : Search ℝ m n} (h : Reached o e₀ bs s) : s.Poised := by
  have hsound := h.sound ho.threshold_eq ho.factor_pos ho.parameter_nonneg
  obtain ⟨-, -, hrep, -⟩ := hsound.decomposed
  obtain ⟨d, hd, hagrees⟩ := h.agrees
  exact ⟨h.stands, hrep, hagrees.written (writeDiagonal_written (ofJacobian_order hd) _),
    fun c => hsound.scaling_eq c ▸ scaleOver_pos e₀ bs c, hsound.radius_pos,
    (h.signed Exact.signRule ho.factor_pos.le).2⟩

section Poised

variable {s : Search ℝ m n} (h : s.Poised)

include h

theorem Search.Poised.finds :
    Finds (Nat.min_le_left m n) (Nat.min_le_right m n) s.base.jacobian s.base.residuals
      s.projected s.region.scaling s.decomposition
      (s.decomposition.parameter (Nat.min_le_left m n) (Nat.min_le_right m n) s.projected
        s.region.radius s.region.scaling s.region.lambda) :=
  (parameter_spec h.represents h.scaling_pos h.radius_pos h.lambda_nonneg).2.1

theorem Search.Poised.lambda_ge : 0 ≤ s.propose.lambda :=
  (parameter_spec h.represents h.scaling_pos h.radius_pos h.lambda_nonneg).1

/-- The step is zero outside of the columns that are solved for. -/
theorem Search.Poised.outside :
    ∀ c, c ∉ s.propose.decomposition.pivotColumns (min m n) → s.propose.step c = 0 := by
  have horder : s.propose.decomposition.order = s.decomposition.order := h.finds.order_eq
  rw [pivotColumns_congr horder]
  exact h.finds.isStep.outside

/-- **The length of the step** is that of all its scaled entries. -/
theorem Search.Poised.length_eq :
    s.propose.length = norm (Damped.scaled s.region.scaling s.propose.step) :=
  scaledLength_of_outside h.finds.represents.order (Nat.min_le_right m n) _ h.outside

theorem Search.Poised.length_sq : s.propose.length ^ 2 =
    ∑ c, (s.region.scaling c * s.propose.step c) * (s.region.scaling c * s.propose.step c) := by
  rw [h.length_eq, Exact.norm_sq]
  simp only [dotProduct, Damped.scaled, Vec.ofFn_apply]

/-- An undamped step is hardly longer than the radius. -/
theorem Search.Poised.length_le (h0 : s.propose.lambda = 0) :
    s.propose.length ≤ 11 / 10 * s.region.radius := by
  obtain ⟨-, -, hfits, hundamped⟩ :=
    parameter_spec h.represents h.scaling_pos h.radius_pos h.lambda_nonneg
  have hstep : s.propose.step =
      (s.decomposition.toColumns (s.decomposition.undamped s.projected)).map fun x => -x :=
    congrArg (Vec.map fun x => -x) (hundamped h0)
  rw [h.length_eq, hstep]
  exact hfits.mp h0

/-- **The change of the linear model** is as long as that of the residuals. -/
theorem Search.Poised.change_eq :
    dot (Search.linearModel s.propose) (Search.linearModel s.propose) =
      (s.base.jacobian.toMatrix *ᵥ s.propose.step.get) ⬝ᵥ
        (s.base.jacobian.toMatrix *ᵥ s.propose.step.get) := by
  rw [← h.finds.represents.rows_mul_rows h.outside, Exact.dot_eq]
  simp only [linearModel_apply]
  rfl

/-- **The step** solves the damped normal equations on all columns, if there are as many rows. -/
theorem Search.Poised.step_solves (hn : n ≤ m) :
    SolvesDamped s.base.jacobian s.region.scaling s.propose.lambda
      (s.base.jacobian.transposeMulVec s.base.residuals).get s.propose.step.get :=
  h.finds.isStep.solves (pivotColumns_eq_univ h.represents.order (le_min hn le_rfl))

end Poised

end LevenbergMarquardt

end LeastSquares
