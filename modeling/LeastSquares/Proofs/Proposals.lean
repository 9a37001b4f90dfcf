import LeastSquares.Proofs.Bracket

/-!
# What a trust region proposes

The direction that the search for the damping parameter ends with, in exact arithmetic, for a
decomposition of any rank: the undamped one if the parameter is zero, else the damped solution for
the parameter (`IsDirection`). Behind the rank the triangle need not be zero, since a ranking
threshold may make columns negligible that are not; the undamped direction takes no part in them.

Results:
* `parameter_isDirection`: the search ends with such a direction;
* `IsDirection.eq_zero_of_null`: a column of the triangle that is zero, behind the rank, is not
  moved along;
* `IsDirection.gain_le`, `IsDirection.eq_zero_of_gain`: what the linear model gains by a direction
  is no more than there is, and nothing only if the direction is zero.
-/

namespace LeastSquares.Decomposition

open Matrix

variable {m n p : Nat} {d : Decomposition ℝ m n} {hm : p ≤ m} {hn : p ≤ n} {qy : Vec ℝ m}
  {D x : Vec ℝ n} {δ lambda : ℝ}

/-! ## Directions -/

/-- **A direction of the trust region** for a damping parameter: the undamped one, or the damped
solution. -/
inductive IsDirection (hm : p ≤ m) (hn : p ≤ n) (d : Decomposition ℝ m n) (qy : Vec ℝ m)
    (D : Vec ℝ n) : ℝ → Vec ℝ n → Prop
  | undamped : IsDirection hm hn d qy D 0 (d.toColumns (d.undamped qy))
  | damped {mu : ℝ} {y : Vec ℝ n} (hmu : 0 < mu) (hy : IsDamped hm hn d qy D mu y) :
      IsDirection hm hn d qy D mu y

/-- **The Newton passes** end with a positive parameter and its damped direction. -/
theorem newton_isDirection (h : d.Written p) (hD : ∀ c, 0 < D c) {left : Nat}
    {s : Damped.Newton ℝ} (hl : 0 ≤ s.lambda) (hlo : 0 ≤ s.lower) (hu : 0 ≤ s.upper) :
    let found := newton hm hn qy δ D left s d
    IsDirection hm hn d qy D found.lambda found.direction := by
  have ended {s : Damped.Newton ℝ} (hl : 0 ≤ s.lambda) :
      IsDirection hm hn d qy D s.leaveZero.lambda
        (d.dampedAt hm hn qy D s.leaveZero.lambda).direction :=
    .damped (leaveZero_pos hl) (isDamped_dampedAt h.order hm hn qy hD (leaveZero_pos hl))
  induction left generalizing s with
  | zero =>
    rw [newton_zero]
    exact ended hl
  | succ left ih =>
    rw [newton_succ h]
    split_ifs
    · exact ended hl
    · obtain ⟨elo, eu⟩ := SignRule.leaveZero_bracket s
      obtain ⟨g1, g2, g3⟩ :=
        Exact.signRule.newton_next (leaveZero_pos hl).le (elo ▸ hlo) (eu ▸ hu) _ _
      exact ih g1 g2 g3

/-- **The search for the damping parameter** ends with a direction for it. -/
theorem parameter_isDirection (h : d.Written p) (hm : p ≤ m) (hn : p ≤ n) (qy : Vec ℝ m)
    (hD : ∀ c, 0 < D c) (hδ : 0 ≤ δ) {initial : ℝ} (hi : 0 ≤ initial) :
    let found := d.parameter hm hn qy δ D initial
    IsDirection hm hn d qy D found.lambda found.direction := by
  rcases Exact.signRule.parameter_cases d hm hn qy D hδ hi with ⟨-, he⟩ | ⟨-, s, hl, hlo, hu, he⟩
  · rw [he]
    exact .undamped
  · rw [he]
    exact newton_isDirection h hD hl hlo hu

theorem IsDirection.lambda_nonneg (h : IsDirection hm hn d qy D lambda x) : 0 ≤ lambda := by
  cases h with
  | undamped => exact le_rfl
  | damped hl => exact hl.le

/-! ## Columns that are zero -/

/-- **A column without influence**: where the triangle has a zero column behind the rank, the
direction is zero. -/
theorem IsDirection.eq_zero_of_null (h : IsDirection hm hn d qy D lambda x)
    (hd : Function.Injective d.order) (hD : ∀ c, 0 < D c) {c : Fin n}
    (hrank : d.rank ≤ (d.pivotOf c).val)
    (hnull : ∀ i a : Fin p, a.val = (d.pivotOf c).val → d.block hm hn i a = 0) : x c = 0 := by
  cases h with
  | undamped => rw [toColumns, Vec.ofFn_apply, undamped_of_le hrank]
  | damped hl hx =>
    rcases Nat.lt_or_ge (d.pivotOf c).val p with hp | hp
    · -- the damping alone holds the entry at zero
      have hcolumn (i : Fin p) : d.block hm hn i ⟨(d.pivotOf c).val, hp⟩ = 0 := hnull i _ rfl
      have hnormal := hx.normal ⟨(d.pivotOf c).val, hp⟩
      simp only [hcolumn, zero_mul, Finset.sum_const_zero, zero_add] at hnormal
      have hgather : d.gather hn x ⟨(d.pivotOf c).val, hp⟩ = x c := by
        rw [gather, Vec.ofFn_apply]
        exact congrArg x (order_pivotOf hd c)
      rw [hgather] at hnormal
      exact (mul_eq_zero.mp hnormal).resolve_left
        (mul_pos hl (pow_pos (gather_pos hD _) 2)).ne'
    · exact hx.outside c fun hmem => hp.not_gt ((mem_pivotColumns hd).mp hmem)

/-- A column of zeros stands behind the rank and is zero there. -/
theorem Factored.null_column {J : Mat ℝ m n} {t : ℝ} (h : Factored J t d) (ht : 0 ≤ t) {c : Fin n}
    (hc : ∀ i, J i c = 0) :
    d.rank ≤ (d.pivotOf c).val ∧ ∀ i, d.buffer i (d.pivotOf c) = 0 := by
  have hreduced (i : Fin m) : d.reduced d.rank i (d.pivotOf c) = 0 := by
    rw [← h.factors, Matrix.mul_apply]
    refine Finset.sum_eq_zero fun l _ => ?_
    rw [permuted, order_pivotOf h.order, hc, neg_zero, mul_zero]
  have hrank : d.rank ≤ (d.pivotOf c).val := by
    refine not_lt.mp fun hlt => h.diagonal_ne ht _ hlt ?_
    have hm : (d.pivotOf c).val < m := hlt.trans_le h.le_rows
    have hdiagonal := hreduced ⟨(d.pivotOf c).val, hm⟩
    rwa [reduced_of_lt d _ hlt, if_neg (lt_irrefl _), if_pos rfl] at hdiagonal
  exact ⟨hrank, fun i => by rw [← reduced_of_le d i hrank, hreduced]⟩

/-- So it is in the triangle with its diagonal written into it. -/
theorem Factored.block_null {J : Mat ℝ m n} {t : ℝ} (h : Factored J t d) (ht : 0 ≤ t) {c : Fin n}
    (hc : ∀ i, J i c = 0) (i : Fin p) {a : Fin p} (ha : a.val = (d.pivotOf c).val) :
    (d.writeDiagonal p).block hm hn i a = 0 := by
  obtain ⟨hrank, hbuffer⟩ := h.null_column ht hc
  have hpivot : a.castLE hn = d.pivotOf c := Fin.ext ha
  rw [block, Mat.ofFn_apply, writeDiagonal, Mat.ofFn_apply, hpivot, hbuffer,
    (h.untouched _ hrank).1, ite_self, ite_self]

/-! ## The gain of the linear model -/

/-- The square of the change `R Pᵀ x` of the projected residuals along a direction. -/
noncomputable def modelSquare (d : Decomposition ℝ m n) (hm : p ≤ m) (hn : p ≤ n) (x : Vec ℝ n) :
    ℝ :=
  ∑ i, (∑ c, d.block hm hn i c * d.gather hn x c) ^ 2

/-- What the linear model gains by a direction: twice the damping counts beside the change. -/
noncomputable def gain (d : Decomposition ℝ m n) (hm : p ≤ m) (hn : p ≤ n) (D : Vec ℝ n)
    (lambda : ℝ) (x : Vec ℝ n) : ℝ :=
  d.modelSquare hm hn x + 2.0 * (lambda * ∑ k, (d.gather hn D k * d.gather hn x k) ^ 2)

theorem gain_nonneg (hl : 0 ≤ lambda) : 0 ≤ d.gain hm hn D lambda x :=
  add_nonneg (Finset.sum_nonneg fun _ _ => sq_nonneg _)
    (mul_nonneg (by norm_num) (mul_nonneg hl (Finset.sum_nonneg fun _ _ => sq_nonneg _)))

/-- The undamped direction in the order of the pivots. -/
theorem gather_undamped (hd : Function.Injective d.order) (k : Fin p) :
    d.gather hn (d.toColumns (d.undamped qy)) k = d.undamped qy (k.castLE hn) := by
  rw [gather_toColumns hd, Vec.take_apply]

/-- The rows of the triangle at the undamped direction: those of `Qᵀ r` up to the rank, then
zeros. -/
theorem Solvable.row_undamped (h : Solvable hm hn d) (hd : Function.Injective d.order)
    (qy : Vec ℝ m) (i : Fin p) :
    (∑ c, d.block hm hn i c * d.gather hn (d.toColumns (d.undamped qy)) c) =
      if i.val < d.rank then qy (i.castLE hm) else 0 := by
  simp only [gather_undamped hd]
  split_ifs with hi
  · exact h.undamped_row qy i hi
  · refine Finset.sum_eq_zero fun c _ => ?_
    rcases lt_or_ge c i with hci | hic
    · rw [block_isUpper d hm hn i c hci, zero_mul]
    · rw [undamped_of_le ((not_lt.mp hi).trans hic), mul_zero]

/-- The products of the damped equations with their solution. -/
theorem IsDamped.energy (h : IsDamped hm hn d qy D lambda x) :
    d.modelSquare hm hn x + lambda * ∑ k, (d.gather hn D k * d.gather hn x k) ^ 2 =
      ∑ i, (∑ c, d.block hm hn i c * d.gather hn x c) * qy (i.castLE hm) := by
  have hsum : ∑ a, d.gather hn x a * ((∑ c, (∑ i, d.block hm hn i a * d.block hm hn i c) *
      d.gather hn x c) + lambda * d.gather hn D a ^ 2 * d.gather hn x a) =
        ∑ a, d.gather hn x a * ∑ i, d.block hm hn i a * qy (i.castLE hm) :=
    Finset.sum_congr rfl fun a _ => congrArg _ (h.normal a)
  have hmodel : ∑ a, d.gather hn x a * (∑ c, (∑ i, d.block hm hn i a * d.block hm hn i c) *
      d.gather hn x c) = d.modelSquare hm hn x := by
    simp only [Mat.sum_gram_mul]
    simp only [modelSquare, sq, Finset.mul_sum, Finset.sum_mul]
    rw [Finset.sum_comm]
    exact Finset.sum_congr rfl fun i _ => Finset.sum_congr rfl fun a _ =>
      Finset.sum_congr rfl fun c _ => by ring
  have hmoment : ∑ a, d.gather hn x a * ∑ i, d.block hm hn i a * qy (i.castLE hm) =
      ∑ i, (∑ c, d.block hm hn i c * d.gather hn x c) * qy (i.castLE hm) := by
    simp only [Finset.mul_sum, Finset.sum_mul]
    rw [Finset.sum_comm]
    exact Finset.sum_congr rfl fun i _ => Finset.sum_congr rfl fun a _ => by ring
  rw [← hmoment, ← hsum, ← hmodel, Finset.mul_sum, ← Finset.sum_add_distrib]
  exact Finset.sum_congr rfl fun a _ => by ring

/-- **The gain is no more than there is**: the square of the projected residuals on the pivots. -/
theorem IsDirection.gain_le (h : IsDirection hm hn d qy D lambda x)
    (hd : Function.Injective d.order) (hs : Solvable hm hn d) :
    d.gain hm hn D lambda x ≤ ∑ i : Fin p, qy (i.castLE hm) ^ 2 := by
  cases h with
  | undamped =>
    unfold gain modelSquare
    rw [zero_mul, mul_zero, add_zero]
    refine Finset.sum_le_sum fun i _ => ?_
    rw [hs.row_undamped hd]
    split_ifs
    · exact le_rfl
    · rw [zero_pow two_ne_zero]
      exact sq_nonneg _
  | damped hl hx =>
    have henergy := hx.energy
    have hrest : 0 ≤ ∑ i, (qy (i.castLE hm) - ∑ c, d.block hm hn i c * d.gather hn x c) ^ 2 :=
      Finset.sum_nonneg fun _ _ => sq_nonneg _
    have hsquare : ∑ i, (qy (i.castLE hm) - ∑ c, d.block hm hn i c * d.gather hn x c) ^ 2 =
        (∑ i : Fin p, qy (i.castLE hm) ^ 2) -
          2 * (∑ i, (∑ c, d.block hm hn i c * d.gather hn x c) * qy (i.castLE hm)) +
            d.modelSquare hm hn x := by
      rw [modelSquare, Finset.mul_sum, ← Finset.sum_sub_distrib, ← Finset.sum_add_distrib]
      exact Finset.sum_congr rfl fun i _ => by ring
    unfold gain
    linarith

/-- **Nothing is gained** only by a direction that is zero. -/
theorem IsDirection.eq_zero_of_gain (h : IsDirection hm hn d qy D lambda x)
    (hd : Function.Injective d.order) (hs : Solvable hm hn d) (hD : ∀ c, 0 < D c)
    (hgain : d.gain hm hn D lambda x = 0) (c : Fin n) : x c = 0 := by
  have hmodel : 0 ≤ d.modelSquare hm hn x := Finset.sum_nonneg fun _ _ => sq_nonneg _
  have hlength : 0 ≤ ∑ k, (d.gather hn D k * d.gather hn x k) ^ 2 :=
    Finset.sum_nonneg fun _ _ => sq_nonneg _
  unfold gain at hgain
  cases h with
  | undamped =>
    rw [zero_mul, mul_zero, add_zero] at hgain
    have hrow (i : Fin p) :
        (∑ c, d.block hm hn i c * d.gather hn (d.toColumns (d.undamped qy)) c) = 0 :=
      pow_eq_zero_iff two_ne_zero |>.mp
        ((Finset.sum_eq_zero_iff_of_nonneg fun _ _ => sq_nonneg _).mp hgain i (Finset.mem_univ i))
    simp only [gather_undamped hd] at hrow
    have hzero := hs.eq_zero_of_rows (z := fun k => d.undamped qy (k.castLE hn))
      (fun k hk => undamped_of_le hk) hrow
    rw [toColumns, Vec.ofFn_apply]
    rcases Nat.lt_or_ge (d.pivotOf c).val p with hp | hp
    · exact hzero ⟨(d.pivotOf c).val, hp⟩
    · exact undamped_of_le (hs.rank_le.trans hp)
  | damped hl hx =>
    have hsum : ∑ k, (d.gather hn D k * d.gather hn x k) ^ 2 = 0 := by
      have hle : lambda * ∑ k, (d.gather hn D k * d.gather hn x k) ^ 2 ≤ 0 := by linarith
      exact le_antisymm (nonpos_of_mul_nonpos_right hle hl) hlength
    rcases Nat.lt_or_ge (d.pivotOf c).val p with hp | hp
    · have hterm := pow_eq_zero_iff two_ne_zero |>.mp
        ((Finset.sum_eq_zero_iff_of_nonneg fun _ _ => sq_nonneg _).mp hsum ⟨(d.pivotOf c).val, hp⟩
          (Finset.mem_univ _))
      have hgather := (mul_eq_zero.mp hterm).resolve_left (gather_pos hD _).ne'
      rw [gather, Vec.ofFn_apply] at hgather
      exact order_pivotOf hd c ▸ hgather
    · exact hx.outside c fun hmem => hp.not_gt ((mem_pivotColumns hd).mp hmem)

end LeastSquares.Decomposition
