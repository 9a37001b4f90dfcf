import LeastSquares.Proofs.AffineTrials

/-!
# The predicted reduction

A trial predicts its reduction from the triangle: the square of `R Pᵀ x` and twice what the damping
holds back, relative to the squared cost. In exact arithmetic, at the ranking threshold zero, this
is what the linear model of the residuals loses by the step, for every shape and every rank: the
step solves the damped normal equations on the columns that are solved for and is zero on the
others, so its product with the gradient is the square of its image and what the damping holds
back (`IsStep.dot_eq`).

A run makes no trial where the residuals are zero or orthogonal to all columns that are solved for
(`Courses.search_safe`). So the prediction is positive, and the ratio of the two reductions is always
a quotient.

Results:
* `IsStep.dot_eq`, `IsStep.eq_zero_of_square`: what a step on some of the columns gains;
* `Search.Poised.predicts`: the prediction of a search;
* `optimize_predicts`: every trial of every run.
-/

namespace LeastSquares

open Matrix

variable {σ : Type} {m n : Nat}

/-! ## Steps on some of the columns -/

section Step

variable {J : Mat ℝ m n} {r : Vec ℝ m} {D x : Vec ℝ n} {lambda : ℝ} {s : Finset (Fin n)}

/-- Outside of the columns of a step, sums with its entries have no terms. -/
theorem IsStep.sum_eq (h : IsStep J r D lambda s x) (f : Fin n → ℝ) :
    ∑ b ∈ s, f b * x b = ∑ b, f b * x b :=
  Finset.sum_subset (Finset.subset_univ _) fun b _ hb => by rw [h.outside b hb, mul_zero]

/-- The equation of one of the columns, with the Jacobian as a matrix. -/
theorem IsStep.normal_eq (h : IsStep J r D lambda s x) {c : Fin n} (hc : c ∈ s) :
    (J.toMatrixᵀ *ᵥ (J.toMatrix *ᵥ x.get)) c + lambda * D c ^ 2 * x c =
      (J.toMatrixᵀ *ᵥ r.get) c := by
  have hnormal := h.normal c hc
  simp only [← Mat.gram_eq] at hnormal
  rw [h.sum_eq] at hnormal
  exact (congrArg (· + lambda * D c ^ 2 * x c)
    (congrFun (Mat.gram_mulVec J x.get) c).symm).trans hnormal

/-- **The product of a step with the gradient**: the square of its image and what the damping holds
back. -/
theorem IsStep.dot_eq (h : IsStep J r D lambda s x) :
    x.get ⬝ᵥ (J.toMatrixᵀ *ᵥ r.get) = (J.toMatrix *ᵥ x.get) ⬝ᵥ (J.toMatrix *ᵥ x.get) +
      lambda * ∑ c, (D c * x c) * (D c * x c) := by
  -- the equations of the other columns need not hold, but there the step is zero
  have hterm (c : Fin n) : x c * (J.toMatrixᵀ *ᵥ r.get) c =
      x c * (J.toMatrixᵀ *ᵥ (J.toMatrix *ᵥ x.get)) c +
        lambda * ((D c * x c) * (D c * x c)) := by
    by_cases hc : c ∈ s
    · rw [← h.normal_eq hc]
      ring
    · rw [h.outside c hc]
      ring
  calc x.get ⬝ᵥ (J.toMatrixᵀ *ᵥ r.get)
      = x.get ⬝ᵥ (J.toMatrixᵀ *ᵥ (J.toMatrix *ᵥ x.get)) +
          lambda * ∑ c, (D c * x c) * (D c * x c) := by
        rw [dotProduct, dotProduct, Finset.mul_sum, ← Finset.sum_add_distrib]
        exact Finset.sum_congr rfl fun c _ => hterm c
    _ = _ := by rw [dotProduct_mulVec, vecMul_transpose]

/-- A step that gains nothing solves for a gradient that is zero on its columns. -/
theorem IsStep.eq_zero_of_square (h : IsStep J r D lambda s x)
    (himage : (J.toMatrix *ᵥ x.get) ⬝ᵥ (J.toMatrix *ᵥ x.get) = 0)
    (hheld : lambda * ∑ c, (D c * x c) * (D c * x c) = 0) {c : Fin n} (hc : c ∈ s) :
    (J.toMatrixᵀ *ᵥ r.get) c = 0 := by
  have hdamping : lambda * D c ^ 2 * x c = 0 := by
    rcases mul_eq_zero.mp hheld with hzero | hsum
    · rw [hzero, zero_mul, zero_mul]
    · have hentry := mul_self_eq_zero.mp
        ((Finset.sum_eq_zero_iff_of_nonneg fun c _ => mul_self_nonneg _).mp hsum c
          (Finset.mem_univ c))
      linear_combination lambda * D c * hentry
  rw [← h.normal_eq hc, dotProduct_self_eq_zero.mp himage, mulVec_zero, hdamping, add_zero]
  rfl

end Step

namespace LevenbergMarquardt

open Decomposition

/-! ## Searches of exact arithmetic -/

/-- In exact arithmetic an evaluation is its own image. -/
theorem isReal_id (e : Evaluation ℝ m n) : e.IsReal id := by
  refine ⟨e, ?_⟩
  unfold Evaluation.map
  simp only [Vec.map_id, Mat.map_id]

/-- So is a search. -/
theorem Search.map_id (s : Search ℝ m n) : s.map id = s := by
  unfold Search.map Standing.map Region.map Decomposition.map Evaluation.map
  simp only [Vec.map_id, Mat.map_id, id]

section Searches

variable {o : Options ℝ} {e : Evaluation ℝ m n} {s s' : Search ℝ m n}

theorem Options.Regular.bounds (h : o.Regular) : o.Bounds :=
  ⟨h.factor_pos, h.parameter_nonneg, h.orthogonality_nonneg, h.threshold_eq.ge⟩

/-- **The first search of a run** is safe, if the run does not end there. -/
theorem Search.Safe.first (ho : o.Bounds)
    (hs : Search.start o (.ofEvaluation e) Region.initial = .ok s)
    (hc : ¬ s.maxCosine ≤ o.orthogonalityTolerance) : s.Safe := by
  rw [map_initial Exact.extends_id] at hs
  obtain ⟨t, rfl, hsafe, -⟩ := exists_safe_start Exact.extends_id ho (isReal_id e) le_rfl
    (fun hfresh => Bool.noConfusion hfresh) hs hc
  rwa [Search.map_id]

/-- So is the search that retries. -/
theorem Search.Safe.retried (hs : s.Safe) (hp : 0 ≤ o.parameterTolerance) {v : Option Bool}
    (hn : s.outcome o e v = .retry s') : s'.Safe := by
  rw [← s.map_id] at hn
  obtain ⟨t, rfl, hsafe, -⟩ := hs.retry Exact.extends_id hp hn
  rwa [Search.map_id]

end Searches

/-- **No trial is made at an optimum**: in exact arithmetic every trial is at a search with a cost
and a gradient that are not zero. -/
theorem Courses.search_safe {o : Options (Number ℝ)} {P : Problem σ ℝ m n} {w : σ}
    {c : Course σ ℝ m n} (hc : Courses o P w c) (ho : o.values.Bounds) {t : Trial ℝ m n}
    (ht : t ∈ c.trials) : t.search.Safe := by
  obtain ⟨ss, hss, hall⟩ := hc.safe Exact.extends_id ho rfl fun e _ => isReal_id e
  obtain ⟨s, hs, hsafe⟩ := hss.exists_search ht
  rw [hsafe.search_eq, Search.map_id]
  exact hall s hs

/-! ## The prediction -/

/-- **The numbers that a step is judged by are those of the linear model** `r - J x`, with the
residuals `r` and the Jacobian `J` of the evaluation that the search stands on and the step `x`.
They are relative to the squared cost, which is not zero. -/
structure Search.Predicts (s : Search ℝ m n) (p : Proposal ℝ m n) (a : Assessment ℝ m n) :
    Prop where
  stands : s.standing = .ofEvaluation s.base
  cost_pos : 0 < s.standing.cost
  cost_sq : s.standing.cost ^ 2 = s.base.residuals.get ⬝ᵥ s.base.residuals.get
  /-- The part of the triangle is `‖J x‖² / ‖r‖²`. -/
  change_eq : dot (linearModel p) (linearModel p) / (s.standing.cost * s.standing.cost) =
    ((s.base.jacobian.toMatrix *ᵥ p.step.get) ⬝ᵥ (s.base.jacobian.toMatrix *ᵥ p.step.get)) /
      (s.base.residuals.get ⬝ᵥ s.base.residuals.get)
  /-- The predicted reduction is `1 - ‖r - J x‖² / ‖r‖²`. -/
  predicted_eq : a.predicted = 1 -
    ((s.base.residuals.get - s.base.jacobian.toMatrix *ᵥ p.step.get) ⬝ᵥ
      (s.base.residuals.get - s.base.jacobian.toMatrix *ᵥ p.step.get)) /
        (s.base.residuals.get ⬝ᵥ s.base.residuals.get)
  /-- The slope is `-(Jᵀ r) x / ‖r‖²`. -/
  slope_eq : a.slope = -(((s.base.jacobian.toMatrixᵀ *ᵥ s.base.residuals.get) ⬝ᵥ p.step.get) /
    (s.base.residuals.get ⬝ᵥ s.base.residuals.get))
  predicted_pos : 0 < a.predicted
  ratio_eq : a.ratio = a.actual / a.predicted

section Poised

variable {s : Search ℝ m n} (h : s.Poised)

include h

/-- What the damping holds back of a step. -/
theorem Search.Poised.held_eq : s.propose.lambda * s.propose.length * s.propose.length =
    s.propose.lambda * ∑ c, (s.region.scaling c * s.propose.step c) *
      (s.region.scaling c * s.propose.step c) := by
  rw [mul_assoc, ← sq, h.length_sq]

/-- The step has a product with the gradient that is its image's square and what is held back. -/
theorem Search.Poised.product_eq :
    s.propose.step.get ⬝ᵥ (s.base.jacobian.toMatrixᵀ *ᵥ s.base.residuals.get) =
      (s.base.jacobian.toMatrix *ᵥ s.propose.step.get) ⬝ᵥ
        (s.base.jacobian.toMatrix *ᵥ s.propose.step.get) +
      s.propose.lambda * s.propose.length * s.propose.length := by
  rw [h.held_eq]
  exact h.finds.isStep.dot_eq

/-- **The step gains something**, where the gradient is not zero. -/
theorem Search.Poised.gain_pos (hs : s.Safe) :
    0 < (s.base.jacobian.toMatrix *ᵥ s.propose.step.get) ⬝ᵥ
        (s.base.jacobian.toMatrix *ᵥ s.propose.step.get) +
      2 * (s.propose.lambda * s.propose.length * s.propose.length) := by
  have himage := Exact.dotProduct_self_nonneg (s.base.jacobian.toMatrix *ᵥ s.propose.step.get)
  have hheld : 0 ≤ s.propose.lambda * s.propose.length * s.propose.length := by
    have hlength : 0 ≤ s.propose.length := Exact.norm_nonneg _
    exact mul_nonneg (mul_nonneg h.lambda_ge hlength) hlength
  refine lt_of_le_of_ne (by linarith) fun hzero => ?_
  obtain ⟨k, hk⟩ := hs.gradient_ne
  have hmem : s.decomposition.order (k.castLE (Nat.min_le_right m n)) ∈
      s.decomposition.pivotColumns (min m n) := by
    rw [mem_pivotColumns h.represents.order, pivotOf_order h.represents.order]
    exact k.isLt
  have hnone : (s.base.jacobian.toMatrix *ᵥ s.propose.step.get) ⬝ᵥ
      (s.base.jacobian.toMatrix *ᵥ s.propose.step.get) = 0 := le_antisymm (by linarith) himage
  have hfree : s.propose.lambda * s.propose.length * s.propose.length = 0 :=
    le_antisymm (by linarith) hheld
  have hnull := h.finds.isStep.eq_zero_of_square hnone (h.held_eq.symm.trans hfree) hmem
  refine hk ?_
  rw [h.represents.gradient_eq]
  exact neg_eq_zero.mpr hnull

/-- **The prediction of a search**, whatever the trial is evaluated to. -/
theorem Search.Poised.predicts (hs : s.Safe) (e : Evaluation ℝ m n) :
    s.Predicts s.propose (s.assess s.propose e) := by
  have hcost : s.standing.cost = s.base.cost := congrArg Standing.cost h.stands
  have hsq : s.standing.cost ^ 2 = s.base.residuals.get ⬝ᵥ s.base.residuals.get := by
    rw [hcost, LevenbergMarquardt.cost_sq]
  have hc : 0 < s.standing.cost :=
    lt_of_le_of_ne (hcost ▸ Real.sqrt_nonneg _) (Ne.symm hs.cost_ne)
  have hmodel := residuals_sq_of_product h.product_eq
  have hpredicted : (s.assess s.propose e).predicted =
      ((s.base.jacobian.toMatrix *ᵥ s.propose.step.get) ⬝ᵥ
          (s.base.jacobian.toMatrix *ᵥ s.propose.step.get) +
        2 * (s.propose.lambda * s.propose.length * s.propose.length)) /
          s.standing.cost ^ 2 := by
    rw [← h.change_eq]
    change _ / (s.standing.cost * s.standing.cost) +
      2.0 * (_ / (s.standing.cost * s.standing.cost)) = _
    norm_num
    ring
  have hpos : 0 < (s.assess s.propose e).predicted := by
    rw [hpredicted]
    exact div_pos (h.gain_pos hs) (pow_pos hc 2)
  refine ⟨h.stands, hc, hsq, ?_, ?_, ?_, hpos, ?_⟩
  · rw [← hsq, h.change_eq, sq]
  · rw [hpredicted, hmodel, ← hsq]
    field_simp
    ring
  · rw [dotProduct_comm, h.product_eq, ← h.change_eq, ← hsq, sq]
    exact congrArg Neg.neg (add_div _ _ _).symm
  · exact if_neg fun h0 => hpos.ne' ((Exact.beq_zero_iff _).mp h0)

end Poised

/-! ## All trials -/

/-- **Headline.** With options that are accepted and the ranking threshold zero, for a problem of
any shape and rank, every trial of every run that is evaluated predicts the reduction of the linear
model. The prediction is positive, so the ratio is always a quotient. -/
theorem optimize_predicts {given : Options (Setting ℝ)} {o : Options (Number ℝ)}
    (hc : Options.check given = .ok o) (ht : o.values.rankingThreshold = 0)
    (P : Problem σ ℝ m n) (w : σ) :
    ∀ t ∈ (optimize o P w).trials, ∀ a v, t.progress = .made a v →
      t.search.Predicts t.proposal a := by
  intro t htrial a v ha
  have hco := courses_optimize o P w
  obtain ⟨e₀, bs, -, -, hat⟩ := hco.reached htrial
  obtain ⟨e, w₁, w₂, -, rfl⟩ := hat.made a v ha
  rw [hat.proposal_eq]
  exact (hat.reached.poised (Options.regular_of_check hc ht)).predicts
    (hco.search_safe (Options.bounds hc) htrial) e

/-- A damped trial of two parameters. -/
theorem optimize_predicts_plane :
    Options.check (shortOptions.map Setting.number) = .ok shortOptions ∧
      shortOptions.values.rankingThreshold = 0 ∧
      ∃ t ∈ (optimize shortOptions planeProblem ()).trials, t.proposal.lambda ≠ 0 ∧
        ∃ a v, t.progress = .made a v ∧ t.search.Predicts t.proposal a := by
  have hc : Options.check (shortOptions.map Setting.number) = .ok shortOptions := rfl
  have hz : shortOptions.values.rankingThreshold = 0 := Nat.cast_zero
  obtain ⟨t, ht, hdamped, a, v, ha⟩ := exists_plane_trial
  exact ⟨hc, hz, t, ht, hdamped, a, v, ha, optimize_predicts hc hz planeProblem () t ht a v ha⟩

end LevenbergMarquardt

end LeastSquares
