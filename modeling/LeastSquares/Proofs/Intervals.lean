import LeastSquares.Proofs.GramInverse
import LeastSquares.Proofs.WeightedFit

/-!
# Intervals and p values

A report has two answers to whether an estimate differs from zero: its p value, from the upper tail
of Student's distribution beyond the t value, and its confidence interval, from a quantile. They are
computed apart. In exact arithmetic they agree at every level: zero is outside the interval if and
only if the p value is below the level. All that is asked of the distribution are the laws
`StudentT.IsLawful`, for the residual degrees of freedom alone.

Results:
* `Report.upperTail_critical`: half the level is left above the end of an interval;
* `Report.outside_iff`: the p value and the interval of one estimate;
* `Report.confidence_agrees`: the report of an optimum.
-/

namespace LeastSquares

variable {m n : Nat}

/-- **What is asked of Student's distribution**: the upper tail falls, is symmetric, and the
quantile is the inverse of what the tail leaves. -/
structure StudentT.IsLawful [StudentT ℝ] (freedom : Nat) : Prop where
  upperTail_strictAnti : StrictAnti (StudentT.upperTail freedom : ℝ → ℝ)
  upperTail_neg : ∀ t : ℝ, StudentT.upperTail freedom (-t) = 1 - StudentT.upperTail freedom t
  upperTail_quantile : ∀ q : ℝ, 0 < q → q < 1 →
    1 - StudentT.upperTail freedom (StudentT.quantile freedom q) = q

namespace Report

variable [StudentT ℝ] {freedom : Nat} (h : StudentT.IsLawful freedom) {level : ℝ}

/-! ## One estimate -/

section Estimate

include h

/-- Half of the level lies above the end of an interval. -/
theorem upperTail_critical (h0 : 0 < level) (h1 : level < 1) :
    StudentT.upperTail freedom (critical freedom level) = level / 2 := by
  have htwo : (2.0 : ℝ) = 2 := by norm_num
  have hq := h.upperTail_quantile (1 - level / 2) (by linarith) (by linarith)
  unfold critical
  rw [htwo]
  linarith

theorem critical_pos (h0 : 0 < level) (h1 : level < 1) : 0 < critical freedom level := by
  have hzero := h.upperTail_neg 0
  rw [neg_zero] at hzero
  refine h.upperTail_strictAnti.lt_iff_gt.mp ?_
  rw [upperTail_critical h h0 h1]
  linarith

/-- A higher level has a shorter interval. -/
theorem critical_lt {level' : ℝ} (h0 : 0 < level) (hlt : level < level') (h1 : level' < 1) :
    critical freedom level' < critical freedom level := by
  refine h.upperTail_strictAnti.lt_iff_gt.mp ?_
  rw [upperTail_critical h h0 (hlt.trans h1), upperTail_critical h (h0.trans hlt) h1]
  linarith

/-- **A p value is below the level** if and only if the t value is beyond the end. -/
theorem pValue_lt_iff (h0 : 0 < level) (h1 : level < 1) (t : ℝ) :
    pValue freedom t < level ↔ critical freedom level < |t| := by
  have htwo : (2.0 : ℝ) = 2 := by norm_num
  have htail : pValue freedom t = 2 * StudentT.upperTail freedom |t| :=
    congrArg (· * StudentT.upperTail freedom |t|) htwo
  rw [htail, ← lt_div_iff₀' two_pos, ← upperTail_critical h h0 h1]
  exact h.upperTail_strictAnti.lt_iff_gt

/-- **Zero is outside an interval** if and only if the p value of its estimate is below the
level. -/
theorem outside_iff (h0 : 0 < level) (h1 : level < 1) {estimate error : ℝ} (he : 0 < error) :
    0 < (interval (critical freedom level) estimate error).1 ∨
        (interval (critical freedom level) estimate error).2 < 0 ↔
      pValue freedom (estimate / error) < level := by
  rw [pValue_lt_iff h h0 h1, abs_div, abs_of_pos he, lt_div_iff₀ he, lt_abs]
  unfold interval
  exact or_congr sub_pos lt_neg_iff_add_neg'.symm

end Estimate

/-! ## The report -/

/-- **The interval of an estimate agrees with its p value** at a level: it is around the estimate,
it has zero outside if and only if the p value is below the level, and at a higher level it is
strictly inside. -/
structure Agrees (r : Report ℝ m n) (i : Inference ℝ n) (c : Fin n) (level : ℝ)
    (lower upper : Vec ℝ n) : Prop where
  ends : r.confidence level = some (lower, upper)
  outside_iff : 0 < lower c ∨ upper c < 0 ↔ i.pValues c < level
  contains : lower c < r.coefficients c ∧ r.coefficients c < upper c
  centred : r.coefficients c - lower c = upper c - r.coefficients c
  inside : ∀ level', level < level' → level' < 1 → ∃ lower' upper',
    r.confidence level' = some (lower', upper') ∧ lower c < lower' c ∧ upper' c < upper c

/-- What the inference of a report is made of. -/
theorem exists_infer {optimum : Optimum ℝ m n} {names : Option (List String)} {name : String}
    {threshold : Number ℝ} {r : Report ℝ m n}
    (hr : ofOptimum optimum names name threshold = .ok r) {i : Inference ℝ n}
    (hi : r.inference = some i) :
    ∃ v C, i = infer r.coefficients (m - n) v C := by
  obtain ⟨l, -, hr⟩ := of_bind_eq_ok hr
  obtain ⟨rms, -, hr⟩ := of_bind_eq_ok hr
  obtain ⟨inverse, -, hr⟩ := of_bind_eq_ok hr
  obtain rfl := Except.ok.inj hr
  obtain ⟨v, -, hv⟩ := Option.bind_eq_some_iff.mp hi
  obtain ⟨C, -, hC⟩ := Option.bind_eq_some_iff.mp hv
  exact ⟨v, C, (Option.some.inj hC).symm⟩

theorem infer_pValues (estimates : Vec ℝ n) (freedom : Nat) (v : ℝ) (C : Mat ℝ n n) (c : Fin n) :
    (infer estimates freedom v C).pValues c =
      pValue freedom (estimates c / (infer estimates freedom v C).standardErrors c) :=
  (Vec.map_apply _ _ c).trans (congrArg (pValue freedom) (Vec.ofFn_apply _ c))

/-- The interval of an estimate. -/
theorem exists_confidence {r : Report ℝ m n} {i : Inference ℝ n} (hi : r.inference = some i)
    (level : ℝ) : ∃ lower upper, r.confidence level = some (lower, upper) ∧ ∀ c,
      (lower c, upper c) =
        interval (critical (m - n) level) (r.coefficients c) (i.standardErrors c) := by
  unfold confidence
  rw [hi]
  refine ⟨_, _, rfl, fun c => ?_⟩
  rw [Vec.ofFn_apply, Vec.ofFn_apply]

/-- **Headline.** In the report of an optimum, every estimate with a positive standard error has an
interval that agrees with its p value, at every level. -/
theorem confidence_agrees {optimum : Optimum ℝ m n} {names : Option (List String)} {name : String}
    {threshold : Number ℝ} {r : Report ℝ m n}
    (hr : ofOptimum optimum names name threshold = .ok r) {i : Inference ℝ n}
    (hi : r.inference = some i) (h : StudentT.IsLawful (m - n)) {c : Fin n}
    (hc : 0 < i.standardErrors c) {level : ℝ} (h0 : 0 < level) (h1 : level < 1) :
    ∃ lower upper, Agrees r i c level lower upper := by
  obtain ⟨lower, upper, hends, hinterval⟩ := exists_confidence hi level
  obtain ⟨hlower, hupper⟩ := Prod.mk.inj (hinterval c)
  obtain ⟨v, C, hinfer⟩ := exists_infer hr hi
  have hp : i.pValues c = pValue (m - n) (r.coefficients c / i.standardErrors c) := by
    rw [hinfer, infer_pValues]
  have hradius := mul_pos (critical_pos h h0 h1) hc
  refine ⟨lower, upper, hends, ?_, ?_, ?_, fun level' hlt h1' => ?_⟩
  · rw [hp, ← outside_iff h h0 h1 hc, ← hinterval]
  · rw [hlower, hupper]
    exact ⟨sub_lt_self _ hradius, lt_add_of_pos_right _ hradius⟩
  · rw [hlower, hupper]
    ring
  · obtain ⟨lower', upper', hends', hinterval'⟩ := exists_confidence hi level'
    obtain ⟨hlower', hupper'⟩ := Prod.mk.inj (hinterval' c)
    have hshorter := mul_lt_mul_of_pos_right (critical_lt h h0 hlt h1') hc
    refine ⟨lower', upper', hends', ?_, ?_⟩
    · rw [hlower, hlower']
      exact sub_lt_sub_left hshorter _
    · rw [hupper, hupper']
      exact add_lt_add_right hshorter _

/-! ## An example

The mean of `0` and `4`, which is one standard error away from zero. -/

omit [StudentT ℝ] in
/-- Half a turn is the whole range of the angle, so the tail is a distribution. -/
theorem oneFreedom_isLawful :
    let _ := Fit.oneFreedom
    StudentT.IsLawful 1 := by
  intro _
  have hhalf : (0.5 : ℝ) = 1 / 2 := by norm_num
  refine ⟨fun s t hst => ?_, fun t => ?_, fun q h0 h1 => ?_⟩
  · exact sub_lt_sub_left (div_lt_div_of_pos_right (Real.arctan_strictMono hst) Real.pi_pos) _
  · change 0.5 - Real.arctan (-t) / Real.pi = 1 - (0.5 - Real.arctan t / Real.pi)
    rw [Real.arctan_neg, neg_div, hhalf]
    ring
  · change 1 - (0.5 - Real.arctan (Real.tan (Real.pi * (q - 0.5))) / Real.pi) = q
    have hangle : Real.arctan (Real.tan (Real.pi * (q - 0.5))) = Real.pi * (q - 0.5) := by
      have hpi := Real.pi_pos
      refine Real.arctan_tan ?_ ?_ <;> rw [hhalf] <;> nlinarith
    rw [hangle, mul_div_cancel_left₀ _ Real.pi_ne_zero, hhalf]
    ring

/-- The mean. -/
noncomputable def meanEvaluation : Evaluation ℝ 2 1 where
  point := Vec.replicate 1 ((2 : Nat) : ℝ)
  residuals := Vec.ofFn fun i => ((![-2, 2] i : Int) : ℝ)
  jacobian := GaussNewton.ones

omit [StudentT ℝ] in
theorem confidence_agrees_mean :
    let _ := Fit.oneFreedom
    ∃ r i, ofOptimum ⟨meanEvaluation, 2, 2⟩ none "gauss-newton" Jacobian.defaultThreshold = .ok r ∧
      r.inference = some i ∧ StudentT.IsLawful (2 - 1) ∧ 0 < i.standardErrors 0 ∧
      ∃ lower upper, Agrees r i 0 0.75 lower upper := by
  intro _
  obtain ⟨l, hl⟩ : ∃ l, namesFor none 1 = (.ok l : Except (Failure ℝ) _) := exists_namesFor nofun
  obtain ⟨C, hC, -⟩ := Jacobian.exists_covariances (J := GaussNewton.ones)
    Jacobian.defaultThreshold_nonneg
    (Jacobian.defaultThreshold_lt_single Jacobian.one_le_gram_ones)
  have hvariance : Residuals.chiSquare meanEvaluation.residuals / ((2 : Nat) - (1 : Nat)) = 8 := by
    rw [Residuals.chiSquare, Exact.dot_eq]
    simp [meanEvaluation]
    norm_num
  have hr := ofOptimum_eq hl (by decide) hvariance hC 2 2 "gauss-newton"
  have hpos : 0 < C 0 0 := by
    obtain ⟨hpivots, rfl⟩ := Jacobian.covariances_eq_ok_iff.mp hC
    exact (Jacobian.isInverse_solved fun k => (hpivots k).2).diagonal_pos 0
  have herror : 0 < (infer meanEvaluation.point (2 - 1) 8 C).standardErrors 0 := by
    rw [infer_standardErrors]
    exact Real.sqrt_pos.mpr (mul_pos hpos (by norm_num))
  exact ⟨_, _, hr, rfl, oneFreedom_isLawful, herror,
    confidence_agrees hr rfl oneFreedom_isLawful herror (by norm_num) (by norm_num)⟩

end Report

end LeastSquares
