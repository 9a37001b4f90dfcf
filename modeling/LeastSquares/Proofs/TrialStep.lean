import LeastSquares.Proofs.Affine
import LeastSquares.Proofs.Damping

/-!
# What a trial of the trust-region method tries

The steps of a run in exact arithmetic, at the ranking threshold zero. `Sound e₀ bs s` is what holds
of every search of a run that began at `e₀` and whose outer iterations began at `bs`: its
decomposition is that of the Jacobian it stands on, its radius is positive and its scaling is the
running maximum of the column lengths.

Results:
* `Reached.sound`: every search of a run is such;
* `optimize_trialLaw`: every trial of every run tries the point that a step on the first pivot
  columns leads to, a solution of the normal equations with a parameter that is zero exactly if the
  undamped step fits into the region.
-/

namespace LeastSquares

variable {σ : Type} {m n : Nat}

/-- The length of a column. -/
noncomputable def Mat.columnLength (J : Mat ℝ m n) (c : Fin n) : ℝ := √(∑ i, J i c ^ 2)

namespace LevenbergMarquardt

open Decomposition

/-! ## Options -/

theorem value_nonneg {x : Number ℝ} (h : x.isNonnegative = true) : 0 ≤ x.value := by
  cases x with
  | int k =>
    obtain ⟨l, rfl⟩ := Int.eq_ofNat_of_zero_le (of_decide_eq_true h)
    exact Nat.cast_nonneg l
  | real x => exact of_decide_eq_true h

theorem value_pos {x : Number ℝ} (h : x.isPositive = true) : 0 < x.value := by
  cases x with
  | int k =>
    obtain ⟨l, rfl⟩ := Int.eq_ofNat_of_zero_le (of_decide_eq_true h).le
    exact Nat.cast_pos.mpr (Int.natCast_pos.mp (of_decide_eq_true h))
  | real x => exact of_decide_eq_true h

/-! ## The scaling -/

/-- The first scale of a column: its length, or one if that is zero. -/
noncomputable def firstScale (J : Mat ℝ m n) (c : Fin n) : ℝ :=
  if J.columnLength c = 0 then 1 else J.columnLength c

/-- The largest of the first scale of a column and of its lengths at the given evaluations. -/
noncomputable def scaleOver (e₀ : Evaluation ℝ m n) (bases : List (Evaluation ℝ m n))
    (c : Fin n) : ℝ :=
  (bases.map fun e => e.jacobian.columnLength c).foldl max (firstScale e₀.jacobian c)

theorem firstScale_pos (J : Mat ℝ m n) (c : Fin n) : 0 < firstScale J c := by
  unfold firstScale
  split_ifs with h
  · exact one_pos
  · exact lt_of_le_of_ne (Real.sqrt_nonneg _) (Ne.symm h)

theorem scaleOver_append (e₀ : Evaluation ℝ m n) (bs : List (Evaluation ℝ m n))
    (e : Evaluation ℝ m n) (c : Fin n) :
    scaleOver e₀ (bs ++ [e]) c = max (scaleOver e₀ bs c) (e.jacobian.columnLength c) := by
  unfold scaleOver
  rw [List.map_append, List.foldl_append]
  rfl

theorem scaleOver_pos (e₀ : Evaluation ℝ m n) (bs : List (Evaluation ℝ m n)) (c : Fin n) :
    0 < scaleOver e₀ bs c := by
  induction bs using List.reverseRecOn with
  | nil => exact firstScale_pos _ c
  | append_singleton bs e ih =>
    rw [scaleOver_append]
    exact lt_max_of_lt_left ih

/-! ## Searches -/

/-- The decomposition of a search is that of the Jacobian it stands on, up to what its trials wrote
where it is not read. -/
def Search.Decomposed (s : Search ℝ m n) : Prop :=
  ∃ d, ofJacobian s.base.jacobian 0 = .ok d ∧
    Represents (Nat.min_le_left m n) (Nat.min_le_right m n) s.base.jacobian s.base.residuals
      s.projected s.decomposition ∧
    s.decomposition.order = d.order ∧ s.decomposition.rank = d.rank

/-- **What holds of every search of a run**. -/
structure Sound (e₀ : Evaluation ℝ m n) (bs : List (Evaluation ℝ m n)) (s : Search ℝ m n) :
    Prop where
  base_eq : bs.getLast? = some s.base
  head_eq : bs.head? = some e₀
  point_eq : s.standing.point = s.base.point
  radius_pos : 0 < s.region.radius
  length_nonneg : 0 ≤ s.region.length
  scaling_eq : ∀ c, s.region.scaling c = scaleOver e₀ bs c
  decomposed : s.Decomposed

theorem ofDecomposition_decomposed {o : Options ℝ} {st : Standing ℝ m n} {rg : Region ℝ n}
    {d : Decomposition ℝ m n} (hd : ofJacobian st.evaluation.jacobian 0 = .ok d) :
    (Search.ofDecomposition o st rg d).Decomposed := by
  obtain ⟨d', hd', hf⟩ := exists_ofJacobian st.evaluation.jacobian (le_refl (0 : ℝ))
  obtain rfl := Except.ok.inj (hd'.symm.trans hd)
  exact ⟨d', hd, represents_writeDiagonal hf hf.rank_le _ _ _, rfl, rfl⟩

variable {o : Options ℝ} {e₀ : Evaluation ℝ m n} {bs : List (Evaluation ℝ m n)}
  {s s' : Search ℝ m n}

theorem ofColumnNorms_radius_pos {factor : ℝ} (hf : 0 < factor) (columnNorm point : Vec ℝ n) :
    0 < (Region.ofColumnNorms factor columnNorm point).radius := by
  change 0 < (if Region.lengthOf _ _ == 0 then _ else _)
  split_ifs with h0
  · exact hf
  · exact mul_pos hf (lt_of_le_of_ne (Exact.norm_nonneg _) fun h =>
      h0 ((Exact.beq_zero_iff _).mpr h.symm))

/-- The first outer iteration. -/
theorem first_sound (ht : o.rankingThreshold = 0) (hf : 0 < o.initialStepFactor)
    (hs : Search.start o (.ofEvaluation e₀) Region.initial = .ok s) : Sound e₀ [e₀] s := by
  obtain ⟨d, hd, rfl⟩ := Search.of_start_eq_ok hs
  rw [ht] at hd
  refine ⟨rfl, rfl, rfl, ofColumnNorms_radius_pos hf _ _, Exact.norm_nonneg _, fun c => ?_,
    ofDecomposition_decomposed hd⟩
  change Vec.ofFn _ c = max (firstScale e₀.jacobian c) (e₀.jacobian.columnLength c)
  rw [Vec.ofFn_apply, Exact.largest_eq]
  change max (d.columnNorm.map (fun s => if s == 0 then 1 else s) c) (d.columnNorm c) = _
  rw [Vec.map_apply, ofJacobian_columnNorm hd]
  unfold firstScale Mat.columnLength
  simp only [Exact.beq_zero_iff]
  rfl

/-- The largest number of those that are not skipped. -/
theorem le_foldl_larger {p : Nat} (f : Fin p → ℝ) (skip : Fin p → Bool) (k : Fin p)
    (hk : skip k = false) :
    f k ≤ Fin.foldl p (fun c l => if skip l then c else Scalar.largest c (f l)) 0 := by
  have hk' : ¬ skip k = true := hk ▸ Bool.false_ne_true
  have h := (Exact.le_foldl_max (fun l => ¬ skip l = true) f 0).2 k hk'
  simpa only [Exact.largest_eq, ite_not] using h

/-- No cosine between the residuals and a solved column is above the largest one. -/
theorem le_largestCosine (d : Decomposition ℝ m n) (projected : Vec ℝ m) {cost : ℝ}
    (hcost : cost ≠ 0) (k : Fin (min m n))
    (hk : d.columnNorm (d.order (k.castLE (Nat.min_le_right m n))) ≠ 0) :
    |d.gradient (Nat.min_le_left m n) (Nat.min_le_right m n) projected k| /
        (d.columnNorm (d.order (k.castLE (Nat.min_le_right m n))) * cost) ≤
      largestCosine d projected cost := by
  have hnorm : d.gather (Nat.min_le_right m n) d.columnNorm k =
      d.columnNorm (d.order (k.castLE (Nat.min_le_right m n))) := Vec.ofFn_apply _ k
  rw [← hnorm] at hk ⊢
  unfold largestCosine
  rw [if_neg fun h => hcost ((Exact.beq_zero_iff cost).mp h)]
  refine le_foldl_larger
    (fun k => Scalar.abs (d.gradient _ _ projected k) / (d.gather _ d.columnNorm k * cost))
    (fun k => d.gather _ d.columnNorm k == 0) k ?_
  exact Bool.eq_false_iff.mpr fun h => hk ((Exact.beq_zero_iff _).mp h)

theorem cost_eq (e : Evaluation ℝ m n) : e.cost = √(∑ i, e.residuals i ^ 2) := by
  change √(dot e.residuals e.residuals) = _
  rw [Exact.dot_eq]
  simp only [sq]

section Cosine

variable {e : Evaluation ℝ m n} {d : Decomposition ℝ m n} (hd : ofJacobian e.jacobian 0 = .ok d)

include hd

/-- What the test divides, and one factor of what it divides by. -/
theorem test_parts (k : Fin (min m n)) :
    |(d.writeDiagonal (min m n)).gradient (Nat.min_le_left m n) (Nat.min_le_right m n)
        (d.transposeApply e.residuals) k| =
      |∑ i, e.jacobian i (d.order (k.castLE (Nat.min_le_right m n))) * e.residuals i| ∧
    (d.writeDiagonal (min m n)).columnNorm (d.order (k.castLE (Nat.min_le_right m n))) =
      e.jacobian.columnLength (d.order (k.castLE (Nat.min_le_right m n))) := by
  have hf := factored_ofJacobian le_rfl hd
  constructor
  · rw [(represents_writeDiagonal hf hf.rank_le _ _ _).gradient_eq, abs_neg]
    rfl
  · exact ofJacobian_columnNorm hd _

/-- **The cosine of a solved column** is tested, if neither the column nor the residuals vanish. -/
theorem cosine_le (hcost : e.cost ≠ 0) (k : Fin (min m n))
    (hk : e.jacobian.columnLength (d.order (k.castLE (Nat.min_le_right m n))) ≠ 0) :
    |∑ i, e.jacobian i (d.order (k.castLE (Nat.min_le_right m n))) * e.residuals i| /
        (e.jacobian.columnLength (d.order (k.castLE (Nat.min_le_right m n))) * e.cost) ≤
      largestCosine (d.writeDiagonal (min m n)) (d.transposeApply e.residuals) e.cost := by
  obtain ⟨hproduct, hnorm⟩ := test_parts hd k
  have hle := le_largestCosine (d.writeDiagonal (min m n)) (d.transposeApply e.residuals) hcost k
    (hnorm.trans_ne hk)
  rw [hproduct] at hle
  change _ / ((d.writeDiagonal (min m n)).columnNorm (d.order _) * _) ≤ _ at hle
  rwa [hnorm] at hle

end Cosine

/-- The step of a search whose parameter is not negative. -/
theorem Sound.propose_spec (h : Sound e₀ bs s) (hl : 0 ≤ s.region.lambda) :
    0 ≤ s.propose.lambda ∧
      IsStep s.base.jacobian s.base.residuals s.region.scaling s.propose.lambda
        (s.decomposition.pivotColumns (min m n)) s.propose.step ∧
      (∃ x, IsUndamped s.base.jacobian s.base.residuals (s.decomposition.pivotColumns (min m n))
          (s.decomposition.pivotColumns s.decomposition.rank) x ∧
        (s.propose.lambda = 0 ↔
          Region.lengthOf s.region.scaling x ≤ 11 / 10 * s.region.radius) ∧
        (s.propose.lambda = 0 → s.propose.step = x)) ∧
      ({ s with decomposition := s.propose.decomposition } : Search ℝ m n).Decomposed := by
  obtain ⟨d, hd, hrep, horder, hrank⟩ := h.decomposed
  have hD (c : Fin n) : 0 < s.region.scaling c := h.scaling_eq c ▸ scaleOver_pos e₀ bs c
  obtain ⟨h₁, h₂, h₃, h₄⟩ := Decomposition.parameter_spec hrep hD h.radius_pos hl
  exact ⟨h₁, h₂.isStep, ⟨_, isUndamped hrep, h₃, fun h0 => congrArg (Vec.map (-·)) (h₄ h0)⟩, d, hd,
    h₂.represents, h₂.order_eq.trans horder, h₂.rank_eq.trans hrank⟩

theorem regionAfter_scaling (s : Search ℝ m n) (p : Proposal ℝ m n) (a : Assessment ℝ m n) :
    (s.regionAfter p a).scaling = s.region.scaling := by
  unfold Search.regionAfter
  split_ifs <;> rfl

theorem startRegion_eq (o : Options ℝ) (st : Standing ℝ m n) {rg : Region ℝ n}
    (hfresh : rg.fresh = false) (columnNorm : Vec ℝ n) :
    Search.startRegion o st rg columnNorm = rg := by
  rw [Search.startRegion, hfresh]
  rfl

/-- An accepted trial leaves a region that is not fresh. -/
theorem regionAfter_fresh {α : Type} [Scalar α] (s : Search α m n) (p : Proposal α m n)
    {a : Assessment α m n} (ha : a.isAccepted = true) : (s.regionAfter p a).fresh = false := by
  rw [Search.regionAfter]
  simp only [ha, if_true]

theorem regionAfter_length_nonneg (h : Sound e₀ bs s) (p : Proposal ℝ m n)
    (a : Assessment ℝ m n) : 0 ≤ (s.regionAfter p a).length := by
  unfold Search.regionAfter
  split_ifs
  · exact Exact.norm_nonneg _
  · exact h.length_nonneg

/-- A radius that is not negligible is positive. -/
theorem regionAfter_radius_pos (h : Sound e₀ bs s) (hp : 0 ≤ o.parameterTolerance)
    {e : Evaluation ℝ m n} (hr : s.RadiusRemains o e) :
    0 < (s.regionAfter s.propose (s.assess s.propose e)).radius :=
  lt_of_le_of_lt (mul_nonneg hp (regionAfter_length_nonneg h _ _)) (not_le.mp hr)

/-- Another trial of the same outer iteration. -/
theorem Sound.retry (h : Sound e₀ bs s) (hl : 0 ≤ s.region.lambda) (hp : 0 ≤ o.parameterTolerance)
    {e : Evaluation ℝ m n} {v : Option Bool} (hn : s.outcome o e v = .retry s') :
    Sound e₀ bs s' := by
  obtain ⟨hr, hlt, rfl⟩ := Search.of_outcome_eq_retry hn
  have ha : (s.assess s.propose e).isAccepted = false := decide_eq_false (not_le.mpr hlt)
  obtain ⟨-, -, -, hdec⟩ := h.propose_spec hl
  refine ⟨h.base_eq, h.head_eq, ?_, regionAfter_radius_pos h hp hr,
    regionAfter_length_nonneg h _ _, fun c => ?_, hdec⟩
  · change (s.standingAfter (s.assess s.propose e)).point = s.base.point
    rw [Search.standingAfter, ha]
    exact h.point_eq
  · change (s.regionAfter _ _).scaling c = _
    rw [regionAfter_scaling, h.scaling_eq]

/-- The next outer iteration. -/
theorem Sound.renew (h : Sound e₀ bs s) (hp : 0 ≤ o.parameterTolerance)
    (ht : o.rankingThreshold = 0) {e : Evaluation ℝ m n} {v : Option Bool} {st : Standing ℝ m n}
    {rg : Region ℝ n} (hn : s.outcome o e v = .renew st rg)
    (hs : Search.start o st rg = .ok s') : Sound e₀ (bs ++ [st.evaluation]) s' := by
  obtain ⟨hr, hlt, rfl, rfl⟩ := Search.of_outcome_eq_renew hn
  have ha : (s.assess s.propose e).isAccepted = true := decide_eq_true (not_lt.mp hlt)
  obtain ⟨d, hd, rfl⟩ := Search.of_start_eq_ok hs
  rw [ht] at hd
  -- a trial was accepted, so the scaling is kept and only widened
  have hfresh := regionAfter_fresh s s.propose ha
  have hregion := startRegion_eq o (s.standingAfter (s.assess s.propose e)) hfresh d.columnNorm
  have hhead : (bs ++ [(s.standingAfter (s.assess s.propose e)).evaluation]).head? = some e₀ := by
    rw [List.head?_append, h.head_eq]
    rfl
  refine ⟨List.getLast?_concat, hhead, ?_, ?_, ?_, fun c => ?_, ofDecomposition_decomposed hd⟩
  · change (s.standingAfter _).point = (s.standingAfter _).evaluation.point
    rw [Search.standingAfter, ha]
    rfl
  · change 0 < (Search.startRegion ..).radius
    rw [hregion]
    exact regionAfter_radius_pos h hp hr
  · change 0 ≤ (Search.startRegion ..).length
    rw [hregion]
    exact regionAfter_length_nonneg h _ _
  · change Vec.ofFn _ c = _
    rw [Vec.ofFn_apply, Exact.largest_eq, hregion, regionAfter_scaling, h.scaling_eq,
      scaleOver_append, ofJacobian_columnNorm hd]
    rfl

/-- **Every search of a run** is sound. -/
theorem Reached.sound (ht : o.rankingThreshold = 0) (hf : 0 < o.initialStepFactor)
    (hp : 0 ≤ o.parameterTolerance) (h : Reached o e₀ bs s) : Sound e₀ bs s := by
  induction h with
  | first hs => exact first_sound ht hf hs
  | retried h hn ih => exact ih.retry (h.signed Exact.signRule hf.le).2 hp hn
  | renewed h hn hs ih => exact ih.renew hp ht hn hs

/-! ## Trials -/

/-- **The law of a trial** of a run whose outer iterations began at `bases`. -/
structure TrialLaw (P : Problem σ ℝ m n) (bases : List (Evaluation ℝ m n)) (t : Trial ℝ m n) :
    Prop where
  iteration_pos : 1 ≤ t.iteration
  /-- It stands on the evaluation at which its outer iteration began. -/
  base_eq : bases[t.iteration - 1]? = some t.search.base
  point_eq : ∀ c, t.proposal.point c = t.search.base.point c + t.proposal.step c
  /-- An evaluation that was made is one of the problem at the point. -/
  made : ∀ a v, t.progress = .made a v →
    ∃ w w', (P.evaluation t.proposal.point).after w = (.ok a.evaluation, w')
  /-- An evaluation that failed is one of the problem at the point. -/
  failed : t.progress = .failed →
    ∃ f w w', (P.evaluation t.proposal.point).after w = (.error f, w')
  lambda_nonneg : 0 ≤ t.proposal.lambda
  /-- The step on the first `min m n` pivot columns, and the one undamped step, which is the step
  itself exactly if it fits into the region. -/
  step : ∃ d, ofJacobian t.search.base.jacobian 0 = .ok d ∧
    IsStep t.search.base.jacobian t.search.base.residuals t.search.region.scaling t.proposal.lambda
      (d.pivotColumns (min m n)) t.proposal.step ∧
    ∃ x, (∀ x', IsUndamped t.search.base.jacobian t.search.base.residuals
        (d.pivotColumns (min m n)) (d.pivotColumns d.rank) x' ↔ x' = x) ∧
      (t.proposal.lambda = 0 ↔
        Region.lengthOf t.search.region.scaling x ≤ 11 / 10 * t.search.region.radius) ∧
      (t.proposal.lambda = 0 → t.proposal.step = x)
  /-- The scaling is the largest of the first one and of the column lengths up to now. -/
  scaling_eq : ∃ e₀, bases.head? = some e₀ ∧
    ∀ c, t.search.region.scaling c = scaleOver e₀ (bases.take t.iteration) c

theorem pivotColumns_congr {d d' : Decomposition ℝ m n} (h : d.order = d'.order) (k : Nat) :
    d.pivotColumns k = d'.pivotColumns k := by
  unfold pivotColumns
  rw [h]

/-- A trial at a sound search obeys the law. -/
theorem Trial.At.law {P : Problem σ ℝ m n} {bases : List (Evaluation ℝ m n)} {t : Trial ℝ m n}
    (hat : t.At o P e₀ bs) (hb : bs <+: bases) (h : Sound e₀ bs t.search)
    (hl : 0 ≤ t.search.region.lambda) : TrialLaw P bases t := by
  have hlen : 1 ≤ bs.length := by
    refine List.length_pos_of_ne_nil fun h0 => ?_
    have hhead := h.head_eq
    rw [h0] at hhead
    cases hhead
  have htake : bases.take t.iteration = bs :=
    hat.iteration_eq ▸ (List.prefix_iff_eq_take.mp hb).symm
  obtain ⟨hlambda, hstep, ⟨x, hund, hiff, hzero⟩, -⟩ := h.propose_spec hl
  obtain ⟨d, hd, hrep, horder, hrank⟩ := h.decomposed
  -- the trials of an outer iteration keep the pivots of its decomposition
  have hpivots (k : Nat) : t.search.decomposition.pivotColumns k = d.pivotColumns k :=
    pivotColumns_congr horder k
  refine
    { iteration_pos := hat.iteration_eq ▸ hlen
      base_eq := ?_
      point_eq := ?_
      made := ?_
      failed := hat.failed
      lambda_nonneg := hat.proposal_eq ▸ hlambda
      step := ⟨d, hd, ?_, x, ?_, ?_, ?_⟩
      scaling_eq := ⟨e₀, ?_, ?_⟩ }
  · obtain ⟨rest, rfl⟩ := hb
    rw [hat.iteration_eq, ← h.base_eq, List.getLast?_eq_getElem?,
      List.getElem?_append_left (by omega)]
  · intro c
    rw [hat.proposal_eq, ← h.point_eq]
    exact Vec.ofFn_apply _ c
  · intro a v ha
    obtain ⟨e, w, w', he, rfl⟩ := hat.made a v ha
    exact ⟨w, w', he⟩
  · rw [hat.proposal_eq, ← hpivots]
    exact hstep
  · intro x'
    rw [← hpivots, ← hpivots, ← hrank]
    constructor
    · intro hx
      exact isUndamped_unique hrep hx hund
    · rintro rfl
      exact hund
  · rw [hat.proposal_eq]
    exact hiff
  · rw [hat.proposal_eq]
    exact hzero
  · obtain ⟨rest, rfl⟩ := hb
    rw [List.head?_append, h.head_eq]
    rfl
  · intro c
    rw [htake]
    exact h.scaling_eq c

/-- **Headline.** With options that are accepted and the ranking threshold zero, every trial of
every run obeys the law. -/
theorem optimize_trialLaw {given : Options (Setting ℝ)} {o : Options (Number ℝ)}
    (hc : Options.check given = .ok o) (ht : o.values.rankingThreshold = 0)
    (P : Problem σ ℝ m n) (w : σ) :
    ∀ t ∈ (optimize o P w).trials, TrialLaw P (optimize o P w).bases t := by
  intro t htrial
  obtain ⟨hfactor, hbounded⟩ := Options.of_check_eq_ok hc
  have hf : 0 < o.values.initialStepFactor := value_pos hfactor
  have hp : 0 ≤ o.values.parameterTolerance :=
    value_nonneg (hbounded (.parameterTolerance, _) (by simp [Options.bounded]))
  obtain ⟨e₀, bs, -, hb, hat⟩ := (courses_optimize o P w).reached htrial
  exact hat.law hb (hat.reached.sound ht hf hp) (hat.reached.signed Exact.signRule hf.le).2

/-- What is known of the line at its start point. -/
noncomputable def lineStart : Evaluation ℝ 1 1 :=
  ⟨Vec.replicate 1 0, Vec.replicate 1 1, Mat.ofFn fun _ _ => 1⟩

theorem lineAt_start : lineAt (lineProblem ℝ).start = lineStart := by
  have hresiduals : (Vec.ofFn fun i => (1 : ℝ) - (lineProblem ℝ).start i) = Vec.replicate 1 1 := by
    ext i
    simp [lineProblem, Vec.replicate_apply]
  unfold lineAt
  rw [hresiduals]
  rfl

/-- A residual of one and a column of one point in one direction. -/
theorem one_le_maxCosine {e : Evaluation ℝ 1 1} (hJ : e.jacobian 0 0 = 1)
    (hr : e.residuals 0 = 1) {d : Decomposition ℝ 1 1} (hd : ofJacobian e.jacobian 0 = .ok d)
    (o : Options ℝ) (rg : Region ℝ 1) :
    1 ≤ (Search.ofDecomposition o (.ofEvaluation e) rg d).maxCosine := by
  have hcost : e.cost = 1 := by
    rw [cost_eq]
    simp [hr]
  have hlength (c : Fin 1) : e.jacobian.columnLength c = 1 := by
    unfold Mat.columnLength
    simp [Subsingleton.elim c 0, hJ]
  have hle := cosine_le hd (hcost.trans_ne one_ne_zero) ⟨0, Nat.one_pos⟩
    ((hlength _).trans_ne one_ne_zero)
  rw [hlength, hcost, mul_one, div_one] at hle
  refine le_of_eq_of_le ?_ (hle.trans_eq (congrArg (largestCosine _ _) hcost.symm))
  simp [Subsingleton.elim (d.order _) 0, hJ, hr]

theorem line_cosine {d : Decomposition ℝ 1 1} (hd : ofJacobian lineStart.jacobian 0 = .ok d) :
    ¬ (Search.ofDecomposition (exactOptions ℝ).values (.ofEvaluation lineStart) Region.initial
      d).maxCosine ≤ (exactOptions ℝ).values.orthogonalityTolerance := by
  have htolerance : (exactOptions ℝ).values.orthogonalityTolerance = 0 := Nat.cast_zero
  rw [htolerance, not_le]
  exact one_pos.trans_le (one_le_maxCosine (Mat.ofFn_apply _ 0 0) (Vec.replicate_apply _ 0) hd _ _)

/-- So a first trial is made and judged. -/
theorem exists_line_assessed : ∃ t ∈ (optimize (exactOptions ℝ) (lineProblem ℝ) ()).trials,
    ∃ a v, t.progress = .made a v := by
  obtain ⟨d, hd, -⟩ := exists_ofJacobian lineStart.jacobian (le_refl (0 : ℝ))
  have hs : Search.start (exactOptions ℝ).values (.ofEvaluation lineStart) Region.initial =
      .ok (Search.ofDecomposition (exactOptions ℝ).values (.ofEvaluation lineStart)
        Region.initial d) := by
    have hthreshold : (exactOptions ℝ).values.rankingThreshold = 0 := Nat.cast_zero
    rw [Search.start_eq, hthreshold]
    change (ofJacobian lineStart.jacobian 0).map _ = _
    rw [hd]
    rfl
  have he := line_evaluation (lineProblem ℝ).start
  rw [lineAt_start] at he
  obtain ⟨v, hhead⟩ := exists_first_trial (by decide) (by decide) he rfl hs (line_cosine hd)
    (line_evaluation _)
  exact ⟨_, List.mem_of_head? hhead, _, v, rfl⟩

theorem exists_line_trial : ∃ t, t ∈ (optimize (exactOptions ℝ) (lineProblem ℝ) ()).trials := by
  obtain ⟨t, ht, -⟩ := exists_line_assessed
  exact ⟨t, ht⟩

/-! ### A step that is too long

The points of the plane as the model, with the observations `3` and `4`, from `0` on. The undamped
step leads straight to them, and is five times as long as the first radius. -/

/-- The problem of the plane. Two evaluations and one outer iteration are allowed. -/
noncomputable def planeProblem : Problem Unit ℝ 2 2 where
  model := affineModel Mat.identity (Vec.replicate 2 0)
  target := Vec.ofFn fun i => ((![3, 4] i : Nat) : ℝ)
  start := Vec.replicate 2 0
  weight := none
  checker := none
  maxEvaluations := 2
  maxIterations := 1
  deferred := false
  validator := none

/-- Options without any tolerance, and the first radius one. -/
def shortOptions : Options (Number ℝ) := { exactOptions ℝ with initialStepFactor := .int 1 }

/-- The plane at a point. -/
noncomputable def planeAt (p : Vec ℝ 2) : Evaluation ℝ 2 2 :=
  ⟨p, planeProblem.residuals (Mat.identity.affine (Vec.replicate 2 0) p),
    planeProblem.jacobian Mat.identity⟩

theorem plane_evaluation (p : Vec ℝ 2) :
    (planeProblem.evaluation p).after () = (.ok (planeAt p), ()) := by
  obtain ⟨_, he⟩ := (affineModel_isAffine Mat.identity Nat.two_pos (Vec.replicate 2 0)).evaluation
    (P := planeProblem) rfl p ()
  exact he

theorem planeAt_jacobian (p : Vec ℝ 2) (i j : Fin 2) :
    (planeAt p).jacobian i j = if i = j then 1 else 0 := Mat.ofFn_apply _ i j

theorem planeAt_residuals (i : Fin 2) : (planeAt planeProblem.start).residuals i =
    ((![3, 4] i : Nat) : ℝ) := by
  simp [planeAt, Problem.residuals, planeProblem, Mat.affine, Mat.mulVec_apply, Exact.sum_eq,
    Mat.identity, Vec.replicate_apply]

theorem planeAt_moment (c : Fin 2) : ∑ i, (planeAt planeProblem.start).jacobian i c *
    (planeAt planeProblem.start).residuals i = ((![3, 4] c : Nat) : ℝ) := by
  simp only [planeAt_jacobian, ite_mul, one_mul, zero_mul, Finset.sum_ite_eq', Finset.mem_univ,
    if_true, planeAt_residuals]

theorem planeAt_columnLength (c : Fin 2) :
    (planeAt planeProblem.start).jacobian.columnLength c = 1 := by
  unfold Mat.columnLength
  simp only [planeAt_jacobian, ite_pow, one_pow, zero_pow two_ne_zero, Finset.sum_ite_eq',
    Finset.mem_univ, if_true, Real.sqrt_one]

theorem planeAt_cost : (planeAt planeProblem.start).cost = 5 := by
  rw [cost_eq, Real.sqrt_eq_iff_mul_self_eq_of_pos (by norm_num), Fin.sum_univ_two,
    planeAt_residuals, planeAt_residuals]
  norm_num

/-- **The first search of the plane**, with the region of radius one. -/
theorem exists_plane_search : ∃ s,
    Search.start shortOptions.values (.ofEvaluation (planeAt planeProblem.start))
        Region.initial = .ok s ∧
      ¬ s.maxCosine ≤ shortOptions.values.orthogonalityTolerance ∧
      s.base = planeAt planeProblem.start ∧ s.region.radius = 1 ∧ ∀ c, s.region.scaling c = 1 := by
  obtain ⟨d, hd, -⟩ := exists_ofJacobian (planeAt planeProblem.start).jacobian (le_refl (0 : ℝ))
  have hthreshold : shortOptions.values.rankingThreshold = 0 := Nat.cast_zero
  have htolerance : shortOptions.values.orthogonalityTolerance = 0 := Nat.cast_zero
  have hnorm (c : Fin 2) : d.columnNorm c = 1 :=
    (ofJacobian_columnNorm hd c).trans (planeAt_columnLength c)
  have hscaling (c : Fin 2) : (d.columnNorm.map fun s => if s == 0 then 1 else s) c = 1 := by
    rw [Vec.map_apply, hnorm, if_neg fun h => one_ne_zero ((Exact.beq_zero_iff _).mp h)]
  have hlength : Region.lengthOf (d.columnNorm.map fun s => if s == 0 then 1 else s)
      planeProblem.start = 0 := by
    rw [Region.lengthOf, Exact.norm_eq]
    simp [Damped.scaled, planeProblem, Vec.replicate_apply]
  refine ⟨Search.ofDecomposition shortOptions.values (.ofEvaluation (planeAt planeProblem.start))
    Region.initial d, ?_, ?_, rfl, ?_, fun c => ?_⟩
  · rw [Search.start_eq, hthreshold]
    change (ofJacobian (planeAt planeProblem.start).jacobian 0).map _ = _
    rw [hd]
    rfl
  · rw [htolerance, not_le]
    -- whichever column is the first pivot, its cosine is one of `3 / 5` and `4 / 5`
    have hle := cosine_le hd (planeAt_cost.trans_ne (by norm_num)) ⟨0, Nat.two_pos⟩
      ((planeAt_columnLength _).trans_ne one_ne_zero)
    rw [planeAt_columnLength, planeAt_moment, one_mul] at hle
    refine lt_of_lt_of_le (div_pos (abs_pos.mpr ?_) (planeAt_cost ▸ by norm_num)) hle
    generalize d.order _ = c
    fin_cases c <;> norm_num
  · change (if Region.lengthOf _ planeProblem.start == 0 then _ else _) = _
    rw [hlength, if_pos ((Exact.beq_zero_iff _).mpr rfl)]
    exact Nat.cast_one
  · change (Vec.ofFn fun c => Scalar.largest ((d.columnNorm.map fun s => if s == 0 then 1 else s) c)
      (d.columnNorm c)) c = 1
    rw [Vec.ofFn_apply, hscaling, hnorm, Exact.largest_eq, max_self]

/-- An undamped step from its start point is of length five. -/
theorem plane_length {D x : Vec ℝ 2} (hD : ∀ c, D c = 1)
    (hx : IsStep (planeAt planeProblem.start).jacobian (planeAt planeProblem.start).residuals D 0
      Finset.univ x) : Region.lengthOf D x = 5 := by
  have hentry (c : Fin 2) : x c = ((![3, 4] c : Nat) : ℝ) := by
    have hnormal := hx.normal c (Finset.mem_univ c)
    rw [planeAt_moment] at hnormal
    simpa [planeAt_jacobian] using hnormal
  rw [Region.lengthOf, Exact.norm_eq, Real.sqrt_eq_iff_mul_self_eq_of_pos (by norm_num),
    Fin.sum_univ_two]
  simp only [Damped.scaled, Vec.ofFn_apply, hD, hentry]
  norm_num

/-- **A damped trial** of two parameters is made, and judged. -/
theorem exists_plane_trial : ∃ t ∈ (optimize shortOptions planeProblem ()).trials,
    t.proposal.lambda ≠ 0 ∧ ∃ a v, t.progress = .made a v := by
  obtain ⟨s, hs, hcosine, hbase, hradius, hscaling⟩ := exists_plane_search
  obtain ⟨v, hhead⟩ := exists_first_trial (by decide) (by decide) (plane_evaluation _) rfl hs
    hcosine (plane_evaluation _)
  refine ⟨_, List.mem_of_head? hhead, fun h0 => ?_, _, v, rfl⟩
  have h0 : s.propose.lambda = 0 := h0
  have hfactor : 0 < shortOptions.values.initialStepFactor := Nat.cast_pos.mpr one_pos
  have hsound := first_sound Nat.cast_zero hfactor hs
  have hlambda := ((Reached.first hs).signed Exact.signRule hfactor.le).2
  obtain ⟨-, hstep, ⟨x, -, hfits, hundamped⟩, -⟩ := hsound.propose_spec hlambda
  obtain ⟨d, hd, -, horder, -⟩ := hsound.decomposed
  have hall : s.decomposition.pivotColumns (min 2 2) = Finset.univ :=
    Finset.eq_univ_of_forall fun c => (mem_pivotColumns
      (horder ▸ (factored_ofJacobian le_rfl hd).order)).mpr (s.decomposition.pivotOf c).isLt
  rw [hbase, h0, hall] at hstep
  have hlength := hfits.mp h0
  rw [← hundamped h0, plane_length hscaling hstep, hradius] at hlength
  norm_num at hlength

theorem optimize_trialLaw_plane :
    Options.check (shortOptions.map Setting.number) = .ok shortOptions ∧
      shortOptions.values.rankingThreshold = 0 ∧
      ∃ t ∈ (optimize shortOptions planeProblem ()).trials, t.proposal.lambda ≠ 0 ∧
        TrialLaw planeProblem (optimize shortOptions planeProblem ()).bases t := by
  obtain ⟨t, ht, hdamped, -⟩ := exists_plane_trial
  have hc : Options.check (shortOptions.map Setting.number) = .ok shortOptions := rfl
  have hz : shortOptions.values.rankingThreshold = 0 := Nat.cast_zero
  exact ⟨hc, hz, t, ht, hdamped, optimize_trialLaw hc hz planeProblem () t ht⟩

end LevenbergMarquardt

end LeastSquares
