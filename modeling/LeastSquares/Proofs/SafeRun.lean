import LeastSquares.Proofs.Descent
import LeastSquares.Proofs.SafeTrial

/-!
# Safety of the trust-region method

Runs in an arithmetic that contains the real numbers and says nothing of a quotient by zero or of
the root of a negative number. The evaluations that a run accepts are real; those of the trials
that it rejects may be anything. Then every search of the run is that of exact arithmetic, with a
positive radius, a parameter that is not negative and positive scaling that never shrinks.

Results:
* `Search.Safe.retry`, `Search.Safe.renew`, `Begins.safe`: a step leads to a safe search;
* `Runs.safe`: every run is followed by searches in exact arithmetic;
* `optimize_safe`: so is every course with options that are accepted.
-/

namespace LeastSquares.LevenbergMarquardt

open Decomposition

variable {σ β : Type} {m n : Nat} [Scalar β] {ι : ℝ → β}

/-! ## Options -/

/-- Options within their bounds. -/
structure Options.Bounds (o : Options ℝ) : Prop where
  factor_pos : 0 < o.initialStepFactor
  parameter_nonneg : 0 ≤ o.parameterTolerance
  orthogonality_nonneg : 0 ≤ o.orthogonalityTolerance
  threshold_nonneg : 0 ≤ o.rankingThreshold

section Options

variable (h : Extends ι)

include h

theorem map_ofInt (k : Int) : (Scalar.ofInt k : β) = ι (Scalar.ofInt k) := by
  cases k with
  | ofNat k => exact (h.natCast k).symm
  | negSucc k =>
    change -((k + 1 : Nat) : β) = ι (-((k + 1 : Nat) : ℝ))
    rw [h.neg, h.natCast]

/-- A number with a real value passes the tests that its value passes. -/
theorem exists_number {x : Number β} {y : ℝ} (hy : x.value = ι y) : ∃ z : Number ℝ,
    z.value = y ∧ z.isNonnegative = x.isNonnegative ∧ z.isPositive = x.isPositive := by
  cases x with
  | int k => exact ⟨.int k, (h.eq_iff _ _).mp ((map_ofInt h k).symm.trans hy), rfl, rfl⟩
  | real x =>
    obtain rfl : x = ι y := hy
    refine ⟨.real y, rfl, ?_, ?_⟩
    · simp only [Number.isNonnegative, ← h.zero, h.le_iff]
    · simp only [Number.isPositive, ← h.zero, h.lt_iff]

/-- Options that are accepted, with real values, are within their bounds. -/
theorem bounds_of_check {given : Options (Setting β)} {o : Options (Number β)}
    (hc : Options.check given = .ok o) {o' : Options ℝ} (ho : o.values = o'.map ι) :
    o'.Bounds := by
  obtain ⟨hfactor, hbounded⟩ := Options.of_check_eq_ok hc
  have hvalue {x : Bounded × Number β} (hx : x ∈ o.bounded) {y : ℝ} (hy : x.2.value = ι y) :
      0 ≤ y := by
    obtain ⟨z, rfl, hz, -⟩ := exists_number h hy
    exact value_nonneg (hz.trans (hbounded x hx))
  exact {
    factor_pos := by
      obtain ⟨z, hz, -, hpos⟩ := exists_number h (congrArg Options.initialStepFactor ho)
      exact hz ▸ value_pos (hpos.trans hfactor)
    parameter_nonneg := hvalue (x := (.parameterTolerance, _)) (by simp [Options.bounded])
      (congrArg Options.parameterTolerance ho)
    orthogonality_nonneg := hvalue (x := (.orthogonalityTolerance, _)) (by simp [Options.bounded])
      (congrArg Options.orthogonalityTolerance ho)
    threshold_nonneg := hvalue (x := (.rankingThreshold, _)) (by simp [Options.bounded])
      (congrArg Options.rankingThreshold ho) }

end Options

/-- Real options that are accepted are within their bounds. -/
theorem Options.bounds {given : Options (Setting ℝ)} {o : Options (Number ℝ)}
    (hc : Options.check given = .ok o) : o.values.Bounds :=
  bounds_of_check Exact.extends_id hc rfl

/-! ## The beginning of an outer iteration -/

/-- A largest cosine beyond a tolerance: neither the cost nor the gradient is zero. -/
theorem ne_of_largestCosine {d : Decomposition ℝ m n} {projected : Vec ℝ m} {cost tolerance : ℝ}
    (ht : 0 ≤ tolerance) (hc : ¬ largestCosine d projected cost ≤ tolerance) :
    cost ≠ 0 ∧ ∃ k, d.gradient (Nat.min_le_left m n) (Nat.min_le_right m n) projected k ≠ 0 := by
  constructor
  · rintro rfl
    have hzero : largestCosine d projected 0 = 0 := if_pos ((Exact.beq_zero_iff 0).mpr rfl)
    exact hc (hzero.le.trans ht)
  · by_contra hall
    have hgradient (k) : d.gradient (Nat.min_le_left m n) (Nat.min_le_right m n) projected k = 0 :=
      not_not.mp fun hk => hall ⟨k, hk⟩
    refine hc (le_of_eq_of_le ?_ ht)
    unfold largestCosine
    split_ifs
    · rfl
    · rw [Fin.foldl_eq_finRange_foldl]
      refine List.foldl_fixed' (fun k => ?_) _
      rw [hgradient k, Exact.largest_eq]
      simp [Scalar.abs]

variable {o : Options ℝ} {st : Standing ℝ m n} {rg : Region ℝ n} {d : Decomposition ℝ m n}

theorem widenScaling_le (r : Region ℝ n) (columnNorm : Vec ℝ n) (c : Fin n) :
    r.scaling c ≤ (r.widenScaling columnNorm).scaling c := by
  change _ ≤ Vec.ofFn _ c
  rw [Vec.ofFn_apply, Exact.largest_eq]
  exact le_max_left _ _

/-- A column that is not zero scales its parameter at first. -/
theorem firstScaling_apply {columnNorm : Vec ℝ n} {c : Fin n} (h : columnNorm c ≠ 0) :
    (columnNorm.map fun s => if s == 0 then 1 else s) c = columnNorm c := by
  rw [Vec.map_apply, if_neg fun h0 => h ((Exact.beq_zero_iff _).mp h0)]

/-- **The first region** for a column of one, from `0` or `1` on. -/
theorem first_region {columnNorm : Vec ℝ 1} (hnorm : columnNorm 0 = 1) (o : Options ℝ)
    {s : Standing ℝ 1 1} (hpoint : s.point 0 = 0 ∨ s.point 0 = 1) :
    let rg := (Search.startRegion o s Region.initial columnNorm).widenScaling columnNorm
    rg.radius = o.initialStepFactor ∧ rg.length = s.point 0 ∧ rg.scaling 0 = 1 ∧
      rg.fresh = true := by
  have hscaling : (columnNorm.map fun x => if x == 0 then 1 else x) 0 = 1 :=
    (firstScaling_apply (hnorm.trans_ne one_ne_zero)).trans hnorm
  have hlength : Region.lengthOf (columnNorm.map fun x => if x == 0 then 1 else x) s.point =
      s.point 0 := by
    rw [Region.lengthOf, Exact.norm_single, Damped.scaled, Vec.ofFn_apply, hscaling, one_mul]
    rcases hpoint with h0 | h0 <;> rw [h0]
    · exact abs_zero
    · exact abs_one
  refine ⟨?_, hlength, ?_, rfl⟩
  · change (if Region.lengthOf _ s.point == 0 then o.initialStepFactor else
      o.initialStepFactor * Region.lengthOf _ s.point) = _
    rw [hlength]
    rcases hpoint with h0 | h0 <;> rw [h0]
    · exact if_pos ((Exact.beq_zero_iff _).mpr rfl)
    · rw [if_neg fun h => one_ne_zero ((Exact.beq_zero_iff _).mp h), mul_one]
  · change (Vec.ofFn fun c => Scalar.largest ((columnNorm.map fun x => if x == 0 then 1 else x) c)
      (columnNorm c)) 0 = 1
    rw [Vec.ofFn_apply, hscaling, hnorm, Exact.largest_eq, max_self]

/-- The region of an outer iteration: made of the column norms if it is fresh. -/
theorem startRegion_safe (ho : o.Bounds) (hl : 0 ≤ rg.lambda) (hrg : rg.fresh = false → rg.Safe)
    {columnNorm : Vec ℝ n} (hn : ∀ c, 0 ≤ columnNorm c) :
    (Search.startRegion o st rg columnNorm).Safe := by
  unfold Search.startRegion
  split_ifs with hfresh
  · refine ⟨ofColumnNorms_radius_pos ho.factor_pos _ _, hl, Exact.norm_nonneg _, fun c => ?_⟩
    change 0 < (columnNorm.map fun s => if s == 0 then 1 else s) c
    rw [Vec.map_apply]
    split_ifs with h0
    · exact one_pos
    · exact lt_of_le_of_ne (hn c) fun h => h0 ((Exact.beq_zero_iff _).mpr h.symm)
  · exact hrg ((Bool.not_eq_true _).mp hfresh)

theorem ofDecomposition_region (ho : o.Bounds) (hl : 0 ≤ rg.lambda)
    (hrg : rg.fresh = false → rg.Safe)
    (hd : ofJacobian st.evaluation.jacobian o.rankingThreshold = .ok d) :
    (Search.ofDecomposition o st rg d).region.Safe := by
  have hnorm (c : Fin n) : 0 ≤ d.columnNorm c := by
    rw [ofJacobian_columnNorm hd]
    exact Real.sqrt_nonneg _
  have hr : (Search.startRegion o st rg d.columnNorm).Safe := startRegion_safe ho hl hrg hnorm
  exact ⟨hr.radius_pos, hr.lambda_nonneg, hr.length_nonneg, fun c =>
    (hr.scaling_pos c).trans_le (widenScaling_le _ _ c)⟩

/-- The scaling of an outer iteration that does not begin a run. -/
theorem le_ofDecomposition_scaling (hfresh : rg.fresh = false) (c : Fin n) :
    rg.scaling c ≤ (Search.ofDecomposition o st rg d).region.scaling c := by
  change _ ≤ ((Search.startRegion o st rg d.columnNorm).widenScaling d.columnNorm).scaling c
  rw [startRegion_eq o st hfresh]
  exact widenScaling_le rg d.columnNorm c

/-- **An outer iteration begins at a real evaluation**: its decomposition is that of exact
arithmetic, with a diagonal of `R` that has no zero up to the rank, and so is its first search. -/
structure Begins (ι : ℝ → β) (o : Options ℝ) (e : Evaluation β m n) (e' : Evaluation ℝ m n)
    (d : Decomposition ℝ m n) : Prop where
  evaluation_eq : e = e'.map ι
  exact_eq : ofJacobian e'.jacobian o.rankingThreshold = .ok d
  factored : Factored e'.jacobian o.rankingThreshold d
  decomposition_eq : ofJacobian e.jacobian (ι o.rankingThreshold) = .ok (d.map ι)
  diagonal_ne : ∀ k : Fin n, k.val < d.rank → d.diagonal k ≠ 0
  start_eq : ∀ rg : Region ℝ n, Search.start (o.map ι) (.ofEvaluation e) (rg.map ι) =
    .ok ((Search.ofDecomposition o (.ofEvaluation e') rg d).map ι)

variable {e : Evaluation β m n} {e' : Evaluation ℝ m n}

theorem map_ofEvaluation (h : Extends ι) (e' : Evaluation ℝ m n) :
    Standing.ofEvaluation (e'.map ι) = (Standing.ofEvaluation e').map ι := by
  unfold Standing.ofEvaluation Standing.map
  rw [cost_map h]
  rfl

/-- An outer iteration that begins in exact arithmetic begins alike in any that contains it. -/
theorem start_map_of_ok (h : Extends ι) (ht : 0 ≤ o.rankingThreshold) {s : Search ℝ m n}
    (hs : Search.start o (.ofEvaluation e') rg = .ok s) :
    Search.start (o.map ι) (.ofEvaluation (e'.map ι)) (rg.map ι) = .ok (s.map ι) := by
  obtain ⟨d, hd, rfl⟩ := Search.of_start_eq_ok hs
  rw [map_ofEvaluation h]
  exact start_map h ht hd

theorem exists_begins (h : Extends ι) (ho : o.Bounds) (he : e.IsReal ι) :
    ∃ e' d, Begins ι o e e' d := by
  obtain ⟨e', rfl⟩ := he
  obtain ⟨d, hd, hf⟩ := exists_ofJacobian e'.jacobian ho.threshold_nonneg
  have hstanding : ofJacobian (Standing.ofEvaluation e').evaluation.jacobian o.rankingThreshold =
      .ok d := hd
  exact ⟨e', d, {
    evaluation_eq := rfl
    exact_eq := hd
    factored := hf
    decomposition_eq := h.map_ofJacobian ho.threshold_nonneg hd
    diagonal_ne := hf.diagonal_ne ho.threshold_nonneg
    start_eq := fun rg => by rw [map_ofEvaluation h, start_map h ho.threshold_nonneg hstanding] }⟩

/-- **The first search of an outer iteration**. -/
theorem Begins.safe (hb : Begins ι o e e' d) (h : Extends ι) (ho : o.Bounds) (hl : 0 ≤ rg.lambda)
    (hrg : rg.fresh = false → rg.Safe) {s' : Search β m n}
    (hs : Search.start (o.map ι) (.ofEvaluation e) (rg.map ι) = .ok s')
    (hc : ¬ s'.maxCosine ≤ (o.map ι).orthogonalityTolerance) :
    ∃ t : Search ℝ m n, s' = t.map ι ∧ t.Safe ∧
      (rg.fresh = false → ∀ c, rg.scaling c ≤ t.region.scaling c) := by
  obtain rfl := Except.ok.inj ((hb.start_eq rg).symm.trans hs)
  have hcosine : ¬ (Search.ofDecomposition o (.ofEvaluation e') rg d).maxCosine ≤
      o.orthogonalityTolerance := fun hle => hc ((h.le_iff _ _).mpr hle)
  obtain ⟨hcost, hgradient⟩ := ne_of_largestCosine ho.orthogonality_nonneg hcosine
  exact ⟨_, rfl, {
    region := ofDecomposition_region ho hl hrg hb.exact_eq
    written := writeDiagonal_written hb.factored.order _
    solvable := hb.factored.solvable ho.threshold_nonneg _ _ hb.factored.rank_le
    gradient_ne := hgradient
    cost_ne := hcost }, le_ofDecomposition_scaling⟩

/-- An outer iteration that begins at a real evaluation has a safe first search. -/
theorem exists_safe_start (h : Extends ι) (ho : o.Bounds) (he : e.IsReal ι) (hl : 0 ≤ rg.lambda)
    (hrg : rg.fresh = false → rg.Safe) {s' : Search β m n}
    (hs : Search.start (o.map ι) (.ofEvaluation e) (rg.map ι) = .ok s')
    (hc : ¬ s'.maxCosine ≤ (o.map ι).orthogonalityTolerance) :
    ∃ t : Search ℝ m n, s' = t.map ι ∧ t.Safe ∧
      (rg.fresh = false → ∀ c, rg.scaling c ≤ t.region.scaling c) := by
  obtain ⟨e', d, hb⟩ := exists_begins h ho he
  exact hb.safe h ho hl hrg hs hc

/-! ## Trials -/

section Trial

variable {s : Search ℝ m n} {v : Option Bool}

/-- **A safe trial**, whose search is `s` in exact arithmetic: what it divides by is not zero, and
the parameter, the step, the judgement and the region that it leaves are those of exact
arithmetic. -/
structure Trial.Safe (ι : ℝ → β) (t : Trial β m n) (s : Search ℝ m n) : Prop where
  search_eq : t.search = s.map ι
  /-- Radius and scaling are positive, the parameter is not negative. -/
  region : s.region.Safe
  /-- The relative reductions are divided by the cost and by its square. -/
  cost_ne : s.standing.cost ≠ 0
  divides : Divides (Nat.min_le_left m n) (Nat.min_le_right m n) s.decomposition s.projected
    s.region.scaling s.region.radius s.region.lambda
  parameter_eq : t.search.decomposition.parameter (Nat.min_le_left m n) (Nat.min_le_right m n)
      t.search.projected t.search.region.radius t.search.region.scaling t.search.region.lambda =
    (s.decomposition.parameter (Nat.min_le_left m n) (Nat.min_le_right m n) s.projected
      s.region.radius s.region.scaling s.region.lambda).map ι
  proposal_eq : t.proposal = s.propose.map ι
  judged : ∀ a v, t.progress = .made a v → ∃ x, Judged ι a t.search.standing.cost x
  region_after : ∀ a v, t.progress = .made a v →
    ∃ r : Region ℝ n, t.search.regionAfter t.proposal a = r.map ι

/-- A trial at a safe search, if its evaluation is real in case it is accepted. -/
theorem Search.Safe.trial (hs : s.Safe) (h : Extends ι) {t : Trial β m n}
    (hsearch : t.search = s.map ι) (hproposal : t.proposal = t.search.propose)
    (hmade : ∀ a v, t.progress = .made a v → ∃ e, a = t.search.assess t.search.propose e)
    (hreal : ∀ e, t.accepted? = some e → e.IsReal ι) : t.Safe ι s where
  search_eq := hsearch
  region := hs.region
  cost_ne := hs.cost_ne
  divides := hs.posed.divides hs.region.lambda_nonneg
  parameter_eq := by
    rw [hsearch]
    exact hs.posed.map_parameter h hs.region.lambda_nonneg
  proposal_eq := by rw [hproposal, hsearch, hs.propose_map h]
  judged a v ha := by
    obtain ⟨e, rfl⟩ := hmade a v ha
    rw [hsearch]
    exact hs.judged h e
  region_after a v ha := by
    obtain ⟨e, rfl⟩ := hmade a v ha
    have he : ((s.map ι).assess (s.map ι).propose e).isAccepted = true → e.IsReal ι := by
      intro hacc
      refine hreal e ?_
      rw [Trial.accepted?, ha, hsearch]
      exact if_pos hacc
    obtain ⟨r, hr, -⟩ := hs.regionAfter h he
    rw [hproposal, hsearch]
    exact ⟨r, hr⟩

/-- A trial is accepted exactly if its ratio is not below the accepting one. -/
theorem Judged.lt_acceptRatio_iff (h : Extends ι) {a : Assessment β m n} {previous : β}
    {x : Reductions ℝ} (hj : Judged ι a previous x) :
    a.ratio < acceptRatio ↔ ¬ a.isAccepted = true := by
  have hratio : a.ratio = ι x.ratio := congrArg Reductions.ratio hj.reductions_eq
  have haccept : (acceptRatio : β) = ι acceptRatio := (h.scientific ..).symm
  rw [Assessment.isAccepted, decide_eq_true_iff, hratio, haccept, h.lt_iff, h.le_iff, not_le]

/-- The region after a trial that leaves a radius that is not negligible. -/
theorem Search.Safe.regionAfter_safe (hs : s.Safe) (h : Extends ι) (hp : 0 ≤ o.parameterTolerance)
    (hr : (s.map ι).RadiusRemains (o.map ι) e)
    (he : ((s.map ι).assess (s.map ι).propose e).isAccepted = true → e.IsReal ι) :
    ∃ r : Region ℝ n, (s.map ι).regionAfter (s.map ι).propose
        ((s.map ι).assess (s.map ι).propose e) = r.map ι ∧
      r.Safe ∧ r.scaling = s.region.scaling := by
  obtain ⟨r, hregion, hlambda, hlength, hscaling⟩ := hs.regionAfter h he
  refine ⟨r, hregion, ⟨?_, hlambda, hlength, hscaling ▸ hs.region.scaling_pos⟩, hscaling⟩
  unfold Search.RadiusRemains at hr
  rw [hregion] at hr
  have hradius : ¬ ι r.radius ≤ ι o.parameterTolerance * ι r.length := hr
  rw [← h.mul, h.le_iff, not_le] at hradius
  exact lt_of_le_of_lt (mul_nonneg hp hlength) hradius

/-- A trial that is followed by another one of the same outer iteration was not accepted. -/
theorem Search.Safe.isAccepted_of_retry (hs : s.Safe) (h : Extends ι) {s' : Search β m n}
    (hn : (s.map ι).outcome (o.map ι) e v = .retry s') :
    ((s.map ι).assess (s.map ι).propose e).isAccepted = false := by
  obtain ⟨-, hlt, -⟩ := Search.of_outcome_eq_retry hn
  obtain ⟨x, hj⟩ := hs.judged h e
  exact (Bool.not_eq_true _).mp ((hj.lt_acceptRatio_iff h).mp hlt)

/-- One that is followed by another outer iteration was accepted. -/
theorem Search.Safe.isAccepted_of_renew (hs : s.Safe) (h : Extends ι) {st : Standing β m n}
    {rg : Region β n} (hn : (s.map ι).outcome (o.map ι) e v = .renew st rg) :
    ((s.map ι).assess (s.map ι).propose e).isAccepted = true := by
  obtain ⟨-, hlt, -, -⟩ := Search.of_outcome_eq_renew hn
  obtain ⟨x, hj⟩ := hs.judged h e
  exact not_not.mp fun hacc => hlt ((hj.lt_acceptRatio_iff h).mpr hacc)

/-- **Another trial of the same outer iteration**. -/
theorem Search.Safe.retry (hs : s.Safe) (h : Extends ι) (hp : 0 ≤ o.parameterTolerance)
    {s' : Search β m n} (hn : (s.map ι).outcome (o.map ι) e v = .retry s') :
    ∃ t : Search ℝ m n, s' = t.map ι ∧ t.Safe ∧ t.region.scaling = s.region.scaling := by
  have ha : ¬ _ = true := (Bool.not_eq_true _).mpr (hs.isAccepted_of_retry h hn)
  obtain ⟨hr, -, rfl⟩ := Search.of_outcome_eq_retry hn
  obtain ⟨r, hregion, hsafe, hscaling⟩ :=
    hs.regionAfter_safe h hp hr fun hacc => absurd hacc ha
  have hagrees := propose_agrees hs.written
  refine ⟨{ s with
    standing := ⟨s.base, s.standing.cost, s.standing.point⟩
    region := r
    decomposition := s.propose.decomposition }, ?_, ?_, hscaling⟩
  · unfold Search.retryAfter Search.standingAfter
    rw [hregion, if_neg ha, hs.propose_map h]
    rfl
  · exact {
      region := hsafe
      written := hagrees.written hs.written
      solvable := hs.solvable.agrees hagrees
      gradient_ne := by
        rw [hagrees.gradient_eq]
        exact hs.gradient_ne
      cost_ne := hs.cost_ne }

/-- **Another outer iteration** begins at the evaluation of the trial, which was accepted. -/
theorem Search.Safe.renew (hs : s.Safe) (h : Extends ι) (hp : 0 ≤ o.parameterTolerance)
    {st : Standing β m n} {rg : Region β n}
    (hn : (s.map ι).outcome (o.map ι) e v = .renew st rg)
    (he : ((s.map ι).assess (s.map ι).propose e).isAccepted = true → e.IsReal ι) :
    e.IsReal ι ∧ st = .ofEvaluation e ∧ ∃ r : Region ℝ n, rg = r.map ι ∧ r.Safe ∧
      r.fresh = false ∧ r.scaling = s.region.scaling := by
  have ha := hs.isAccepted_of_renew h hn
  obtain ⟨hr, -, rfl, rfl⟩ := Search.of_outcome_eq_renew hn
  obtain ⟨r, hregion, hsafe, hscaling⟩ := hs.regionAfter_safe h hp hr he
  have hfresh : r.fresh = false := by
    have hf := regionAfter_fresh (s.map ι) (s.map ι).propose ha
    rw [hregion] at hf
    exact hf
  exact ⟨he ha, if_pos ha, r, hregion, hsafe, hfresh, hscaling⟩

end Trial

/-! ## Runs -/

/-- **A safe run**: its outer iterations begin at real evaluations, its trials follow the searches
of exact arithmetic, and no entry of the scaling is smaller than in the search before. -/
structure Run.Safe (ι : ℝ → β) (o : Options ℝ) (r : Run σ β m n)
    (searches : List (Search ℝ m n)) : Prop where
  bases : ∀ e ∈ r.bases, ∃ e' d, Begins ι o e e' d
  trials : List.Forall₂ (Trial.Safe ι) r.trials searches
  scaling_mono : searches.IsChain fun s s' => ∀ c, s.region.scaling c ≤ s'.region.scaling c

section Rules

variable {r : Run σ β m n} {t : Trial β m n} {s s' : Search ℝ m n} {ss : List (Search ℝ m n)}

theorem ending_safe (result : Except (Failure β) (Optimum β m n)) (w : σ) :
    (Run.ending result w).Safe ι o [] :=
  ⟨fun _ he => absurd he List.not_mem_nil, .nil, .nil⟩

theorem Run.Safe.begunAt (hr : r.Safe ι o ss) (h : Extends ι) (ho : o.Bounds)
    (he : e.IsReal ι) : (r.begunAt e).Safe ι o ss :=
  ⟨List.forall_mem_cons.mpr ⟨exists_begins h ho he, hr.bases⟩, hr.trials, hr.scaling_mono⟩

/-- A last trial. -/
theorem Run.Safe.after_last (hr : r.Safe ι o []) (ht : t.Safe ι s) : (r.after t).Safe ι o [s] :=
  ⟨hr.bases, .cons ht hr.trials, .singleton s⟩

theorem Run.Safe.after (hr : r.Safe ι o (s' :: ss)) (ht : t.Safe ι s)
    (hle : ∀ c, s.region.scaling c ≤ s'.region.scaling c) :
    (r.after t).Safe ι o (s :: s' :: ss) :=
  ⟨hr.bases, .cons ht hr.trials, .cons_cons hle hr.scaling_mono⟩

/-- A trial of a safe run follows one of its searches. -/
theorem Run.Safe.exists_search (hr : r.Safe ι o ss) (ht : t ∈ r.trials) :
    ∃ s ∈ ss, t.Safe ι s := by
  obtain ⟨i, hi, rfl⟩ := List.mem_iff_getElem.mp ht
  have hi' : i < ss.length := hr.trials.length_eq ▸ hi
  exact ⟨ss[i], List.getElem_mem hi', (List.forall₂_iff_get.mp hr.trials).2 i hi hi'⟩

/-- What a run accepts after a trial. -/
theorem mem_accepted_after (t : Trial β m n) (he : e ∈ r.accepted) :
    e ∈ (r.after t).accepted := by
  obtain ⟨t', ht', he'⟩ := List.mem_filterMap.mp he
  exact List.mem_filterMap.mpr ⟨t', List.mem_cons_of_mem t ht', he'⟩

/-- What a run accepts by its first trial. -/
theorem mem_accepted_of_accepted? (he : t.accepted? = some e) : e ∈ (r.after t).accepted :=
  List.mem_filterMap.mpr ⟨t, List.mem_cons_self, he⟩

end Rules

section Judged

variable {r : Run σ β m n} {s : Search ℝ m n} {iteration : Nat} {v : Option Bool}
  (hreal : ∀ e' ∈ (r.after ((s.map ι).trial iteration e v)).accepted, e'.IsReal ι)

include hreal

/-- The evaluation of an accepted trial of a run is real. -/
theorem isReal_of_accepted (ha : ((s.map ι).assess (s.map ι).propose e).isAccepted = true) :
    e.IsReal ι := hreal e (mem_accepted_of_accepted? (if_pos ha))

theorem Search.Safe.judged_trial (hs : s.Safe) (h : Extends ι) :
    ((s.map ι).trial iteration e v).Safe ι s := by
  refine hs.trial h rfl rfl (fun a v' ha => ?_) fun e' he' =>
    hreal e' (mem_accepted_of_accepted? he')
  cases ha
  exact ⟨e, rfl⟩

end Judged

/-- **Every run from a safe search is safe**, if the evaluations that it accepts are real, and so are
the searches that it follows. -/
theorem Runs.safe (h : Extends ι) (ho : o.Bounds) {P : Problem σ β m n}
    {left used iteration : Nat} {q : Search β m n} {w : σ} {r : Run σ β m n}
    (hr : Runs (o.map ι) P left used iteration q w r) {s : Search ℝ m n} (hq : q = s.map ι)
    (hs : s.Safe) (hreal : ∀ e ∈ r.accepted, e.IsReal ι) :
    ∃ ss, r.Safe ι o (s :: ss) ∧ ∀ s' ∈ s :: ss, s'.Safe := by
  have hp := ho.parameter_nonneg
  have hlast := List.forall_mem_singleton.mpr hs
  -- the evaluation of a rejected trial may be anything: nothing of it is kept but its judgement
  induction hr generalizing s with
  | exhausted | failed _ =>
    exact ⟨[], (ending_safe _ _).after_last (hs.trial h hq rfl nofun nofun), hlast⟩
  | unanswered _ _ | stopped _ _ | stuck _ _ | overdue _ _ _ =>
    subst hq
    exact ⟨[], (ending_safe _ _).after_last (hs.judged_trial hreal h), hlast⟩
  | undecomposed _ hn _ _ | orthogonal _ hn _ _ _ =>
    subst hq
    obtain ⟨he, rfl, -⟩ := hs.renew h hp hn (isReal_of_accepted hreal)
    exact ⟨[], ((ending_safe _ _).begunAt h ho he).after_last (hs.judged_trial hreal h), hlast⟩
  | retried _ hn _ ih =>
    subst hq
    obtain ⟨t, ht, hsafe, hscaling⟩ := hs.retry h hp hn
    obtain ⟨ss, hss, hall⟩ := ih ht hsafe (fun e he => hreal e (mem_accepted_after _ he))
      (List.forall_mem_singleton.mpr hsafe)
    exact ⟨t :: ss, hss.after (hs.judged_trial hreal h) fun c => (congrArg (· c) hscaling).ge,
      List.forall_mem_cons.mpr ⟨hs, hall⟩⟩
  | renewed _ hn _ hs' hc _ ih =>
    subst hq
    obtain ⟨he, rfl, rg, rfl, hrg, hfresh, hscaling⟩ := hs.renew h hp hn (isReal_of_accepted hreal)
    obtain ⟨t, ht, hsafe, hle⟩ :=
      exists_safe_start h ho he hrg.lambda_nonneg (fun _ => hrg) hs' hc
    obtain ⟨ss, hss, hall⟩ := ih ht hsafe (fun e he => hreal e (mem_accepted_after _ he))
      (List.forall_mem_singleton.mpr hsafe)
    exact ⟨t :: ss, (hss.begunAt h ho he).after (hs.judged_trial hreal h) fun c =>
      hscaling ▸ hle hfresh c, List.forall_mem_cons.mpr ⟨hs, hall⟩⟩

/-! ## Courses -/

/-- The start of a course is an evaluation of the problem at its start point. -/
theorem Courses.start_eq {o' : Options (Number β)} {P : Problem σ β m n} {w : σ}
    {c : Course σ β m n} (hc : Courses o' P w c) (he : c.start.found? = some e) :
    ∃ w', (P.evaluation P.start).after w = (.ok e, w') := by
  cases hc with
  | refused _ _ | failed _ _ _ => cases he
  | infinite _ _ hstart _ | undecomposed _ _ hstart _ _ | orthogonal _ _ hstart _ _ _
  | begun _ _ hstart _ _ _ _ =>
    cases he
    exact ⟨_, hstart⟩

/-- What a course accepts is an evaluation of the problem. -/
theorem Courses.accepted_eq {o' : Options (Number β)} {P : Problem σ β m n} {w : σ}
    {c : Course σ β m n} (hc : Courses o' P w c) (he : e ∈ c.accepted) :
    ∃ p w₁ w₂, (P.evaluation p).after w₁ = (.ok e, w₂) := by
  obtain ⟨t, ht, hacc⟩ := List.mem_filterMap.mp he
  obtain ⟨e₀, bs, -, -, hat⟩ := hc.reached ht
  obtain ⟨a, v, hp, -, rfl⟩ := Trial.made_of_accepted? hacc
  obtain ⟨e', w₁, w₂, heval, rfl⟩ := hat.made a v hp
  exact ⟨_, w₁, w₂, heval⟩

/-- A course stands at evaluations of the problem. -/
theorem Courses.standpoint_eq {o' : Options (Number β)} {P : Problem σ β m n} {w : σ}
    {c : Course σ β m n} (hc : Courses o' P w c) (he : e ∈ c.standpoints) :
    ∃ p w₁ w₂, (P.evaluation p).after w₁ = (.ok e, w₂) := by
  rcases List.mem_append.mp he with he | he
  · obtain ⟨w', hstart⟩ := hc.start_eq (Option.mem_toList.mp he)
    exact ⟨_, _, w', hstart⟩
  · exact hc.accepted_eq he

theorem map_initial (h : Extends ι) :
    (Region.initial : Region β n) = (Region.initial : Region ℝ n).map ι := by
  unfold Region.initial Region.map
  simp only [h.zero, Vec.map_replicate]

/-- **Every course is safe**, if the evaluations at which it stands are real, and so are the searches
that it follows. -/
theorem Courses.safe (h : Extends ι) (ho : o.Bounds) {o' : Options (Number β)}
    (hvalues : o'.values = o.map ι) {P : Problem σ β m n} {w : σ} {c : Course σ β m n}
    (hc : Courses o' P w c) (hreal : ∀ e ∈ c.standpoints, e.IsReal ι) :
    ∃ ss, c.toRun.Safe ι o ss ∧ ∀ s ∈ ss, s.Safe := by
  have hnone : ∀ s ∈ ([] : List (Search ℝ m n)), s.Safe := fun _ hs => absurd hs List.not_mem_nil
  cases hc with
  | refused _ _ | failed _ _ _ | infinite _ _ _ _ => exact ⟨[], ending_safe _ _, hnone⟩
  | undecomposed _ _ _ _ _ | orthogonal _ _ _ _ _ _ =>
    exact ⟨[], (ending_safe _ _).begunAt h ho (hreal _ List.mem_cons_self), hnone⟩
  | begun _ _ _ _ hs hcosine hr =>
    rw [hvalues] at hs hcosine hr
    rw [map_initial h] at hs
    have he := hreal _ List.mem_cons_self
    obtain ⟨t, ht, hsafe, -⟩ :=
      exists_safe_start h ho he le_rfl (fun hf => Bool.noConfusion hf) hs hcosine
    obtain ⟨ss, hss, hall⟩ :=
      hr.safe h ho ht hsafe fun e he => hreal e (List.mem_cons_of_mem _ he)
    exact ⟨t :: ss, hss.begunAt h ho he, hall⟩

/-- **Headline.** With options that are accepted and real evaluations at which it stands, every
course is safe, whatever a quotient by zero and the root of a negative number are. -/
theorem optimize_safe (h : Extends ι) {given : Options (Setting β)} {o' : Options (Number β)}
    (hc : Options.check given = .ok o') (hvalues : o'.values = o.map ι) (P : Problem σ β m n)
    (w : σ) (hreal : ∀ e ∈ (optimize o' P w).standpoints, e.IsReal ι) :
    ∃ ss, (optimize o' P w).toRun.Safe ι o ss := by
  obtain ⟨ss, hss, -⟩ :=
    (courses_optimize o' P w).safe h (bounds_of_check h hc hvalues) hvalues hreal
  exact ⟨ss, hss⟩

/-! ## An example

The line in exact arithmetic with infinities. -/

theorem line_values (h : Extends ι) :
    (exactOptions β).values = (exactOptions ℝ).values.map ι := by
  unfold Options.values Options.map exactOptions Number.value
  simp only [map_ofInt h]

theorem map_lineAt (h : Extends ι) (p : Vec ℝ 1) : lineAt (p.map ι) = (lineAt p).map ι := by
  unfold lineAt Evaluation.map
  simp only [Vec.map_ofFn, Mat.map_ofFn, Vec.map_apply, h.sub, h.one]

theorem start_line (h : Extends ι) : lineAt (lineProblem β).start = lineStart.map ι := by
  have hstart : (lineProblem β).start = (lineProblem ℝ).start.map ι := by
    unfold lineProblem
    simp only [Vec.map_replicate, h.zero]
  rw [hstart, map_lineAt h, lineAt_start]

theorem exists_line_trial_of_extends (h : Extends ι) :
    ∃ t, t ∈ (optimize (exactOptions β) (lineProblem β) ()).trials := by
  obtain ⟨d, hd, -⟩ := exists_ofJacobian lineStart.jacobian (le_refl (0 : ℝ))
  have hthreshold : (exactOptions ℝ).values.rankingThreshold = 0 := Nat.cast_zero
  have hdecomposed : ofJacobian (Standing.ofEvaluation lineStart).evaluation.jacobian
      (exactOptions ℝ).values.rankingThreshold = .ok d := by
    rw [hthreshold]
    exact hd
  have hs : Search.start (exactOptions β).values (.ofEvaluation (lineStart.map ι))
      Region.initial = .ok ((Search.ofDecomposition (exactOptions ℝ).values
        (.ofEvaluation lineStart) Region.initial d).map ι) := by
    rw [line_values h, map_ofEvaluation h, map_initial h]
    exact start_map h hthreshold.ge hdecomposed
  have he := line_evaluation (lineProblem β).start
  rw [start_line h] at he
  have hf : isFinite (lineStart.map ι).cost = true := by
    rw [cost_map h]
    exact h.finite _
  refine exists_trial (Int.le.intro 1 rfl) le_rfl he hf hs ?_
  rw [line_values h]
  exact fun hle => line_cosine hd ((h.le_iff _ _).mp hle)

/-- The line at a point costs a finite amount only if the point is real. -/
theorem lineAt_isReal {p : Vec Extended 1} (hf : isFinite (lineAt p).cost = true) :
    (lineAt p).IsReal Extended.finite := by
  have hresidual := isFinite_residual hf 0
  rw [lineAt, Vec.ofFn_apply] at hresidual
  obtain ⟨x, hx⟩ :=
    exists_of_isFinite (Extended.isFinite_of_neg (Extended.isFinite_of_add hresidual).2)
  have hp : p = (Vec.replicate 1 x).map Extended.finite := by
    refine Vec.ext fun i => ?_
    rw [Subsingleton.elim i 0, hx, Vec.map_apply, Vec.replicate_apply]
  exact ⟨lineAt (Vec.replicate 1 x), by rw [hp, map_lineAt Extended.extends_finite]⟩

theorem line_standpoints :
    ∀ e ∈ (optimize (exactOptions Extended) (lineProblem Extended) ()).standpoints,
      e.IsReal Extended.finite := by
  have hco := courses_optimize (exactOptions Extended) (lineProblem Extended) ()
  intro e he
  rcases List.mem_append.mp he with he | he
  · obtain ⟨w', hstart⟩ := hco.start_eq (Option.mem_toList.mp he)
    cases (line_evaluation _).symm.trans hstart
    exact ⟨lineStart, start_line Extended.extends_finite⟩
  · obtain ⟨p, w₁, w₂, hp⟩ := hco.accepted_eq he
    have hc : Options.check ((exactOptions Extended).map Setting.number) =
        .ok (exactOptions Extended) := rfl
    have hf := (hco.descends (Extended.signRule.value (Options.of_check_eq_ok hc).1)).accepted_finite
      e he
    cases (line_evaluation p).symm.trans hp
    exact lineAt_isReal hf

theorem optimize_safe_line :
    Extends Extended.finite ∧
      Options.check ((exactOptions Extended).map Setting.number) = .ok (exactOptions Extended) ∧
      (exactOptions Extended).values = (exactOptions ℝ).values.map Extended.finite ∧
      (∀ e ∈ (optimize (exactOptions Extended) (lineProblem Extended) ()).standpoints,
        e.IsReal Extended.finite) ∧
      ∃ s ss, (optimize (exactOptions Extended) (lineProblem Extended) ()).toRun.Safe
        Extended.finite (exactOptions ℝ).values (s :: ss) := by
  have h := Extended.extends_finite
  have hc : Options.check ((exactOptions Extended).map Setting.number) =
      .ok (exactOptions Extended) := rfl
  have hvalues := line_values h
  refine ⟨h, hc, hvalues, line_standpoints, ?_⟩
  obtain ⟨ss, hss⟩ := optimize_safe h hc hvalues (lineProblem Extended) () line_standpoints
  obtain ⟨t, ht⟩ := exists_line_trial_of_extends h
  cases ss with
  | nil =>
    rw [List.forall₂_nil_right_iff.mp hss.trials] at ht
    exact absurd ht List.not_mem_nil
  | cons s ss => exact ⟨s, ss, hss⟩

end LeastSquares.LevenbergMarquardt
