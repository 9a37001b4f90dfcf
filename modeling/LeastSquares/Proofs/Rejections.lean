import Mathlib.Analysis.SpecialFunctions.Log.Base
import LeastSquares.Proofs.Affine
import LeastSquares.Proofs.SafeRun

/-!
# Rejected trials

Runs in exact arithmetic with infinities, where a trial may be evaluated to anything. A rejected
trial multiplies the parameter by a factor from two to ten and leaves at most half of the radius,
while the scaled length of the point stays as it is. So an outer iteration rejects no more trials
than the radius can be halved before it is within the tolerance: neither a budget nor the model has
a say in that.

Results:
* `halvings_lt`: a halving is one of the halvings that are left;
* `Search.Safe.regionAfter_rejected`: what a rejected trial leaves;
* `Runs.rejections_le`, `Runs.boundsRejections`: an outer iteration, and all of a run;
* `isReal_of_start`: an evaluation with a real point, a finite cost and a decomposition is real;
* `optimize_boundsRejections`: so every course with real points bounds its rejections.
-/

namespace LeastSquares.LevenbergMarquardt

open Decomposition

variable {σ β : Type} {m n : Nat}

/-! ## Halvings -/

/-- How many halvings, but at least one, lead from a radius down to a limit. -/
noncomputable def halvings (radius limit : ℝ) : Nat :=
  max 1 ⌈Real.logb (2 : Nat) (radius / limit)⌉₊

theorem one_le_halvings (radius limit : ℝ) : 1 ≤ halvings radius limit := le_max_left _ _

/-- **A halving that stays above the limit** is one of them. -/
theorem halvings_lt {radius next limit : ℝ} (hlimit : 0 < limit) (hnext : limit < next)
    (hle : next ≤ radius / 2) : halvings next limit + 1 ≤ halvings radius limit := by
  unfold halvings
  rw [Nat.cast_two]
  have hone : 1 < next / limit := (one_lt_div hlimit).mpr hnext
  have hlog : 0 < Real.logb 2 (next / limit) := Real.logb_pos one_lt_two hone
  have hdouble : Real.logb 2 (next / limit) + 1 ≤ Real.logb 2 (radius / limit) := by
    have hpos : 0 < next / limit := one_pos.trans hone
    calc Real.logb 2 (next / limit) + 1
        = Real.logb 2 (next / limit * 2) := by
          rw [Real.logb_mul hpos.ne' two_ne_zero, Real.logb_self_eq_one one_lt_two]
      _ ≤ Real.logb 2 (radius / limit) := by
          refine Real.logb_le_logb_of_le one_lt_two (mul_pos hpos two_pos) ?_
          rw [div_mul_eq_mul_div]
          exact div_le_div_of_nonneg_right (by linarith) hlimit.le
  have hceil : 1 ≤ ⌈Real.logb 2 (next / limit)⌉₊ := Nat.one_le_ceil_iff.mpr hlog
  calc max 1 ⌈Real.logb 2 (next / limit)⌉₊ + 1
      = ⌈Real.logb 2 (next / limit) + 1⌉₊ := by rw [max_eq_right hceil, Nat.ceil_add_one hlog.le]
    _ ≤ ⌈Real.logb 2 (radius / limit)⌉₊ := Nat.ceil_mono hdouble
    _ ≤ max 1 ⌈Real.logb 2 (radius / limit)⌉₊ := le_max_right _ _

/-! ## One rejected trial -/

section Trial

variable [Scalar β]

/-- Whether a trial was judged and not accepted. -/
def Trial.isRejected (t : Trial β m n) : Bool :=
  match t.progress with
  | .made a _ => !a.isAccepted
  | _ => false

variable {ι : ℝ → β}

/-- **A trial at the search `s`** of exact arithmetic. If it is rejected, it multiplies the parameter
of its step by a factor from two to ten and replaces the radius by at most half of it. -/
structure Trial.Shrinks (ι : ℝ → β) (t : Trial β m n) (s : Search ℝ m n) : Prop where
  search_eq : t.search = s.map ι
  proposal_eq : t.proposal = s.propose.map ι
  /-- The radius may have been cut to the length of the step. -/
  radius_le : s.propose.radius ≤ s.region.radius
  rejected : ∀ a v, t.progress = .made a v → a.isAccepted = false → ∃ factor radius : ℝ,
    (2 ≤ factor ∧ factor ≤ 10) ∧ (0 ≤ radius ∧ radius ≤ s.propose.radius / 2) ∧
      t.search.regionAfter t.proposal a =
        ({ s.region with radius, lambda := factor * s.propose.lambda } : Region ℝ n).map ι

/-- What was not accepted has a ratio at which the region shrinks. -/
theorem Judged.adjust_of_rejected (h : Extends ι) {a : Assessment β m n} {previous : β}
    {x : Reductions ℝ} (hj : Judged ι a previous x) (ha : a.isAccepted = false)
    {p : Proposal ℝ m n} (hradius : 0 ≤ p.radius) (hlength : 0 ≤ p.length) :
    ∃ factor radius : ℝ, (2 ≤ factor ∧ factor ≤ 10) ∧ (0 ≤ radius ∧ radius ≤ p.radius / 2) ∧
      a.adjust (p.map ι) previous = (ι radius, ι (factor * p.lambda)) := by
  obtain ⟨f, hge, hle, hf⟩ := hj.shrinkFactor
  have hpos : 0 < f := lt_of_lt_of_le (by norm_num) hge
  have hratio : a.ratio ≤ shrinkRatio := by
    have hx : a.ratio = ι x.ratio := congrArg Reductions.ratio hj.reductions_eq
    have hbelow := (hj.lt_acceptRatio_iff h).mpr (ha ▸ Bool.false_ne_true)
    rw [hx, acceptRatio, ← h.scientific, h.lt_iff] at hbelow
    rw [hx, shrinkRatio, ← h.scientific, h.le_iff]
    exact hbelow.le.trans (by norm_num)
  have hcut : 0 ≤ min p.radius (10.0 * p.length) :=
    le_min hradius (mul_nonneg (by norm_num) hlength)
  refine ⟨1 / f, f * min p.radius (10.0 * p.length), ⟨?_, ?_⟩, ⟨mul_nonneg hpos.le hcut, ?_⟩, ?_⟩
  · rw [le_div_iff₀ hpos]
    norm_num at hle
    linarith
  · rw [div_le_iff₀ hpos]
    norm_num at hge
    linarith
  · calc f * min p.radius (10.0 * p.length) ≤ 0.5 * p.radius :=
          mul_le_mul hle (min_le_left _ _) hcut (by norm_num)
      _ = p.radius / 2 := by
          norm_num
          ring
  · have hproposed : (p.map ι).radius = ι p.radius := rfl
    have hlambda : (p.map ι).lambda = ι p.lambda := rfl
    have hstep : (p.map ι).length = ι p.length := rfl
    unfold Assessment.adjust
    rw [if_pos hratio]
    simp only [hf, hproposed, hlambda, hstep, ← h.scientific, ← h.mul, h.smaller,
      Exact.smaller_eq, ← h.div _ hpos.ne', div_mul_eq_mul_div, one_mul]

variable {s : Search ℝ m n} {e : Evaluation β m n} {v : Option Bool}

/-- **What a rejected trial leaves**, whatever it was evaluated to. -/
theorem Search.Safe.regionAfter_rejected (hs : s.Safe) (h : Extends ι)
    (ha : ((s.map ι).assess (s.map ι).propose e).isAccepted = false) :
    ∃ factor radius : ℝ, (2 ≤ factor ∧ factor ≤ 10) ∧
      (0 ≤ radius ∧ radius ≤ s.propose.radius / 2) ∧
      (s.map ι).regionAfter (s.map ι).propose ((s.map ι).assess (s.map ι).propose e) =
        ({ s.region with radius, lambda := factor * s.propose.lambda } : Region ℝ n).map ι := by
  obtain ⟨x, hj⟩ := hs.judged h e
  obtain ⟨-, hlength, hradius⟩ := s.propose_signed Exact.signRule
    ⟨hs.region.radius_pos.le, hs.region.lambda_nonneg⟩
  obtain ⟨factor, radius, hfactor, hhalf, hadjust⟩ :=
    hj.adjust_of_rejected h ha hradius hlength
  refine ⟨factor, radius, hfactor, hhalf, ?_⟩
  rw [← hs.propose_map h] at hadjust
  unfold Search.regionAfter
  rw [hadjust, ha]
  rfl

/-- The radius is at most cut. -/
theorem propose_radius_le (s : Search ℝ m n) : s.propose.radius ≤ s.region.radius := by
  change (if s.region.fresh then Scalar.smaller s.region.radius s.propose.length
    else s.region.radius) ≤ _
  split_ifs
  · rw [Exact.smaller_eq]
    exact min_le_left _ _
  · exact le_rfl

/-- A trial at a safe search, whatever came of it. -/
theorem Search.Safe.shrinks (hs : s.Safe) (h : Extends ι) {t : Trial β m n}
    (hsearch : t.search = s.map ι) (hproposal : t.proposal = t.search.propose)
    (hmade : ∀ a v, t.progress = .made a v → ∃ e, a = t.search.assess t.search.propose e) :
    t.Shrinks ι s where
  search_eq := hsearch
  proposal_eq := by rw [hproposal, hsearch, hs.propose_map h]
  radius_le := propose_radius_le s
  rejected a v ha hrejected := by
    obtain ⟨e, rfl⟩ := hmade a v ha
    rw [hsearch] at hrejected
    rw [hproposal, hsearch]
    exact hs.regionAfter_rejected h hrejected

/-- Equal images of regions are of equal radius and of points of equal length. -/
theorem eq_of_map_region (h : Extends ι) {rg rg' : Region ℝ n} (heq : rg.map ι = rg'.map ι) :
    rg.radius = rg'.radius ∧ rg.length = rg'.length :=
  ⟨(h.eq_iff _ _).mp (congrArg Region.radius heq), (h.eq_iff _ _).mp (congrArg Region.length heq)⟩

variable {o : Options ℝ}

/-- **The next trial of the same outer iteration** is made with at most half of the radius, which is
still beyond the tolerance. The length of the point is the same. -/
theorem Search.Safe.retry_radius (hs : s.Safe) (h : Extends ι) (hp : 0 ≤ o.parameterTolerance)
    {s' : Search β m n} (hn : (s.map ι).outcome (o.map ι) e v = .retry s') :
    ∃ t : Search ℝ m n, s' = t.map ι ∧ t.Safe ∧ t.region.length = s.region.length ∧
      o.parameterTolerance * t.region.length < t.region.radius ∧
      t.region.radius ≤ s.region.radius / 2 := by
  obtain ⟨t, rfl, hsafe, -⟩ := hs.retry h hp hn
  obtain ⟨hremains, -, hnext⟩ := Search.of_outcome_eq_retry hn
  obtain ⟨factor, radius, -, ⟨-, hhalf⟩, hregion⟩ :=
    hs.regionAfter_rejected h (hs.isAccepted_of_retry h hn)
  obtain ⟨hradius, hlength⟩ :=
    eq_of_map_region h ((congrArg Search.region hnext).trans hregion)
  refine ⟨t, rfl, hsafe, hlength, ?_, ?_⟩
  · rw [Search.RadiusRemains, hregion] at hremains
    change ¬ ι radius ≤ ι o.parameterTolerance * ι s.region.length at hremains
    rw [← h.mul, h.le_iff, not_le] at hremains
    rw [hradius, hlength]
    exact hremains
  · have hcut := propose_radius_le s
    rw [hradius]
    linarith

end Trial

/-! ## The trials of a run -/

section Counting

variable [Scalar β]

/-- How many trials of an outer iteration are rejected. -/
def Run.rejections (r : Run σ β m n) (iteration : Nat) : Nat :=
  r.trials.countP fun t => t.iteration == iteration && t.isRejected

/-- The first trial of an outer iteration. -/
def Run.firstOf (r : Run σ β m n) (iteration : Nat) : Option (Trial β m n) :=
  r.trials.find? fun t => t.iteration == iteration

/-- A trial comes after another one: after a rejected one in the same outer iteration, with the
region that it leaves, after any other in the next. -/
structure Trial.Follows (t t' : Trial β m n) : Prop where
  rejected : t.isRejected = true → t'.iteration = t.iteration ∧ ∃ a v, t.progress = .made a v ∧
    t'.search.region = t.search.regionAfter t.proposal a
  accepted : t.isRejected = false → t'.iteration = t.iteration + 1

variable {r : Run σ β m n} {t : Trial β m n} {i : Nat}

theorem rejections_after_le (r : Run σ β m n) (t : Trial β m n) (i : Nat) :
    (r.after t).rejections i ≤ r.rejections i + 1 := by
  refine (List.countP_cons ..).trans_le ?_
  split_ifs <;> simp [Run.rejections]

/-- A trial before others that are not rejected. -/
theorem rejections_after_le_one (hr : r.rejections i = 0) : (r.after t).rejections i ≤ 1 :=
  (rejections_after_le r t i).trans (Nat.add_le_add_right hr.le 1)

/-- A trial of another outer iteration does not count. -/
theorem rejections_after_of_ne (hne : t.iteration ≠ i) :
    (r.after t).rejections i = r.rejections i := by
  refine List.countP_cons_of_neg ?_
  rw [beq_false_of_ne hne]
  exact Bool.false_ne_true

omit [Scalar β] in
theorem firstOf_after (ht : t.iteration = i) : (r.after t).firstOf i = some t :=
  List.find?_cons_of_pos (beq_iff_eq.mpr ht)

omit [Scalar β] in
theorem firstOf_after_of_ne (hne : t.iteration ≠ i) : (r.after t).firstOf i = r.firstOf i :=
  List.find?_cons_of_neg fun h => hne (beq_iff_eq.mp h)

variable {o : Options β} {P : Problem σ β m n} {left used iteration : Nat} {s : Search β m n} {w : σ}

/-- No trial of a run belongs to an earlier outer iteration. -/
theorem Runs.iteration_le (h : Runs o P left used iteration s w r) :
    ∀ t ∈ r.trials, iteration ≤ t.iteration := by
  induction h with
  | retried _ _ _ ih => exact List.forall_mem_cons.mpr ⟨le_rfl, ih⟩
  | renewed _ _ _ _ _ _ ih =>
    exact List.forall_mem_cons.mpr ⟨le_rfl, fun t ht => (Nat.le_succ _).trans (ih t ht)⟩
  | _ => exact List.forall_mem_singleton.mpr le_rfl

/-- So it rejects nothing there. -/
theorem Runs.rejections_eq_zero (h : Runs o P left used iteration s w r) (hi : i < iteration) :
    r.rejections i = 0 := by
  refine List.countP_eq_zero.mpr fun t ht => ?_
  rw [beq_false_of_ne (hi.trans_le (h.iteration_le t ht)).ne']
  exact Bool.false_ne_true

end Counting

section Runs

variable [Scalar β] {ι : ℝ → β} {o : Options ℝ} {r : Run σ β m n} {t : Trial β m n}
  {s : Search ℝ m n} {e : Evaluation β m n}

/-- **An outer iteration from a search on** rejects at most as many trials as its radius can be
halved before it is within the tolerance. -/
theorem Runs.rejections_le (h : Extends ι) (hp : 0 ≤ o.parameterTolerance) {P : Problem σ β m n}
    {left used iteration : Nat} {q : Search β m n} {w : σ}
    (hr : Runs (o.map ι) P left used iteration q w r) (hq : q = s.map ι) (hs : s.Safe)
    (hlimit : 0 < o.parameterTolerance * s.region.length) :
    r.rejections iteration ≤
      halvings s.region.radius (o.parameterTolerance * s.region.length) := by
  -- every rejection but the last one leaves a radius that is still beyond the tolerance
  induction hr generalizing s with
  | retried _ hn _ ih =>
    subst hq
    obtain ⟨t, rfl, hsafe, hlength, hlt, hle⟩ := hs.retry_radius h hp hn
    have hrest := ih rfl hsafe (hlength ▸ hlimit)
    rw [hlength] at hrest hlt
    exact (rejections_after_le _ _ _).trans
      ((Nat.add_le_add_right hrest 1).trans (halvings_lt hlimit hlt hle))
  | renewed _ _ _ _ _ hr _ =>
    have hrest := hr.rejections_eq_zero (Nat.lt_succ_self _)
    exact (rejections_after_le_one hrest).trans (one_le_halvings _ _)
  | _ => exact (rejections_after_le_one rfl).trans (one_le_halvings _ _)

/-- **A run that bounds its rejections.** A rejected trial shrinks the region and is followed by
another one of the same outer iteration; an outer iteration rejects at most as many trials as its
first radius can be halved before it is within the tolerance. -/
structure Run.BoundsRejections (ι : ℝ → β) (o : Options ℝ) (r : Run σ β m n) : Prop where
  shrinks : ∀ t ∈ r.trials, ∃ s, t.Shrinks ι s
  follows : r.trials.IsChain Trial.Follows
  bounded : ∀ (i : Nat) (t : Trial β m n) (s : Search ℝ m n), r.firstOf i = some t →
    t.search = s.map ι → 0 < o.parameterTolerance * s.region.length →
      r.rejections i ≤ halvings s.region.radius (o.parameterTolerance * s.region.length)

/-- A run without trials. -/
theorem boundsRejections_of_nil (hr : r.trials = []) : r.BoundsRejections ι o := by
  constructor
  · rw [hr]
    exact fun _ ht => absurd ht List.not_mem_nil
  · rw [hr]
    exact .nil
  · intro i t s hfirst
    rw [Run.firstOf, hr] at hfirst
    cases hfirst

theorem Run.BoundsRejections.begunAt (hr : r.BoundsRejections ι o) (e : Evaluation β m n) :
    (r.begunAt e).BoundsRejections ι o := ⟨hr.shrinks, hr.follows, hr.bounded⟩

/-- A trial before those that follow. -/
theorem Run.BoundsRejections.after (hr : r.BoundsRejections ι o) (h : Extends ι)
    (ht : t.Shrinks ι s) (hnext : ∀ t' ∈ r.trials.head?, t.Follows t')
    (hbound : 0 < o.parameterTolerance * s.region.length → (r.after t).rejections t.iteration ≤
      halvings s.region.radius (o.parameterTolerance * s.region.length)) :
    (r.after t).BoundsRejections ι o := by
  constructor
  · exact List.forall_mem_cons.mpr ⟨⟨s, ht⟩, hr.shrinks⟩
  · exact hr.follows.cons hnext
  · intro i t' s' hfirst hsearch
    by_cases hi : t.iteration = i
    · rw [firstOf_after hi] at hfirst
      cases hfirst
      obtain ⟨hradius, hlength⟩ :=
        eq_of_map_region h (congrArg Search.region (ht.search_eq.symm.trans hsearch))
      rw [← hradius, ← hlength, ← hi]
      exact hbound
    · rw [firstOf_after_of_ne hi] at hfirst
      rw [rejections_after_of_ne hi]
      exact hr.bounded i t' s' hfirst hsearch

/-- A last trial. -/
theorem Trial.Shrinks.boundsRejections (ht : t.Shrinks ι s) (h : Extends ι) (hr : r.trials = []) :
    (r.after t).BoundsRejections ι o := by
  refine (boundsRejections_of_nil hr).after h ht ?_ fun _ => ?_
  · intro t' ht'
    rw [hr] at ht'
    cases ht'
  · refine (rejections_after_le_one ?_).trans (one_le_halvings _ _)
    rw [Run.rejections, hr]
    rfl

/-- A trial whose evaluation was judged. -/
theorem Search.Safe.trial_shrinks (hs : s.Safe) (h : Extends ι) (iteration : Nat)
    (e : Evaluation β m n) (v : Option Bool) :
    ((s.map ι).trial iteration e v).Shrinks ι s := by
  refine hs.shrinks h rfl rfl ?_
  intro a v' ha
  cases ha
  exact ⟨e, rfl⟩

theorem trial_isRejected (q : Search β m n) (iteration : Nat) (e : Evaluation β m n)
    (v : Option Bool) :
    (q.trial iteration e v).isRejected = !(q.assess q.propose e).isAccepted := rfl

/-- **Every run from a safe search bounds its rejections**, if the evaluations at which its outer
iterations begin are real. -/
theorem Runs.boundsRejections (h : Extends ι) (ho : o.Bounds) {P : Problem σ β m n}
    {left used iteration : Nat} {q : Search β m n} {w : σ}
    (hr : Runs (o.map ι) P left used iteration q w r) (hq : q = s.map ι) (hs : s.Safe)
    (hbegin : ∀ e ∈ r.accepted, ∀ rg s', Search.start (o.map ι) (.ofEvaluation e) rg = .ok s' →
      e.IsReal ι) :
    r.BoundsRejections ι o := by
  have hp := ho.parameter_nonneg
  induction hr generalizing s with
  | exhausted | failed _ =>
    exact (hs.shrinks h hq rfl fun _ _ ha => by cases ha).boundsRejections h rfl
  | unanswered _ _ | stopped _ _ | stuck _ _ | overdue _ _ _ | undecomposed _ _ _ _
  | orthogonal _ _ _ _ _ =>
    subst hq
    exact (hs.trial_shrinks h _ _ _).boundsRejections h rfl
  | @retried left used iteration q w e v w' s' r hj hn hr ih =>
    subst hq
    obtain ⟨t, ht, hsafe, -⟩ := hs.retry_radius h hp hn
    obtain ⟨-, -, hnext⟩ := Search.of_outcome_eq_retry hn
    refine (ih ht hsafe fun e he => hbegin e (mem_accepted_after _ he)).after h
      (hs.trial_shrinks h iteration e v) ?_ (Runs.rejections_le h hp (.retried hj hn hr) rfl hs)
    intro t' ht'
    obtain ⟨t₁, hhead, hiteration, hsearch⟩ := hr.head_eq
    cases hhead.symm.trans ht'
    constructor
    · intro _
      exact ⟨hiteration, _, v, rfl, congrArg Search.region (hsearch.trans hnext)⟩
    · rw [trial_isRejected, hs.isAccepted_of_retry h hn]
      exact fun hno => Bool.noConfusion hno
  | @renewed left used iteration q w e v w' st rg s' r hj hn hi hs' hc hr ih =>
    subst hq
    have ha := hs.isAccepted_of_renew h hn
    obtain ⟨-, -, hst, -⟩ := Search.of_outcome_eq_renew hn
    have hstands : st = .ofEvaluation e := hst.trans (if_pos ha)
    have he : e.IsReal ι := by
      refine hbegin e (mem_accepted_of_accepted? (if_pos ha)) rg s' ?_
      rw [← hstands]
      exact hs'
    obtain ⟨-, rfl, rg, rfl, hrg, -⟩ := hs.renew h hp hn fun _ => he
    obtain ⟨t, ht, hsafe, -⟩ :=
      exists_safe_start h ho he hrg.lambda_nonneg (fun _ => hrg) hs' hc
    refine ((ih ht hsafe fun e he => hbegin e (mem_accepted_after _ he)).begunAt _).after h
      (hs.trial_shrinks h iteration e v) ?_
      (Runs.rejections_le h hp (.renewed hj hn hi hs' hc hr) rfl hs)
    intro t' ht'
    obtain ⟨t₁, hhead, hiteration, -⟩ := hr.head_eq
    cases hhead.symm.trans ht'
    constructor
    · rw [trial_isRejected, ha]
      exact fun hno => Bool.noConfusion hno
    · exact fun _ => hiteration

end Runs

/-! ## Real evaluations -/

section Real

open Extended

/-- Only finite Jacobians are decomposed: the first step tests all columns. -/
theorem isFinite_of_ofJacobian {J : Mat Extended m n} {threshold : Extended}
    {d : Decomposition Extended m n} (h : ofJacobian J threshold = .ok d) (i : Fin m) (j : Fin n) :
    isFinite (J i j) = true := by
  cases n with
  | zero => exact j.elim0
  | succ n =>
    rw [ofJacobian, List.finRange_succ, steps] at h
    by_cases hbad : ∃ j, (0 : Fin (n + 1)) ≤ j ∧
        isFinite ((Vec.ofFn ((Decomposition.start J).tailSquare (0 : Fin (n + 1)).val) :
          Vec Extended (n + 1)) j) = false
    · rw [if_pos hbad] at h
      cases h
    · have hsquare : isFinite ((Decomposition.start J).tailSquare 0 j) = true := by
        by_contra hj
        exact hbad ⟨j, Fin.zero_le j, by rw [Vec.ofFn_apply]; exact (Bool.not_eq_true _).mp hj⟩
      have hentry := isFinite_of_mul_self (isFinite_of_sumOver hsquare (Nat.zero_le i.val))
      have hbuffer : (Decomposition.start J).buffer i j = -J i j := Mat.map_apply _ J i j
      rw [hbuffer] at hentry
      exact isFinite_of_neg hentry

/-- **An evaluation with a real point** is real, if its cost is finite and an outer iteration can
begin there. -/
theorem isReal_of_start {e : Evaluation Extended m n} {o : Options Extended}
    {rg : Region Extended n} {s : Search Extended m n} {p : Vec ℝ n} (hp : e.point = p.map finite)
    (hf : isFinite e.cost = true) (hs : Search.start o (.ofEvaluation e) rg = .ok s) :
    e.IsReal finite := by
  obtain ⟨d, hd, -⟩ := Search.of_start_eq_ok hs
  choose r hr using fun i => exists_of_isFinite (isFinite_residual hf i)
  choose J hJ using fun i j => exists_of_isFinite (isFinite_of_ofJacobian hd i j)
  refine ⟨⟨p, Vec.ofFn r, Mat.ofFn J⟩, ?_⟩
  have hresiduals : e.residuals = (Vec.ofFn r).map finite :=
    Vec.ext fun i => by rw [Vec.map_ofFn, Vec.ofFn_apply, hr]
  have hjacobian : e.jacobian = (Mat.ofFn J).map finite :=
    Mat.ext fun i j => by rw [Mat.map_ofFn, Mat.ofFn_apply]; exact hJ i j
  unfold Evaluation.map
  rw [← hp, ← hresiduals, ← hjacobian]

/-! ## All runs -/

/-- **Every course with real points bounds its rejections.** -/
theorem Courses.boundsRejections {o : Options ℝ} (ho : o.Bounds) {o' : Options (Number Extended)}
    (hvalues : o'.values = o.map finite) {P : Problem σ Extended m n} {w : σ}
    {c : Course σ Extended m n} (hc : Courses o' P w c)
    (hreal : ∀ e ∈ c.standpoints, ∃ p : Vec ℝ n, e.point = p.map finite) :
    c.toRun.BoundsRejections finite o := by
  have hfactor : o'.values.initialStepFactor.NotNegative := by
    rw [hvalues]
    exact notNegative_finite.mpr ho.factor_pos.le
  have haccepted := (hc.descends hfactor).accepted_finite
  cases hc with
  | begun _ _ _ hf hs hcosine hr =>
    rw [hvalues] at hs hcosine hr
    obtain ⟨p, hp⟩ := hreal _ List.mem_cons_self
    have he := isReal_of_start hp hf hs
    rw [map_initial extends_finite] at hs
    obtain ⟨t, ht, hsafe, -⟩ := exists_safe_start extends_finite ho he le_rfl
      (fun hfresh => Bool.noConfusion hfresh) hs hcosine
    refine (hr.boundsRejections extends_finite ho ht hsafe ?_).begunAt _
    intro e he rg s' hs'
    obtain ⟨p, hp⟩ := hreal e (List.mem_cons_of_mem _ he)
    exact isReal_of_start hp (haccepted e he) hs'
  | _ => exact boundsRejections_of_nil rfl

/-- **Headline.** With options that are accepted and at real points, every course bounds its
rejections, whatever its trials are evaluated to and whatever its budgets are. -/
theorem optimize_boundsRejections {given : Options (Setting Extended)}
    {o' : Options (Number Extended)} (hc : Options.check given = .ok o') {o : Options ℝ}
    (hvalues : o'.values = o.map finite) (P : Problem σ Extended m n) (w : σ)
    (hreal : ∀ e ∈ (optimize o' P w).standpoints, ∃ p : Vec ℝ n, e.point = p.map finite) :
    (optimize o' P w).toRun.BoundsRejections finite o :=
  (courses_optimize o' P w).boundsRejections (bounds_of_check extends_finite hc hvalues) hvalues
    hreal

/-! ## An example

The line at `1`, with the observation `1`, of a model that is undefined at every other point. The
parameter tolerance is `1`. -/

/-- The model is `0` at the start point. -/
noncomputable def lostLine : Problem Unit Extended 1 1 where
  model := .joint fun p => pure
    (.ofList (p.map fun x => if x == 1 then 0 else Extended.undefined).toList, .ofLists [[1]])
  target := Vec.replicate 1 1
  start := Vec.replicate 1 1
  weight := none
  checker := none
  maxEvaluations := 2
  maxIterations := 1
  deferred := false
  validator := none

/-- Options that stop at a radius within the length of the point. -/
def nearOptions (α : Type) [Scalar α] : Options (Number α) :=
  { exactOptions α with parameterTolerance := .int 1 }

theorem near_values : (nearOptions Extended).values = (nearOptions ℝ).values.map finite := by
  unfold Options.values Options.map nearOptions exactOptions Number.value
  simp only [map_ofInt extends_finite]

/-- What is known at a point. -/
noncomputable def lostAt (p : Vec Extended 1) : Evaluation Extended 1 1 :=
  ⟨p, p.map fun x => 1 - if x == 1 then 0 else Extended.undefined, Mat.ofFn fun _ _ => 1⟩

theorem lost_evaluation (p : Vec Extended 1) :
    (lostLine.evaluation p).after () = (.ok (lostAt p), ()) := by
  have hcall : (lostLine.model.call p).after () =
      (.ok (.ofList (p.map fun x => if x == 1 then 0 else Extended.undefined).toList,
        .ofLists [[1]]), ()) := rfl
  have hresiduals : lostLine.residuals
      (p.map fun x => if x == 1 then 0 else Extended.undefined) = (lostAt p).residuals :=
    Vec.ext fun i => by
      simp [Problem.residuals, lostLine, lostAt, Vec.replicate_apply, Vec.map_apply]
  rw [lostLine.evaluation_of_validator rfl]
  unfold Problem.compute
  simp only [Act.after_bind, Act.after_mapError, hcall, Except.mapError, Act.after_ofExcept,
    Nested.vector_ofList, matrix_singleton, Act.after_pure, hresiduals]
  rfl

/-- What is known at the start point. -/
noncomputable def keptStart : Evaluation ℝ 1 1 := { lineStart with point := Vec.replicate 1 1 }

theorem lostAt_start : lostAt lostLine.start = keptStart.map finite := by
  have hone : (1 - if (1 : Extended) == 1 then 0 else Extended.undefined) = finite 1 := by
    have htest : ((1 : Extended) == 1) = true := decide_eq_true rfl
    rw [if_pos htest]
    exact congrArg finite (sub_zero 1)
  unfold lostAt keptStart lineStart lostLine Evaluation.map
  simp only [Vec.map_replicate, Mat.map_ofFn, hone]
  rfl

/-- Only the start point costs a finite amount. -/
theorem eq_start_of_cost {p : Vec Extended 1} (hf : isFinite (lostAt p).cost = true) :
    p = lostLine.start := by
  refine Vec.ext fun i => ?_
  have hresidual := isFinite_residual hf i
  rw [lostAt, Vec.map_apply] at hresidual
  rw [lostLine, Vec.replicate_apply]
  split_ifs at hresidual with htest
  · cases hp : p i with
    | finite x =>
      rw [hp] at htest
      exact congrArg finite (of_decide_eq_true htest)
    | _ =>
      rw [hp] at htest
      cases htest
  · cases hresidual

/-- The first search, at a point of length one, with the first radius. -/
theorem exists_lost_start {o : Options ℝ} (hthreshold : o.rankingThreshold = 0)
    (htolerance : o.orthogonalityTolerance = 0) : ∃ s : Search ℝ 1 1,
    Search.start o (.ofEvaluation keptStart) Region.initial = .ok s ∧
      Search.start (o.map finite) (.ofEvaluation (lostAt lostLine.start)) Region.initial =
        .ok (s.map finite) ∧
      ¬ (s.map finite).maxCosine ≤ (o.map finite).orthogonalityTolerance ∧
      s.region.length = 1 ∧ s.region.radius = o.initialStepFactor := by
  obtain ⟨d, hd, -⟩ := exists_ofJacobian keptStart.jacobian (le_refl (0 : ℝ))
  have hdecomposed : ofJacobian (Standing.ofEvaluation keptStart).evaluation.jacobian
      o.rankingThreshold = .ok d := by
    rw [hthreshold]
    exact hd
  have hnorm : d.columnNorm 0 = 1 :=
    (ofJacobian_columnNorm hd 0).trans (by simp [keptStart, lineStart])
  obtain ⟨hradius, hlength, -, -⟩ := first_region hnorm o (s := .ofEvaluation keptStart)
    (.inr (Vec.replicate_apply _ 0))
  refine ⟨Search.ofDecomposition o (.ofEvaluation keptStart) Region.initial d, ?_, ?_, ?_,
    hlength.trans (Vec.replicate_apply _ 0), hradius⟩
  · rw [Search.start_eq, hdecomposed]
    rfl
  · rw [lostAt_start, map_ofEvaluation extends_finite, map_initial extends_finite]
    exact start_map extends_finite hthreshold.ge hdecomposed
  · intro hle
    have hle' := (extends_finite.le_iff _ _).mp hle
    rw [htolerance] at hle'
    exact line_cosine hd (hle'.trans_eq Nat.cast_zero.symm)

theorem near_factor : (nearOptions Extended).values.initialStepFactor.NotNegative := by
  rw [near_values]
  exact notNegative_finite.mpr (Nat.cast_nonneg 100)

theorem lost_start_finite : isFinite (lostAt lostLine.start).cost = true := by
  rw [lostAt_start, cost_map extends_finite]
  rfl

/-- No trial at the first search is accepted: only the start point costs a finite amount. -/
theorem lost_isAccepted {o : Options Extended} (ho : o.initialStepFactor.NotNegative)
    {s : Search Extended 1 1}
    (hs : Search.start o (.ofEvaluation (lostAt lostLine.start)) Region.initial = .ok s) :
    (s.assess s.propose (lostAt s.propose.point)).isAccepted = false := by
  by_contra ha
  obtain ⟨hf, hlt⟩ := (first_grounded ho lost_start_finite hs).of_isAccepted
    ((Bool.not_eq_false _).mp ha)
  obtain ⟨d, -, rfl⟩ := Search.of_start_eq_ok hs
  rw [eq_start_of_cost hf] at hlt
  change (lostAt lostLine.start).cost < (lostAt lostLine.start).cost at hlt
  rw [lostAt_start, cost_map extends_finite, extends_finite.lt_iff] at hlt
  exact lt_irrefl _ hlt

/-- **The first trial is rejected**, under a tolerance that is not zero. -/
theorem exists_lost_first : ∃ (t : Trial Extended 1 1) (s : Search ℝ 1 1),
    (optimize (nearOptions Extended) lostLine ()).firstOf 1 = some t ∧ t.isRejected = true ∧
      t.search = s.map finite ∧
        0 < (nearOptions ℝ).values.parameterTolerance * s.region.length := by
  obtain ⟨s, -, hs, hcosine, hlength, -⟩ := exists_lost_start (o := (nearOptions ℝ).values)
    Nat.cast_zero Nat.cast_zero
  rw [← near_values] at hs hcosine
  obtain ⟨v, hhead⟩ := exists_first_trial le_rfl le_rfl (lost_evaluation _) lost_start_finite hs
    hcosine (lost_evaluation _)
  obtain ⟨ts, hts⟩ := List.head?_eq_some_iff.mp hhead
  refine ⟨(s.map finite).trial 1 (lostAt (s.map finite).propose.point) v, s, ?_, ?_, rfl, ?_⟩
  · rw [Run.firstOf, hts]
    rfl
  · rw [trial_isRejected, lost_isAccepted near_factor hs]
    rfl
  · rw [hlength]
    exact mul_pos (Nat.cast_pos.mpr one_pos) one_pos

theorem lost_standpoints : ∀ e ∈ (optimize (nearOptions Extended) lostLine ()).standpoints,
    ∃ p : Vec ℝ 1, e.point = p.map finite := by
  have hco := courses_optimize (nearOptions Extended) lostLine ()
  intro e he
  refine ⟨Vec.replicate 1 1, ?_⟩
  rcases List.mem_append.mp he with he | he
  · obtain ⟨w', hstart⟩ := hco.start_eq (Option.mem_toList.mp he)
    cases (lost_evaluation _).symm.trans hstart
    exact (Vec.map_replicate finite 1).symm
  · obtain ⟨p, w₁, w₂, hp⟩ := hco.accepted_eq he
    have hf := (hco.descends near_factor).accepted_finite e he
    cases (lost_evaluation p).symm.trans hp
    exact (eq_start_of_cost hf).trans (Vec.map_replicate finite 1).symm

theorem optimize_boundsRejections_lost :
    Options.check ((nearOptions Extended).map Setting.number) = .ok (nearOptions Extended) ∧
      (nearOptions Extended).values = (nearOptions ℝ).values.map finite ∧
      (∀ e ∈ (optimize (nearOptions Extended) lostLine ()).standpoints,
        ∃ p : Vec ℝ 1, e.point = p.map finite) ∧
      (optimize (nearOptions Extended) lostLine ()).toRun.BoundsRejections finite
        (nearOptions ℝ).values ∧
      ∃ (t : Trial Extended 1 1) (s : Search ℝ 1 1),
        (optimize (nearOptions Extended) lostLine ()).firstOf 1 = some t ∧ t.isRejected = true ∧
          t.search = s.map finite ∧
            0 < (nearOptions ℝ).values.parameterTolerance * s.region.length := by
  have hc : Options.check ((nearOptions Extended).map Setting.number) =
      .ok (nearOptions Extended) := rfl
  exact ⟨hc, near_values, lost_standpoints,
    optimize_boundsRejections hc near_values lostLine () lost_standpoints, exists_lost_first⟩

end Real

end LeastSquares.LevenbergMarquardt
