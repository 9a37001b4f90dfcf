import Mathlib.Tactic.NormNum
import LeastSquares.Proofs.InnerFailures
import LeastSquares.Proofs.Prediction
import LeastSquares.Proofs.Rejections

/-!
# Tolerances that are out of reach

A run of the trust-region method that fails for a tolerance has tested it first: the run goes on
only while nothing is within the given tolerances, and fails as soon as something is within twice
the precision. So a tolerance of at least twice the precision is never out of reach. The tests for
the cost and for the radius stand next to each other after a trial; the cosine is compared with its
tolerance when an outer iteration begins and with twice the precision after each of its trials.

Results:
* `Search.Pending`: what a run keeps between its trials, the cosine beyond its tolerance among it;
* `Runs.exists_outOfReach`, `Courses.exists_outOfReach`: a failure for a tolerance carries the one
  that was given, and something is beyond it but within twice the precision;
* `Search.OutOfReach.lt_twoEpsilon`: so it is below twice the precision, in exact arithmetic with
  infinities;
* `optimize_outOfReach`: of every course, and none with the standard options.
-/

namespace LeastSquares

variable {α σ : Type} {m n : Nat}

/-! ## Failures for a tolerance -/

namespace Failure

/-- A failure for a tolerance, of whichever kind. -/
def IsTolerance (f : Failure α) : Prop := Category.tolerance ∈ f.category.lineage

instance (f : Failure α) : Decidable f.IsTolerance :=
  inferInstanceAs (Decidable (Category.tolerance ∈ f.category.lineage))

theorem isTolerance_of_category {f : Failure α} {which : Tolerance}
    (h : f.category = which.category) : f.IsTolerance := by
  unfold IsTolerance
  rw [h]
  cases which <;> exact List.mem_of_elem_eq_true rfl

theorem not_isTolerance_of_isInner {f : Failure α} (h : f.isInner) : ¬ f.IsTolerance := by
  cases f with
  | exceeded | tolerance => cases h
  | raised fault => cases fault <;> exact of_decide_eq_true rfl
  | _ => exact of_decide_eq_true rfl

end Failure

theorem Tolerance.category_inj {a b : Tolerance} (h : a.category = b.category) : a = b := by
  cases a <;> cases b <;> first | rfl | cases h

namespace LevenbergMarquardt

/-- The tolerance of a kind among the options. -/
def Options.toleranceOf {κ : Type} (o : Options κ) : Tolerance → κ
  | .cost => o.costTolerance
  | .parameters => o.parameterTolerance
  | .orthogonality => o.orthogonalityTolerance

section Scalar

variable [Scalar α]

theorem Options.values_toleranceOf (o : Options (Number α)) (which : Tolerance) :
    o.values.toleranceOf which = (o.toleranceOf which).value := by
  cases which <;> rfl

/-- Numbers within their bounds are accepted as they are. -/
theorem Options.check_numbers {o : Options (Number α)}
    (hfactor : o.initialStepFactor.isPositive = true)
    (hbounded : ∀ x ∈ o.bounded, x.2.isNonnegative = true) :
    Options.check (o.map Setting.number) = .ok o := by
  have hsetting (setting : Bounded) {x : Number α} (hx : x.isNonnegative = true) :
      checkBounded setting (.number x) = .ok x := if_pos hx
  have hfirst : checkFactor (.number o.initialStepFactor) = .ok o.initialStepFactor :=
    if_pos hfactor
  simp only [bounded, List.forall_mem_cons] at hbounded
  obtain ⟨hcost, hparameter, horthogonality, hranking, -⟩ := hbounded
  unfold check Options.map
  rw [hfirst, hsetting _ hcost, hsetting _ hparameter, hsetting _ horthogonality,
    hsetting _ hranking]
  rfl

/-- An accepted tolerance is not negative. -/
theorem Options.toleranceOf_nonnegative {given : Options (Setting α)} {o : Options (Number α)}
    (hc : Options.check given = .ok o) (which : Tolerance) :
    (o.toleranceOf which).isNonnegative = true := by
  obtain ⟨-, hbounded⟩ := Options.of_check_eq_ok hc
  cases which with
  | cost => exact hbounded (.costTolerance, _) (by simp [Options.bounded])
  | parameters => exact hbounded (.parameterTolerance, _) (by simp [Options.bounded])
  | orthogonality => exact hbounded (.orthogonalityTolerance, _) (by simp [Options.bounded])

/-! ## Trials -/

/-- **A tolerance that is out of reach** after a trial: what it bounds is beyond it, but within twice
the precision. -/
inductive Search.OutOfReach (o : Options α) (s : Search α m n) (e : Evaluation α m n) :
    Tolerance → Prop
  | cost (hbeyond : reductionsWithin (s.assess s.propose e) o.costTolerance = false)
      (hwithin : reductionsWithin (s.assess s.propose e) twoEpsilon = true) : OutOfReach o s e .cost
  | parameters (hbeyond : s.RadiusRemains o e)
      (hwithin : (s.regionAfter s.propose (s.assess s.propose e)).radius ≤
        twoEpsilon * (s.regionAfter s.propose (s.assess s.propose e)).length) :
      OutOfReach o s e .parameters
  | orthogonality (hbeyond : ¬ s.maxCosine ≤ o.orthogonalityTolerance)
      (hwithin : s.maxCosine ≤ twoEpsilon) : OutOfReach o s e .orthogonality

/-- **What a run keeps between its trials**: the largest cosine is beyond its tolerance, and the
length of the point is not negative. -/
structure Search.Pending (N : α → Prop) (o : Options α) (s : Search α m n) : Prop where
  cosine : ¬ s.maxCosine ≤ o.orthogonalityTolerance
  length : N s.region.length

variable {N : α → Prop} {o : Options α} {s s' : Search α m n} {e : Evaluation α m n}
  {v : Option Bool}

/-- A trial that fails does so for a tolerance that is out of reach. -/
theorem Search.Pending.of_outcome_eq_fail (hs : s.Pending N o) {f : Failure α}
    (hn : s.outcome o e v = .fail f) :
    ∃ which, f = .tolerance which (o.toleranceOf which) ∧ s.OutOfReach o e which := by
  unfold Search.outcome Search.next at hn
  simp only at hn
  split at hn
  · cases hn
  split at hn
  · cases hn
  rename_i hbeyond
  rw [Bool.or_eq_true, not_or, Bool.not_eq_true, decide_eq_true_eq] at hbeyond
  split at hn
  · rename_i hwithin
    cases hn
    exact ⟨.cost, rfl, .cost hbeyond.1 hwithin⟩
  split at hn
  · rename_i hwithin
    cases hn
    exact ⟨.parameters, rfl, .parameters hbeyond.2 hwithin⟩
  split at hn
  · rename_i hwithin
    cases hn
    exact ⟨.orthogonality, rfl, .orthogonality hs.cosine hwithin⟩
  split at hn <;> cases hn

/-- A trial that is not accepted fails if its reductions are not within the given tolerance and its
radius is, but only within twice the precision. -/
theorem Search.exists_outcome_eq_fail (ha : (s.assess s.propose e).isAccepted = false)
    (hcost : reductionsWithin (s.assess s.propose e) o.costTolerance = false)
    (hbeyond : s.RadiusRemains o e)
    (hwithin : (s.regionAfter s.propose (s.assess s.propose e)).radius ≤
      twoEpsilon * (s.regionAfter s.propose (s.assess s.propose e)).length) :
    ∃ which, s.outcome o e v = .fail (.tolerance which (o.toleranceOf which)) := by
  unfold Search.outcome Search.next
  simp only [ha, Bool.false_and, Bool.false_eq_true, if_false, hcost, Bool.false_or,
    decide_eq_false hbeyond, if_pos hwithin]
  split
  · exact ⟨.cost, rfl⟩
  · exact ⟨.parameters, rfl⟩

section Signs

variable (h : SignRule N)

include h

theorem Search.regionAfter_length_signed (hs : N s.region.length) (p : Proposal α m n)
    (a : Assessment α m n) : N (s.regionAfter p a).length := by
  unfold Search.regionAfter
  split_ifs
  · exact h.norm _
  · exact hs

theorem Search.start_length_signed {st : Standing α m n} {rg : Region α n} (hrg : N rg.length)
    (hs : Search.start o st rg = .ok s) : N s.region.length := by
  obtain ⟨d, -, rfl⟩ := Search.of_start_eq_ok hs
  unfold Search.ofDecomposition Search.startRegion
  simp only
  split
  · exact h.norm _
  · exact hrg

/-- Another trial of the same outer iteration has the same cosine. -/
theorem Search.Pending.retry (hs : s.Pending N o) (hn : s.outcome o e v = .retry s') :
    s'.Pending N o := by
  obtain ⟨-, -, rfl⟩ := Search.of_outcome_eq_retry hn
  exact ⟨hs.cosine, Search.regionAfter_length_signed h hs.length _ _⟩

/-- The next outer iteration compares its own with the tolerance. -/
theorem Search.Pending.renew (hs : s.Pending N o) {st : Standing α m n} {rg : Region α n}
    (hn : s.outcome o e v = .renew st rg) (hs' : Search.start o st rg = .ok s')
    (hc : ¬ s'.maxCosine ≤ o.orthogonalityTolerance) : s'.Pending N o := by
  obtain ⟨-, -, rfl, rfl⟩ := Search.of_outcome_eq_renew hn
  exact ⟨hc, Search.start_length_signed h (Search.regionAfter_length_signed h hs.length _ _) hs'⟩

/-! ## Runs -/

variable {P : Problem σ α m n} {left used iteration : Nat} {w : σ} {r : Run σ α m n}
  {f : Failure α}

/-- **A run that fails for a tolerance** carries the one that was given, and a pending search of it
had that tolerance out of reach. -/
theorem Runs.exists_outOfReach (hr : Runs o P left used iteration s w r) (hs : s.Pending N o)
    (hf : r.result = .error f) (htolerance : f.IsTolerance) :
    ∃ which, f = .tolerance which (o.toleranceOf which) ∧
      ∃ (s : Search α m n) (e : Evaluation α m n), s.Pending N o ∧ s.OutOfReach o e which := by
  induction hr with
  | exhausted | overdue =>
    cases hf
    exact absurd htolerance (of_decide_eq_true rfl)
  | @failed left used iteration s w f w' he =>
    cases hf
    have hinner := (P.inner_evaluation s.propose.point).of_after_eq he
    exact absurd htolerance (Failure.not_isTolerance_of_isInner hinner)
  | @unanswered left used iteration s w e w₁ f w' he hc =>
    cases hf
    have hinner := (s.inner_consult P iteration e).of_after_eq hc
    exact absurd htolerance (Failure.not_isTolerance_of_isInner hinner)
  | @stuck left used iteration s w e v w' f hj hn =>
    cases hf
    obtain ⟨which, rfl, hreach⟩ := hs.of_outcome_eq_fail hn
    exact ⟨which, rfl, s, e, hs, hreach⟩
  | @undecomposed left used iteration s w e v w' st rg f hj hn hi hstart =>
    cases hf
    have hinner := (Search.inner_start o st rg).of_error f hstart
    exact absurd htolerance (Failure.not_isTolerance_of_isInner hinner)
  | stopped | orthogonal => cases hf
  | retried _ hn _ ih => exact ih (hs.retry h hn) hf
  | renewed _ hn _ hstart hc _ ih => exact ih (hs.renew h hn hstart hc) hf

omit h in
/-- A course that has no budget says so. -/
theorem exists_countNotPositive {o : Options (Number α)}
    (hb : P.maxEvaluations < 1 ∨ P.maxIterations < 1) :
    ∃ x, (optimize o P w).result = .error (.countNotPositive x) := by
  unfold optimize Problem.iterationCounter Problem.evaluationCounter
  by_cases hI : P.maxIterations < 1
  · rw [create_int_of_lt_one _ hI]
    exact ⟨_, rfl⟩
  · rw [Counter.create_int_of_pos _ (by omega), create_int_of_lt_one _ (hb.resolve_right hI)]
    exact ⟨_, rfl⟩

/-- **A course that fails for a tolerance** does so in its run. -/
theorem exists_outOfReach {o : Options (Number α)} (hf : (optimize o P w).result = .error f)
    (htolerance : f.IsTolerance) :
    ∃ which, f = .tolerance which (o.values.toleranceOf which) ∧
      ∃ (s : Search α m n) (e : Evaluation α m n),
        s.Pending N o.values ∧ s.OutOfReach o.values e which := by
  have hc := courses_optimize o P w
  generalize hcourse : optimize o P w = c at hc hf
  cases hc with
  | refused hb f =>
    obtain ⟨x, hx⟩ := exists_countNotPositive (o := o) (w := w) hb
    rw [hcourse] at hx
    cases hf
    cases hx
    exact absurd htolerance (of_decide_eq_true rfl)
  | failed _ _ he =>
    cases hf
    have hinner := (P.inner_evaluation P.start).of_after_eq he
    exact absurd htolerance (Failure.not_isTolerance_of_isInner hinner)
  | infinite =>
    cases hf
    exact absurd htolerance (of_decide_eq_true rfl)
  | undecomposed _ _ _ _ hs =>
    cases hf
    have hinner := (Search.inner_start _ _ _).of_error f hs
    exact absurd htolerance (Failure.not_isTolerance_of_isInner hinner)
  | orthogonal => cases hf
  | begun _ _ _ _ hs hcosine hr =>
    exact hr.exists_outOfReach h ⟨hcosine, Search.start_length_signed h h.zero hs⟩ hf htolerance

end Signs

end Scalar

/-! ## Exact arithmetic with infinities -/

theorem twoEpsilon_eq : (twoEpsilon : ℝ) = 1 / 2 ^ 51 := by
  unfold twoEpsilon Scalar.epsilon
  norm_num

end LevenbergMarquardt

namespace Extended

theorem le_trans {a b c : Extended} (hab : a ≤ b) (hbc : b ≤ c) : a ≤ c := by
  change AtMost a b at hab
  change AtMost b c at hbc
  change AtMost a c
  cases a <;> cases b <;> cases c <;> simp_all [AtMost]
  · exact hab.trans hbc
  · grind

/-- A number at or above zero is defined, so it is below a real number or not. -/
theorem le_of_not_lt {a : Extended} (ha : 0 ≤ a) {x : ℝ} (h : ¬ a < finite x) :
    finite x ≤ a := by
  change AtMost (finite 0) a at ha
  change ¬ Below a (finite x) at h
  change AtMost (finite x) a
  cases a with
  | finite y => exact not_lt.mp h
  | infinite s => exact ha
  | undefined => exact ha

/-- A length times a larger positive number. With an infinite one there need not be a product. -/
theorem le_mul_of_le {x y : ℝ} (hx : 0 < x) (hxy : x ≤ y) {a l : Extended} (hl : l.NotNegative)
    (h : a ≤ finite x * l) : a ≤ finite y * l := by
  cases l with
  | finite z =>
    have hz := notNegative_finite.mp hl
    have hle : finite (x * z) ≤ finite (y * z) := mul_le_mul_of_nonneg_right hxy hz
    exact le_trans h hle
  | infinite s =>
    obtain rfl := notNegative_infinite.mp hl
    have hstretch {x : ℝ} (hx : 0 < x) : finite x * infinite false = infinite false := by
      change stretch false x = _
      unfold stretch
      rw [if_neg hx.ne', decide_eq_false (not_lt.mpr hx.le)]
      rfl
    rw [hstretch hx] at h
    rw [hstretch (hx.trans_le hxy)]
    exact h
  | undefined => exact h

theorem zero_le_value {x : Number Extended} (h : x.isNonnegative = true) : 0 ≤ x.value := by
  cases x with
  | int k =>
    obtain ⟨l, rfl⟩ := Int.eq_ofNat_of_zero_le (of_decide_eq_true h)
    exact Nat.cast_nonneg (α := ℝ) l
  | real x => exact of_decide_eq_true h

end Extended

namespace LevenbergMarquardt

open Extended

variable {o : Options Extended} {s : Search Extended m n} {e : Evaluation Extended m n}

/-- Reductions within a bound are within any larger one. -/
theorem reductionsWithin_of_le {a : Assessment Extended m n} {bound bound' : Extended}
    (hle : bound ≤ bound') (h : Search.reductionsWithin a bound = true) :
    Search.reductionsWithin a bound' = true := by
  unfold Search.reductionsWithin at h ⊢
  simp only [Bool.and_eq_true, decide_eq_true_eq] at h ⊢
  exact ⟨⟨le_trans h.1.1 hle, le_trans h.1.2 hle⟩, h.2⟩

/-- **A tolerance that is out of reach** is below twice the precision, if it is one: at or above
zero and, where it is a factor, finite. -/
theorem Search.OutOfReach.lt_twoEpsilon {which : Tolerance} (h : s.OutOfReach o e which)
    (hs : s.Pending NotNegative o) (hnonneg : 0 ≤ o.toleranceOf which)
    (hfinite : isFinite o.parameterTolerance = true) : o.toleranceOf which < twoEpsilon := by
  rw [twoEpsilon_map extends_finite]
  by_contra hnot
  have hle := le_of_not_lt hnonneg hnot
  cases h with
  | cost hbeyond hwithin =>
    rw [twoEpsilon_map extends_finite] at hwithin
    have hgiven := reductionsWithin_of_le hle hwithin
    exact Bool.false_ne_true (hbeyond.symm.trans hgiven)
  | parameters hbeyond hwithin =>
    rw [twoEpsilon_map extends_finite] at hwithin
    obtain ⟨y, hy⟩ := exists_of_isFinite hfinite
    have hy' : o.toleranceOf .parameters = finite y := hy
    rw [hy'] at hle
    unfold Search.RadiusRemains at hbeyond
    rw [hy] at hbeyond
    refine hbeyond (le_mul_of_le ?_ hle ?_ hwithin)
    · rw [twoEpsilon_eq]
      positivity
    · exact Search.regionAfter_length_signed signRule hs.length _ _
  | orthogonality hbeyond hwithin =>
    rw [twoEpsilon_map extends_finite] at hwithin
    exact hbeyond (le_trans hwithin hle)

/-! ## All courses -/

/-- **A course that fails for a tolerance** carries one that was given below twice the precision. -/
theorem toleranceOf_lt {given : Options (Setting Extended)} {o : Options (Number Extended)}
    (hc : Options.check given = .ok o)
    (hfinite : isFinite o.values.parameterTolerance = true) {P : Problem σ Extended m n} {w : σ}
    {f : Failure Extended} (hf : (optimize o P w).result = .error f) (htolerance : f.IsTolerance) :
    ∃ which, f = .tolerance which (o.values.toleranceOf which) ∧
      o.values.toleranceOf which < twoEpsilon := by
  obtain ⟨which, rfl, s, e, hs, hreach⟩ := exists_outOfReach signRule hf htolerance
  have hnonneg : 0 ≤ o.values.toleranceOf which := by
    rw [Options.values_toleranceOf]
    exact zero_le_value (Options.toleranceOf_nonnegative hc which)
  exact ⟨which, rfl, hreach.lt_twoEpsilon hs hnonneg hfinite⟩

/-- The standard options are accepted. -/
theorem check_standard : Options.check (Options.standard.map Setting.number) =
    (.ok Options.standard : Except (Failure Extended) (Options (Number Extended))) := by
  have hmap {x : ℝ} (hx : 0 < x) :
      (Number.real (finite x)).isPositive = true ∧ (Number.real (finite x)).isNonnegative = true :=
    ⟨decide_eq_true hx, decide_eq_true hx.le⟩
  have htolerance := (hmap (x := 1e-10) (by norm_num)).2
  refine Options.check_numbers (hmap (x := 100.0) (by norm_num)).1 fun x hx => ?_
  simp only [Options.bounded, List.mem_cons, List.not_mem_nil, or_false] at hx
  rcases hx with rfl | rfl | rfl | rfl
  · exact htolerance
  · exact htolerance
  · exact htolerance
  · have hleast := (hmap Exact.leastNormal_pos).2
    rw [← extends_finite.leastNormal] at hleast
    exact hleast

/-- Their tolerances are not below twice the precision. -/
theorem not_standard_lt (which : Tolerance) :
    ¬ (Options.standard : Options (Number Extended)).values.toleranceOf which < twoEpsilon := by
  have htolerance : (Options.standard : Options (Number Extended)).values.toleranceOf which =
      finite 1e-10 := by
    cases which <;> rfl
  rw [htolerance, twoEpsilon_map extends_finite, extends_finite.lt_iff, twoEpsilon_eq]
  norm_num

/-- **Headline.** With options that are accepted and a finite parameter tolerance, a course of any
problem fails for a tolerance only if it was given below twice the precision, and says which one it
was given. With the standard options it never does. An infinite parameter tolerance times a point
of length zero is undefined, so it would bound no radius. -/
theorem optimize_outOfReach {given : Options (Setting Extended)} {o : Options (Number Extended)}
    (hc : Options.check given = .ok o)
    (hfinite : isFinite o.values.parameterTolerance = true) (P : Problem σ Extended m n) (w : σ) :
    (∀ f which, (optimize o P w).result = .error f → f.category = which.category →
        f = .tolerance which (o.values.toleranceOf which) ∧
          o.values.toleranceOf which < twoEpsilon) ∧
      (∀ f, (optimize o P w).result = .error f → f.IsTolerance →
        ∃ which : Tolerance, f.category = which.category) ∧
      ∀ f, (optimize Options.standard P w).result = .error f → ¬ f.IsTolerance := by
  refine ⟨?_, ?_, ?_⟩
  · intro f which hf hcategory
    obtain ⟨which', rfl, hlt⟩ :=
      toleranceOf_lt hc hfinite hf (Failure.isTolerance_of_category hcategory)
    obtain rfl : which' = which := Tolerance.category_inj hcategory
    exact ⟨rfl, hlt⟩
  · intro f hf htolerance
    obtain ⟨which, rfl, -⟩ := toleranceOf_lt hc hfinite hf htolerance
    exact ⟨which, rfl⟩
  · intro f hf htolerance
    obtain ⟨which, -, hlt⟩ := toleranceOf_lt check_standard rfl hf htolerance
    exact not_standard_lt which hlt

/-! ## A rejected trial that fails -/

/-- A step that gains something has a length. -/
theorem Search.Poised.length_pos {s : Search ℝ m n} (h : s.Poised) (hs : s.Safe) :
    0 < s.propose.length := by
  refine lt_of_le_of_ne (Exact.norm_nonneg _) fun hzero => ?_
  have hsum : ∑ c, (s.region.scaling c * s.propose.step c) *
      (s.region.scaling c * s.propose.step c) = 0 := by
    rw [← h.length_sq, show s.propose.length = 0 from hzero.symm, sq, mul_zero]
  have hstep : s.propose.step.get = 0 := funext fun c => by
    have hterm := (Finset.sum_eq_zero_iff_of_nonneg fun c _ => mul_self_nonneg _).mp hsum c
      (Finset.mem_univ c)
    exact (mul_eq_zero.mp (mul_self_eq_zero.mp hterm)).resolve_left (h.scaling_pos c).ne'
  have hgain := h.gain_pos hs
  rw [hstep, Matrix.mulVec_zero, zero_dotProduct, show s.propose.length = 0 from hzero.symm] at hgain
  simp at hgain

section Image

variable {β : Type} [Scalar β] {ι : ℝ → β} (h : Extends ι) {s : Search ℝ m n}

include h

/-- Whatever a trial is evaluated to, it leaves a positive radius. -/
theorem Search.Safe.exists_radius_pos (hs : s.Safe) (hlength : 0 < s.propose.length)
    (e : Evaluation β m n) : ∃ radius : ℝ, 0 < radius ∧
      ((s.map ι).regionAfter (s.map ι).propose
        ((s.map ι).assess (s.map ι).propose e)).radius = ι radius := by
  obtain ⟨x, hj⟩ := hs.judged h e
  generalize (s.map ι).assess (s.map ι).propose e = a at hj
  have hafter : ((s.map ι).regionAfter (s.map ι).propose a).radius =
      (a.adjust (s.map ι).propose (s.map ι).standing.cost).1 := by
    unfold Search.regionAfter
    split_ifs <;> rfl
  have hproposed : 0 < s.propose.radius := by
    change 0 < if s.region.fresh then Scalar.smaller s.region.radius s.propose.length
      else s.region.radius
    split_ifs
    · rw [Exact.smaller_eq]
      exact lt_min hs.region.radius_pos hlength
    · exact hs.region.radius_pos
  obtain ⟨f, hf, -, hfactor⟩ := hj.shrinkFactor
  have hpos : 0 < f := lt_of_lt_of_le (by norm_num) hf
  have hradius : (s.propose.map ι).radius = ι s.propose.radius := rfl
  have hlength' : (s.propose.map ι).length = ι s.propose.length := rfl
  rw [hafter, hs.propose_map h]
  unfold Assessment.adjust
  simp only [hfactor, hradius, hlength', ← h.scientific, ← h.mul, h.smaller, Exact.smaller_eq]
  split_ifs
  · exact ⟨_, mul_pos hpos (lt_min hproposed (mul_pos (by norm_num) hlength)), rfl⟩
  · exact ⟨_, mul_pos (by norm_num) hlength, rfl⟩
  · exact ⟨_, hproposed, rfl⟩

/-- Whatever a trial is evaluated to, what was predicted of it is the same. -/
theorem Search.Safe.assess_predicted_eq (hs : s.Safe) (e : Evaluation β m n)
    (e' : Evaluation ℝ m n) : ((s.map ι).assess (s.map ι).propose e).predicted =
      ι (s.assess s.propose e').predicted := by
  rw [hs.propose_map h]
  obtain ⟨y, hy⟩ := assess_actual h hs.cost_ne (s.propose.map ι) e
  have hreductions : ((s.map ι).assess (s.propose.map ι) e).reductions =
      (s.reductionsFrom s.propose y).map ι := by
    rw [Search.assess_reductions, hy, reductionsFrom_map h hs.cost_ne]
  exact congrArg Reductions.predicted hreductions

end Image

/-! ## An example

The line that is undefined away from its start point, without any tolerance: its first trial leaves
a radius within twice the precision. -/

/-- Options without any tolerance that begin with a radius of about the precision. -/
def narrowOptions (α : Type) [Scalar α] : Options (Number α) :=
  { exactOptions α with initialStepFactor := .real 4e-16 }

theorem narrow_values : (narrowOptions Extended).values = (narrowOptions ℝ).values.map finite := by
  unfold Options.values Options.map narrowOptions exactOptions Number.value
  simp only [map_ofInt extends_finite]
  rfl

theorem narrow_regular : (narrowOptions ℝ).values.Regular where
  threshold_eq := Nat.cast_zero
  factor_pos := by
    change (0 : ℝ) < 4e-16
    norm_num
  parameter_nonneg := Nat.cast_nonneg 0
  orthogonality_nonneg := Nat.cast_nonneg 0

theorem narrow_check : Options.check ((narrowOptions Extended).map Setting.number) =
    .ok (narrowOptions Extended) := by
  have hfactor : (0 : ℝ) < 4e-16 := by norm_num
  refine Options.check_numbers (decide_eq_true hfactor) fun x hx => ?_
  simp only [Options.bounded, List.mem_cons, List.not_mem_nil, or_false] at hx
  rcases hx with rfl | rfl | rfl | rfl <;> rfl

/-- The first search. -/
theorem exists_narrow_start : ∃ s : Search ℝ 1 1,
    Search.start (narrowOptions Extended).values (.ofEvaluation (lostAt lostLine.start))
        Region.initial = .ok (s.map finite) ∧
      ¬ (s.map finite).maxCosine ≤ (narrowOptions Extended).values.orthogonalityTolerance ∧
      s.Poised ∧ s.Safe ∧ s.region.length = 1 ∧ s.region.radius = 4e-16 := by
  obtain ⟨s, hreal, hs, hcosine, hlength, hradius⟩ :=
    exists_lost_start narrow_regular.threshold_eq Nat.cast_zero
  have hsafe : s.Safe := .first narrow_regular.bounds hreal fun hle =>
    hcosine ((extends_finite.le_iff _ _).mpr hle)
  rw [← narrow_values] at hs hcosine
  exact ⟨s, hs, hcosine, Reached.poised narrow_regular (.first hreal), hsafe, hlength, hradius⟩

theorem narrow_factor : (narrowOptions Extended).values.initialStepFactor.NotNegative := by
  rw [narrow_values]
  exact notNegative_finite.mpr narrow_regular.factor_pos.le

/-- **The first trial fails.** -/
theorem exists_narrow_outcome {s : Search ℝ 1 1} (hposed : s.Poised) (hsafe : s.Safe)
    (hlength : s.region.length = 1) (hradius : s.region.radius = 4e-16)
    (hs : Search.start (narrowOptions Extended).values (.ofEvaluation (lostAt lostLine.start))
        Region.initial = .ok (s.map finite)) :
    ∃ which, (s.map finite).outcome (narrowOptions Extended).values
        (lostAt (s.map finite).propose.point) none =
      .fail (.tolerance which ((narrowOptions Extended).values.toleranceOf which)) := by
  have hrejected := lost_isAccepted narrow_factor hs
  generalize lostAt (s.map finite).propose.point = e at hrejected
  obtain ⟨factor, radius, -, ⟨-, hhalf⟩, hregion⟩ :=
    hsafe.regionAfter_rejected extends_finite hrejected
  have hpos : 0 < radius := by
    obtain ⟨radius', hpos, heq⟩ :=
      hsafe.exists_radius_pos extends_finite (hposed.length_pos hsafe) e
    rw [hregion] at heq
    exact hpos.trans_eq ((extends_finite.eq_iff _ _).mp heq).symm
  have hle : radius ≤ twoEpsilon * s.region.length := by
    have hcut := propose_radius_le s
    rw [hlength, twoEpsilon_eq]
    rw [hradius] at hcut
    norm_num at hcut ⊢
    linarith
  refine Search.exists_outcome_eq_fail hrejected ?_ ?_ ?_
  · have hpredicted := (hposed.predicts hsafe s.base).predicted_pos
    unfold Search.reductionsWithin
    rw [hsafe.assess_predicted_eq extends_finite e s.base, narrow_values]
    have hnot : ¬ finite (s.assess s.propose s.base).predicted ≤
        ((narrowOptions ℝ).values.map finite).costTolerance := by
      change ¬ (s.assess s.propose s.base).predicted ≤ (narrowOptions ℝ).values.costTolerance
      rw [not_le, show (narrowOptions ℝ).values.costTolerance = 0 from Nat.cast_zero]
      exact hpredicted
    rw [decide_eq_false hnot, Bool.and_false, Bool.false_and]
  · unfold Search.RadiusRemains
    rw [hregion, narrow_values]
    change ¬ radius ≤ (narrowOptions ℝ).values.parameterTolerance * s.region.length
    rw [not_le, show (narrowOptions ℝ).values.parameterTolerance = 0 from Nat.cast_zero, zero_mul]
    exact hpos
  · rw [hregion, twoEpsilon_map extends_finite]
    exact hle

theorem exists_narrow_failure : ∃ which,
    (optimize (narrowOptions Extended) lostLine ()).result =
      .error (.tolerance which ((narrowOptions Extended).values.toleranceOf which)) := by
  obtain ⟨s, hs, hcosine, hposed, hsafe, hlength, hradius⟩ := exists_narrow_start
  obtain ⟨which, houtcome⟩ := exists_narrow_outcome hposed hsafe hlength hradius hs
  have hjudged : Judges lostLine 1 (s.map finite) () (lostAt (s.map finite).propose.point) none () :=
    (judges_iff_of_checker rfl).mpr ⟨lost_evaluation _, rfl⟩
  have hcourse := Courses.begun (o := narrowOptions Extended)
    (show lostLine.maxEvaluations = (1 : Nat) + 1 from rfl) le_rfl (lost_evaluation _)
    lost_start_finite hs hcosine (.stuck hjudged houtcome)
  rw [← hcourse.eq_optimize (by decide) le_rfl]
  exact ⟨which, rfl⟩

theorem optimize_outOfReach_lost :
    Options.check ((narrowOptions Extended).map Setting.number) = .ok (narrowOptions Extended) ∧
      isFinite (narrowOptions Extended).values.parameterTolerance = true ∧
      ∃ f which, (optimize (narrowOptions Extended) lostLine ()).result = .error f ∧
        f.category = which.category ∧
          f = .tolerance which ((narrowOptions Extended).values.toleranceOf which) ∧
            (narrowOptions Extended).values.toleranceOf which < twoEpsilon := by
  obtain ⟨which, hf⟩ := exists_narrow_failure
  obtain ⟨hraised, -, -⟩ := optimize_outOfReach narrow_check rfl lostLine ()
  exact ⟨narrow_check, rfl, _, which, hf, rfl, hraised _ which hf rfl⟩

end LevenbergMarquardt

end LeastSquares
