import LeastSquares.Proofs.Columns
import LeastSquares.Proofs.Cut
import LeastSquares.Proofs.OneStep
import LeastSquares.Proofs.SafeRun

/-!
# No trial is rejected on an affine problem

The trust-region method on an affine model in exact arithmetic, for independent weighted columns and
without validator and checker. The residuals of such a problem are those of the linear model of
every trial, so both reductions of a trial are the same number and its ratio is one. Then the region
widens at every trial: the step is not shorter than nine tenths of the radius if it is damped, and
the next radius is twice its length.

Results:
* `FullRank.length_ge`: a search that ends with a damped direction ends on the long side;
* `SolvesDamped.residuals_sq`: by how much a damped step reduces the squared residuals;
* `Search.AtAffine.law`: one trial, `Runs.straight`: all trials of a run;
* `optimize_affineTrials`: so the iterations of a run are its trials, and what it returns has one
  evaluation for each of them besides that of the start.
-/

namespace LeastSquares

open Matrix

variable {σ : Type} {m n p : Nat}

namespace Decomposition

/-- **A search that damps ends on the long side**, not below nine tenths of the radius. -/
theorem FullRank.length_ge {d : Decomposition ℝ m n} {hm : p ≤ m} {hn : p ≤ n} {qy : Vec ℝ m}
    {D : Vec ℝ n} {δ initial : ℝ} (h : FullRank p d) (hD : ∀ c, 0 < D c) (hδ : 0 < δ)
    (hl : (d.parameter hm hn qy δ D initial).lambda ≠ 0) :
    9 / 10 * δ ≤ d.scaledLength hn D (d.parameter hm hn qy δ D initial).direction := by
  by_cases hfit : SignRule.undampedExcess d hn qy δ D ≤ 0.1 * δ
  · rw [parameter_eq, if_pos hfit] at hl
    exact absurd rfl hl
  · have hlong : δ < norm (Damped.scaled (d.gather hn D) ((d.undamped qy).take hn)) := by
      unfold SignRule.undampedExcess at hfit
      linarith
    have htoo : TooLong hm hn d qy D δ := ⟨h, hD, hδ, hlong⟩
    obtain ⟨root, hroot, hle⟩ := htoo.exists_isRoot
    rw [parameter_eq, if_neg hfit]
    exact (hroot.approaches (htoo.brackets_start hroot hle initial)).length_ge

end Decomposition

/-- **The reduction by a step** whose product with the gradient is the square of its image and what
the damping holds back. -/
theorem residuals_sq_of_product {J : Mat ℝ m n} {r : Fin m → ℝ} {x : Fin n → ℝ} {held : ℝ}
    (h : x ⬝ᵥ (J.toMatrixᵀ *ᵥ r) = (J.toMatrix *ᵥ x) ⬝ᵥ (J.toMatrix *ᵥ x) + held) :
    (r - J.toMatrix *ᵥ x) ⬝ᵥ (r - J.toMatrix *ᵥ x) = r ⬝ᵥ r -
      ((J.toMatrix *ᵥ x) ⬝ᵥ (J.toMatrix *ᵥ x) + 2 * held) := by
  rw [dotProduct_mulVec, vecMul_transpose] at h
  rw [sub_dotProduct, dotProduct_sub, dotProduct_sub,
    dotProduct_comm r (J.toMatrix *ᵥ x)]
  linarith

/-- **The reduction by a damped step**: what the linear model gains and twice what the damping
holds back. -/
theorem SolvesDamped.residuals_sq {J : Mat ℝ m n} {D : Vec ℝ n} {lambda : ℝ} {r : Fin m → ℝ}
    {x : Fin n → ℝ} (h : SolvesDamped J D lambda (J.toMatrixᵀ *ᵥ r) x) :
    (r - J.toMatrix *ᵥ x) ⬝ᵥ (r - J.toMatrix *ᵥ x) = r ⬝ᵥ r -
      ((J.toMatrix *ᵥ x) ⬝ᵥ (J.toMatrix *ᵥ x) +
        2 * (lambda * ∑ c, (D c * x c) * (D c * x c))) :=
  residuals_sq_of_product (h.dot_eq x)

/-- Without damping these are the normal equations. -/
theorem SolvesDamped.normal {J : Mat ℝ m n} {D : Vec ℝ n} {b x : Fin n → ℝ}
    (h : SolvesDamped J D 0 b x) : J.toMatrixᵀ *ᵥ (J.toMatrix *ᵥ x) = b := by
  rw [← Mat.gram_mulVec]
  funext c
  rw [← h c, zero_mul, zero_mul, add_zero]

/-- There are no more independent columns than rows. -/
theorem le_rows_of_independent {J : Matrix (Fin m) (Fin n) ℝ} (hJ : LinearIndependent ℝ J.col) :
    n ≤ m := by
  simpa using hJ.fintype_card_le_finrank

namespace LevenbergMarquardt

open Decomposition

/-! ## The stop -/

/-- A run that stops without a verdict does so by the reductions or by the radius. -/
theorem Search.reduced_of_stop {α : Type} [Scalar α] {s : Search α m n} {o : Options α}
    {e e' : Evaluation α m n} (h : s.outcome o e none = .stop e') :
    Search.reductionsWithin (s.assess s.propose e) o.costTolerance = true ∨
      ¬ s.RadiusRemains o e := by
  by_contra hnot
  obtain ⟨hreductions, hradius⟩ := not_or.mp hnot
  unfold Search.outcome Search.next at h
  have hremains : s.RadiusRemains o e := not_not.mp hradius
  simp only [Option.none_beq_some, Bool.and_false, Bool.false_eq_true, if_false,
    (Bool.not_eq_true _).mp hreductions, Bool.false_or, decide_eq_true_eq] at h
  rw [if_neg hremains] at h
  split_ifs at h

/-! ## One trial -/

variable {P : Problem σ ℝ m n} {A : Mat ℝ m n} {b : Vec ℝ m} {o : Options ℝ} {s : Search ℝ m n}

/-- **The law of a trial on an affine problem** that was evaluated, with its assessment `a`. -/
structure AffineLaw (P : Problem σ ℝ m n) (A : Mat ℝ m n) (b : Vec ℝ m) (t : Trial ℝ m n)
    (a : Assessment ℝ m n) : Prop where
  progress_eq : t.progress = .made a none
  evaluation_eq : a.evaluation = P.affineAt A b t.proposal.point
  accepted : a.isAccepted = true
  actual_eq : a.actual = a.predicted
  predicted_pos : 0 < a.predicted
  ratio_eq : a.ratio = 1
  /-- Without damping it lands on the one least-squares solution. -/
  least : t.proposal.lambda = 0 → ∀ q, q ≠ t.proposal.point →
    a.evaluation.cost < (P.affineAt A b q).cost
  /-- With damping the next radius is almost twice the one it was given. -/
  radius_ge : t.proposal.lambda ≠ 0 →
    9 / 5 * t.search.region.radius ≤ (t.search.regionAfter t.proposal a).radius

/-- A search on an affine problem that did not stop before its first trial. -/
structure Search.AtAffine (P : Problem σ ℝ m n) (A : Mat ℝ m n) (b : Vec ℝ m)
    (s : Search ℝ m n) : Prop where
  poised : s.Poised
  rank : FullRank (min m n) s.decomposition
  base_eq : s.base = P.affineAt A b s.standing.point
  cost_eq : s.standing.cost = (P.affineAt A b s.standing.point).cost
  cost_pos : 0 < s.standing.cost
  moment_ne : s.base.jacobian.transposeMulVec s.base.residuals ≠ Vec.replicate n 0

theorem cost_sq (e : Evaluation ℝ m n) : e.cost ^ 2 = e.residuals.get ⬝ᵥ e.residuals.get :=
  Exact.norm_sq e.residuals

/-- What a search on an affine problem begins as. -/
theorem atAffine_start (hJ : LinearIndependent ℝ (P.jacobian A).toMatrix.col)
    (ht : o.rankingThreshold = 0) (hτ : 0 ≤ o.orthogonalityTolerance) {point : Vec ℝ n}
    {rg : Region ℝ n}
    (hs : Search.start o (.ofEvaluation (P.affineAt A b point)) rg = .ok s) (hpoised : s.Poised)
    (hc : ¬ s.maxCosine ≤ o.orthogonalityTolerance) : s.AtAffine P A b := by
  obtain ⟨d, hd, rfl⟩ := Search.of_start_eq_ok hs
  rw [ht] at hd
  have hf := factored_ofJacobian le_rfl hd
  have hrank : d.rank = min m n := (hf.rank_eq fun v => eq_zero_of_mulVec hJ).trans
    (min_eq_right (le_rows_of_independent hJ)).symm
  obtain ⟨hcost, k, hk⟩ := ne_of_largestCosine hτ hc
  refine ⟨hpoised, hf.fullRank le_rfl hrank, rfl, rfl, ?_, fun h0 => hk ?_⟩
  · exact lt_of_le_of_ne (Real.sqrt_nonneg _) (Ne.symm hcost)
  · rw [(represents_writeDiagonal hf hrank.le _ _ _).gradient_eq, ← Mat.transposeMulVec_eq]
    have hzero := congrArg (fun v : Vec ℝ n => v (d.order (k.castLE (Nat.min_le_right m n)))) h0
    exact neg_eq_zero.mpr (hzero.trans (Vec.replicate_apply _ _))

section Trial

variable (h : s.AtAffine P A b) (hJ : LinearIndependent ℝ (P.jacobian A).toMatrix.col)

include h

theorem Search.AtAffine.jacobian_eq : s.base.jacobian = P.jacobian A := by
  rw [h.base_eq]
  rfl

/-- A trial that is evaluated elsewhere and rejected leaves the search on the problem. -/
theorem Search.AtAffine.retry {s' : Search ℝ m n} {e : Evaluation ℝ m n} {v : Option Bool}
    (hn : s.outcome o e v = .retry s') (hs' : s'.Poised) : s'.AtAffine P A b := by
  obtain ⟨-, hlt, rfl⟩ := Search.of_outcome_eq_retry hn
  have ha : (s.assess s.propose e).isAccepted = false := decide_eq_false (not_le.mpr hlt)
  have hbase : s.standing.evaluation = s.base := congrArg Standing.evaluation h.poised.stands
  have hstanding : s.standingAfter (s.assess s.propose e) = s.standing := by
    rw [Search.standingAfter, ha, ← hbase]
    rfl
  have hcost := congrArg Standing.cost hstanding
  have hpoint := congrArg Standing.point hstanding
  exact {
    poised := hs'
    rank := h.rank.agrees (propose_agrees h.poised.written)
    base_eq := hpoint ▸ h.base_eq
    cost_eq := hcost.trans (hpoint ▸ h.cost_eq)
    cost_pos := hcost ▸ h.cost_pos
    moment_ne := h.moment_ne }

/-- The residuals after a step. -/
theorem Search.AtAffine.residuals_eq :
    (P.affineAt A b s.propose.point).residuals.get =
      s.base.residuals.get - s.base.jacobian.toMatrix *ᵥ s.propose.step.get := by
  have hpoint : s.propose.point.get = s.standing.point.get + s.propose.step.get :=
    Problem.add_get _ _
  rw [P.residuals_affineAt A b s.standing.point, hpoint, add_sub_cancel_left, h.jacobian_eq,
    h.base_eq]

include hJ

theorem Search.AtAffine.step_solves :
    SolvesDamped s.base.jacobian s.region.scaling s.propose.lambda
      (s.base.jacobian.toMatrixᵀ *ᵥ s.base.residuals.get) s.propose.step.get := by
  rw [← Mat.transposeMulVec_get]
  exact h.poised.step_solves (le_rows_of_independent hJ)

/-- **The squared cost** after a step, less by what the linear model promises. -/
theorem Search.AtAffine.cost_sq_eq :
    (P.affineAt A b s.propose.point).cost ^ 2 = s.standing.cost ^ 2 -
      (dot (Search.linearModel s.propose) (Search.linearModel s.propose) +
        2 * (s.propose.lambda * s.propose.length * s.propose.length)) := by
  have hstep := (h.step_solves hJ).residuals_sq
  rw [← h.residuals_eq, ← cost_sq, ← h.poised.change_eq, ← h.poised.length_sq] at hstep
  have hbase : s.base.residuals.get ⬝ᵥ s.base.residuals.get = s.standing.cost ^ 2 := by
    rw [h.cost_eq, cost_sq, h.base_eq]
  rw [hstep, hbase]
  ring

/-- The linear model promises something: the step is not zero. -/
theorem Search.AtAffine.change_pos :
    0 < dot (Search.linearModel s.propose) (Search.linearModel s.propose) := by
  rw [h.poised.change_eq]
  refine lt_of_le_of_ne (Exact.dotProduct_self_nonneg _) fun h0 => h.moment_ne ?_
  have hzero : s.propose.step.get = 0 := by
    refine eq_zero_of_mulVec hJ ?_
    rw [← h.jacobian_eq]
    exact dotProduct_self_eq_zero.mp h0.symm
  refine Vec.ext fun c => ?_
  rw [← h.poised.step_solves (le_rows_of_independent hJ) c, hzero, Vec.replicate_apply]
  simp

/-- **The two reductions are one number**, which is positive. -/
theorem Search.AtAffine.reductions :
    let a := s.assess s.propose (P.affineAt A b s.propose.point)
    a.actual = a.predicted ∧ 0 < a.predicted ∧ a.ratio = 1 := by
  intro a
  set c := s.standing.cost
  set cost := (P.affineAt A b s.propose.point).cost
  set change := dot (Search.linearModel s.propose) (Search.linearModel s.propose)
  set held := s.propose.lambda * s.propose.length * s.propose.length
  have hc : 0 < c := h.cost_pos
  have hchange : 0 < change := h.change_pos hJ
  have hheld : 0 ≤ held := by
    have hlength : 0 ≤ s.propose.length := Exact.norm_nonneg _
    exact mul_nonneg (mul_nonneg h.poised.lambda_ge hlength) hlength
  have hsq : cost ^ 2 = c ^ 2 - (change + 2 * held) := h.cost_sq_eq hJ
  have hle : cost ≤ c := le_of_sq_le_sq (by linarith) hc.le
  have hactual : a.actual = 1 - cost / c * (cost / c) := if_pos (by linarith)
  have hpredicted : a.predicted = (change + 2 * held) / c ^ 2 := by
    change change / (c * c) + 2.0 * (held / (c * c)) = _
    rw [show (2.0 : ℝ) = 2 by norm_num]
    ring
  have heq : a.actual = a.predicted := by
    rw [hactual, hpredicted, eq_div_iff (pow_pos hc 2).ne']
    field_simp
    linarith
  have hpos : 0 < a.predicted := by
    rw [hpredicted]
    exact div_pos (by linarith) (pow_pos hc 2)
  have hratio : a.ratio = a.actual / a.predicted := if_neg fun h0 =>
    hpos.ne' ((Exact.beq_zero_iff _).mp h0)
  exact ⟨heq, hpos, by rw [hratio, heq, div_self hpos.ne']⟩

/-- **The region widens**: the next radius is twice the length of the step. -/
theorem Search.AtAffine.radius_eq :
    (s.regionAfter s.propose (s.assess s.propose (P.affineAt A b s.propose.point))).radius =
      2 * s.propose.length := by
  obtain ⟨-, -, hratio⟩ := h.reductions hJ
  have hadjust : (s.assess s.propose (P.affineAt A b s.propose.point)).adjust s.propose
      s.standing.cost = (2.0 * s.propose.length, s.propose.lambda * 0.5) := by
    unfold Assessment.adjust
    rw [hratio, if_neg (by norm_num [shrinkRatio]), if_pos (Or.inr (by norm_num [expandRatio]))]
  unfold Search.regionAfter
  rw [hadjust]
  split_ifs <;> norm_num

/-- Without damping the residuals are orthogonal to all columns then, so any other point costs
more. -/
theorem Search.AtAffine.least (hl : s.propose.lambda = 0) {q : Vec ℝ n}
    (hq : q ≠ s.propose.point) :
    (P.affineAt A b s.propose.point).cost < (P.affineAt A b q).cost := by
  have hnormal : IsNormal (P.affineAt A b s.standing.point).jacobian
      (P.affineAt A b s.standing.point).residuals s.propose.step := by
    have hsolves := h.step_solves hJ
    rw [hl, h.base_eq] at hsolves
    exact hsolves.normal
  have hlt := (Problem.isStationary_step hnormal).residuals_lt hJ hq
  exact lt_of_pow_lt_pow_left₀ 2 (Real.sqrt_nonneg _) (by rwa [cost_sq, cost_sq])

/-- The step is not shorter than nine tenths of the radius if it is damped. -/
theorem Search.AtAffine.length_ge (hl : s.propose.lambda ≠ 0) :
    9 / 10 * s.region.radius ≤ s.propose.length := by
  have hn := le_rows_of_independent hJ
  have hlength := h.rank.length_ge h.poised.scaling_pos h.poised.radius_pos hl
  rw [scaledLength_eq h.rank.order _ (le_min hn le_rfl), ← norm_scaled_neg] at hlength
  exact (h.poised.length_eq).symm ▸ hlength

/-- **One trial** on an affine problem. -/
theorem Search.AtAffine.law (iteration : Nat) :
    AffineLaw P A b (s.trial iteration (P.affineAt A b s.propose.point) none)
      (s.assess s.propose (P.affineAt A b s.propose.point)) := by
  obtain ⟨hactual, hpos, hratio⟩ := h.reductions hJ
  have haccepted : acceptRatio ≤
      (s.assess s.propose (P.affineAt A b s.propose.point)).ratio := by
    rw [hratio, acceptRatio]
    norm_num
  refine ⟨rfl, rfl, decide_eq_true haccepted, hactual, hpos, hratio, ?_, ?_⟩
  · intro hl q hq
    exact h.least hJ hl hq
  · intro hl
    have hlength := h.length_ge hJ hl
    change _ ≤ (s.regionAfter s.propose (s.assess s.propose _)).radius
    rw [h.radius_eq hJ]
    change 9 / 5 * s.region.radius ≤ _
    linarith

end Trial

/-! ## All trials -/

/-- A trial was made, and the one that follows belongs to the next outer iteration and is given the
radius that it leaves. -/
def Trial.Precedes (t t' : Trial ℝ m n) : Prop :=
  t'.iteration = t.iteration + 1 ∧ ∃ a, t.progress = .made a none ∧
    t'.search.region.radius = (t.search.regionAfter t.proposal a).radius

/-- What is returned where the residuals are orthogonal to all columns: no trial was made in the
last outer iteration. -/
structure StopsOrthogonal (o : Options ℝ) (trials : List (Trial ℝ m n)) (found : Optimum ℝ m n) :
    Prop where
  counts : found.evaluations = found.iterations
  before : ∀ t ∈ trials, t.iteration < found.iterations
  orthogonal : ∀ c, found.evaluation.Orthogonal o.orthogonalityTolerance c

/-- What is returned where a trial reduces the cost or leaves a radius within the tolerance: it is
the last one. -/
structure StopsReduced (o : Options ℝ) (trials : List (Trial ℝ m n)) (found : Optimum ℝ m n)
    (t : Trial ℝ m n) (a : Assessment ℝ m n) : Prop where
  counts : found.evaluations = found.iterations + 1
  last : trials.getLast? = some t
  iteration_eq : t.iteration = found.iterations
  progress_eq : t.progress = .made a none
  evaluation_eq : found.evaluation = a.evaluation
  within : Search.reductionsWithin a o.costTolerance = true ∨
    (t.search.regionAfter t.proposal a).radius ≤
      o.parameterTolerance * (t.search.regionAfter t.proposal a).length

/-- **A run without a rejected trial.** -/
structure Run.Straight (o : Options ℝ) (P : Problem σ ℝ m n) (A : Mat ℝ m n) (b : Vec ℝ m)
    (r : Run σ ℝ m n) : Prop where
  /-- Only an evaluation that the budget does not allow is not made. -/
  law : ∀ t ∈ r.trials, t.progress = .unaffordable ∨ ∃ a, AffineLaw P A b t a
  chain : r.trials.IsChain Trial.Precedes
  returned : ∀ found, r.result = .ok found →
    StopsOrthogonal o r.trials found ∨ ∃ t a, StopsReduced o r.trials found t a

section Rules

variable {r : Run σ ℝ m n} {t : Trial ℝ m n} {a : Assessment ℝ m n}

theorem straight_error (f : Failure ℝ) (w : σ) :
    (Run.ending (.error f) w).Straight o P A b :=
  ⟨fun _ ht => absurd ht List.not_mem_nil, .nil, fun _ hr => by cases hr⟩

theorem straight_last (ht : t.progress = .unaffordable ∨ ∃ a, AffineLaw P A b t a) (f : Failure ℝ)
    (w : σ) : ((Run.ending (.error f) w).after t).Straight o P A b := by
  refine ⟨fun t' ht' => ?_, .singleton t, fun _ hr => by cases hr⟩
  obtain rfl := List.mem_singleton.mp ht'
  exact ht

theorem Run.Straight.begunAt (h : r.Straight o P A b) (e : Evaluation ℝ m n) :
    (r.begunAt e).Straight o P A b := ⟨h.law, h.chain, h.returned⟩

/-- A trial before the trials of the outer iterations that follow. -/
theorem Run.Straight.after (h : r.Straight o P A b) (ht : AffineLaw P A b t a)
    (hnext : ∃ t', r.trials.head? = some t' ∧ t.Precedes t')
    (hcounts : ∀ found, r.result = .ok found → t.iteration < found.iterations) :
    (r.after t).Straight o P A b := by
  obtain ⟨t', hhead, hprecedes⟩ := hnext
  obtain ⟨ts, hts⟩ := List.head?_eq_some_iff.mp hhead
  constructor
  · exact List.forall_mem_cons.mpr ⟨.inr ⟨a, ht⟩, h.law⟩
  · have hchain := h.chain
    change (t :: r.trials).IsChain Trial.Precedes
    rw [hts] at hchain ⊢
    exact hchain.cons_cons hprecedes
  · intro found hr
    rcases h.returned found hr with hstop | ⟨t₁, a₁, hstop⟩
    · refine .inl ⟨hstop.counts, ?_, hstop.orthogonal⟩
      exact List.forall_mem_cons.mpr ⟨hcounts found hr, hstop.before⟩
    · refine .inr ⟨t₁, a₁, hstop.counts, ?_, hstop.iteration_eq, hstop.progress_eq,
        hstop.evaluation_eq, hstop.within⟩
      change (t :: r.trials).getLast? = some t₁
      rw [List.getLast?_cons, hstop.last]
      rfl

end Rules

/-- The outer iteration after an accepted trial is given the radius that the trial leaves. -/
theorem radius_of_start {st : Standing ℝ m n} {rg : Region ℝ n} (hfresh : rg.fresh = false)
    (hs : Search.start o st rg = .ok s) : s.region.radius = rg.radius := by
  obtain ⟨d, -, rfl⟩ := Search.of_start_eq_ok hs
  change (Search.startRegion o st rg d.columnNorm).radius = _
  rw [startRegion_eq o st hfresh]

/-- **An affine problem** with independent weighted columns, without validator and checker. -/
structure Affine (P : Problem σ ℝ m n) (A : Mat ℝ m n) (b : Vec ℝ m) : Prop where
  model : P.model.IsAffine A b
  independent : LinearIndependent ℝ (P.jacobian A).toMatrix.col
  validator_eq : P.validator = none
  checker_eq : P.checker = none

section Runs

variable (hP : Affine P A b)

include hP

/-- A judged trial is evaluated where it leads to. -/
theorem Affine.of_judges {iteration : Nat} {w w' : σ} {e : Evaluation ℝ m n} {v : Option Bool}
    (hj : Judges P iteration s w e v w') : e = P.affineAt A b s.propose.point ∧ v = none := by
  obtain ⟨he, hv⟩ := (judges_iff_of_checker hP.checker_eq).mp hj
  obtain ⟨w₂, he'⟩ := hP.model.evaluation hP.validator_eq s.propose.point w
  cases he.symm.trans he'
  exact ⟨rfl, hv⟩

/-- The test is for all columns. -/
theorem Affine.orthogonal_of_start (ho : o.Regular) {p : Vec ℝ n} {rg : Region ℝ n}
    (hs : Search.start o (.ofEvaluation (P.affineAt A b p)) rg = .ok s)
    (hc : s.maxCosine ≤ o.orthogonalityTolerance) (c : Fin n) :
    (P.affineAt A b p).Orthogonal o.orthogonalityTolerance c := by
  obtain ⟨d, hd, rfl⟩ := Search.of_start_eq_ok hs
  rw [ho.threshold_eq] at hd
  refine le_of_largestCosine_le hd hc ?_
  rw [pivotColumns_eq_univ (ofJacobian_order hd)
    (le_min (le_rows_of_independent hP.independent) le_rfl)]
  exact Finset.mem_univ c

/-- **All trials of a run** that stands at an affine problem. -/
theorem Runs.straight (ho : o.Regular) {left used iteration : Nat} {w : σ} {r : Run σ ℝ m n}
    (hr : Runs o P left used iteration s w r) (hused : used = iteration) {e₀ : Evaluation ℝ m n}
    {bs : List (Evaluation ℝ m n)} (hreached : Reached o e₀ bs s) (hs : s.AtAffine P A b) :
    r.Straight o P A b := by
  induction hr generalizing bs with
  | exhausted used iteration s w => exact straight_last (.inl rfl) _ _
  | @failed left used iteration s w f w' he =>
    obtain ⟨w₁, he'⟩ := hP.model.evaluation hP.validator_eq s.propose.point w
    cases he.symm.trans he'
  | unanswered he hc =>
    rw [Search.consult_of_checker hP.checker_eq, Act.after_pure] at hc
    cases hc
  | @stopped left used iteration s w e v w' e' hj hn =>
    obtain ⟨rfl, rfl⟩ := hP.of_judges hj
    have hlaw := hs.law hP.independent iteration
    refine ⟨fun t ht => ?_, .singleton _, fun found hfound => ?_⟩
    · obtain rfl := List.mem_singleton.mp ht
      exact .inr ⟨_, hlaw⟩
    · cases hfound
      have hwithin := Search.reduced_of_stop hn
      rw [Search.RadiusRemains, not_not] at hwithin
      obtain rfl := Search.of_outcome_eq_stop hn
      refine .inr ⟨_, _, congrArg (· + 1) hused, rfl, rfl, rfl, ?_, hwithin⟩
      change (s.standingAfter _).evaluation = _
      rw [Search.standingAfter, if_pos hlaw.accepted]
  | @stuck left used iteration s w e v w' f hj hn =>
    obtain ⟨rfl, rfl⟩ := hP.of_judges hj
    exact straight_last (.inr ⟨_, hs.law hP.independent iteration⟩) _ _
  | @retried left used iteration s w e v w' s' r hj hn hr ih =>
    obtain ⟨rfl, rfl⟩ := hP.of_judges hj
    obtain ⟨-, hlt, -⟩ := Search.of_outcome_eq_retry hn
    have haccepted := (hs.law hP.independent iteration).accepted
    exact absurd hlt (not_lt.mpr (of_decide_eq_true haccepted))
  | @overdue left used iteration s w e v w' st rg hj hn hi =>
    obtain ⟨rfl, rfl⟩ := hP.of_judges hj
    exact straight_last (.inr ⟨_, hs.law hP.independent iteration⟩) _ _
  | @undecomposed left used iteration s w e v w' st rg f hj hn hi hstart =>
    obtain ⟨rfl, rfl⟩ := hP.of_judges hj
    exact (straight_last (.inr ⟨_, hs.law hP.independent iteration⟩) _ _).begunAt _
  | @orthogonal left used iteration s w e v w' st rg s' hj hn hi hstart hc =>
    obtain ⟨rfl, rfl⟩ := hP.of_judges hj
    have hlaw := hs.law hP.independent iteration
    obtain ⟨-, -, rfl, rfl⟩ := Search.of_outcome_eq_renew hn
    rw [Search.standingAfter, if_pos hlaw.accepted] at hstart ⊢
    refine ⟨fun t ht => ?_, .singleton _, fun found hfound => ?_⟩
    · obtain rfl := List.mem_singleton.mp ht
      exact .inr ⟨_, hlaw⟩
    · cases hfound
      refine .inl ⟨congrArg (· + 1) hused, fun t ht => ?_, ?_⟩
      · obtain rfl := List.mem_singleton.mp ht
        exact Nat.lt_succ_self iteration
      · exact hP.orthogonal_of_start ho hstart hc
  | @renewed left used iteration s w e v w' st rg s' r hj hn hi hstart hc hr ih =>
    obtain ⟨rfl, rfl⟩ := hP.of_judges hj
    have hlaw := hs.law hP.independent iteration
    have hreached' := hreached.renewed hn hstart
    obtain ⟨-, -, rfl, rfl⟩ := Search.of_outcome_eq_renew hn
    have hradius := radius_of_start (regionAfter_fresh s s.propose hlaw.accepted) hstart
    rw [Search.standingAfter, if_pos hlaw.accepted] at hstart
    have hs' := atAffine_start hP.independent ho.threshold_eq ho.orthogonality_nonneg hstart
      (hreached'.poised ho) hc
    have hrest := (ih (congrArg (· + 1) hused) hreached' hs').begunAt
      (s.standingAfter (s.assess s.propose (P.affineAt A b s.propose.point))).evaluation
    refine hrest.after hlaw ?_ fun found hfound => (hr.counts hfound).2
    obtain ⟨t', hhead, hiteration, hsearch⟩ := hr.head_eq
    exact ⟨t', hhead, hiteration, _, rfl, hsearch ▸ hradius⟩

/-- **All trials of a course**. -/
theorem Courses.straight {o : Options (Number ℝ)} (ho : o.values.Regular) {w : σ}
    {c : Course σ ℝ m n} (hc : Courses o P w c) : c.toRun.Straight o.values P A b := by
  cases hc with
  | refused | failed | infinite => exact straight_error _ _
  | undecomposed => exact (straight_error _ _).begunAt _
  | @orthogonal left e w' s hE hI he hf hs hmax =>
    obtain ⟨w₁, he'⟩ := hP.model.evaluation hP.validator_eq P.start w
    cases he.symm.trans he'
    refine ⟨fun _ ht => absurd ht List.not_mem_nil, .nil, fun found hfound => ?_⟩
    cases hfound
    refine .inl ⟨rfl, fun _ ht => absurd ht List.not_mem_nil, ?_⟩
    exact hP.orthogonal_of_start ho hs hmax
  | @begun left e w' s r hE hI he hf hs hmax hr =>
    obtain ⟨w₁, he'⟩ := hP.model.evaluation hP.validator_eq P.start w
    cases he.symm.trans he'
    have hreached := Reached.first hs
    have hs' := atAffine_start hP.independent ho.threshold_eq ho.orthogonality_nonneg hs
      (hreached.poised ho) hmax
    exact (hr.straight hP ho rfl hreached hs').begunAt _

end Runs

/-- **Headline.** On every affine problem with independent weighted columns and without validator
and checker, every trial of every run that is evaluated is accepted with the ratio one, its
undamped step leads to the one solution and its damped step to a radius that is almost doubled. So
each outer iteration has one trial, and what is returned is the evaluation after the last of them,
or the one that a further outer iteration found to be orthogonal to the columns. -/
theorem optimize_affineTrials {given : Options (Setting ℝ)} {o : Options (Number ℝ)}
    (hc : Options.check given = .ok o) (ht : o.values.rankingThreshold = 0)
    (hmodel : P.model.IsAffine A b) (hJ : LinearIndependent ℝ (P.jacobian A).toMatrix.col)
    (hvalidator : P.validator = none) (hchecker : P.checker = none) (w : σ) :
    (∀ t ∈ (optimize o P w).trials, t.progress = .unaffordable ∨ ∃ a, AffineLaw P A b t a) ∧
      (optimize o P w).trials.IsChain Trial.Precedes ∧
      ∀ found, (optimize o P w).result = .ok found →
        StopsOrthogonal o.values (optimize o P w).trials found ∨
          ∃ t a, StopsReduced o.values (optimize o P w).trials found t a := by
  have ho := Options.regular_of_check hc ht
  have hP : Affine P A b := ⟨hmodel, hJ, hvalidator, hchecker⟩
  have hstraight := (courses_optimize o P w).straight hP ho
  exact ⟨hstraight.law, hstraight.chain, hstraight.returned⟩

/-- The model of the line is affine. -/
theorem line_isAffine :
    (lineProblem ℝ).model.IsAffine (Mat.ofFn fun _ _ => 1) (Vec.replicate 1 0) := by
  intro p w
  refine ⟨_, _, w, rfl, ?_, matrix_singleton 1 _⟩
  have haffine : (Mat.ofFn fun _ _ => 1 : Mat ℝ 1 1).affine (Vec.replicate 1 0) p = p := by
    refine Vec.ext fun i => ?_
    rw [Mat.affine, Vec.ofFn_apply, Mat.mulVec_apply, Exact.sum_eq]
    simp [Vec.replicate_apply, Subsingleton.elim i 0]
  rw [haffine]
  exact Nested.vector_ofList p _ _

/-- The column of the line. -/
theorem line_independent : LinearIndependent ℝ (Mat.ofFn fun _ _ => 1 : Mat ℝ 1 1).toMatrix.col := by
  refine LinearIndependent.of_subsingleton 0 fun h => ?_
  have h0 : (Mat.ofFn fun _ _ => 1 : Mat ℝ 1 1) 0 0 = 0 := congrFun h 0
  rw [Mat.ofFn_apply] at h0
  exact one_ne_zero h0

/-- A first trial on the line is made. -/
theorem exists_line_made : ∃ t ∈ (optimize (exactOptions ℝ) (lineProblem ℝ) ()).trials,
    t.progress ≠ .unaffordable := by
  obtain ⟨t, ht, a, v, ha⟩ := exists_line_assessed
  refine ⟨t, ht, ?_⟩
  rw [ha]
  nofun

theorem optimize_affineTrials_line :
    Options.check ((exactOptions ℝ).map Setting.number) = .ok (exactOptions ℝ) ∧
      (exactOptions ℝ).values.rankingThreshold = 0 ∧
      ∃ t ∈ (optimize (exactOptions ℝ) (lineProblem ℝ) ()).trials, ∃ a,
        AffineLaw (lineProblem ℝ) (Mat.ofFn fun _ _ => 1) (Vec.replicate 1 0) t a := by
  have hc : Options.check ((exactOptions ℝ).map Setting.number) = .ok (exactOptions ℝ) := rfl
  have hz : (exactOptions ℝ).values.rankingThreshold = 0 := Nat.cast_zero
  obtain ⟨t, ht, hmade⟩ := exists_line_made
  obtain ⟨hlaw, -, -⟩ := optimize_affineTrials hc hz line_isAffine line_independent rfl rfl ()
  exact ⟨hc, hz, t, ht, (hlaw t ht).resolve_left hmade⟩

end LevenbergMarquardt

end LeastSquares
