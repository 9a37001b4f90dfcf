import LeastSquares.Proofs.AffineTrials
import LeastSquares.Proofs.ParallelRuns

/-!
# Renamed and rescaled parameters

A problem in another chart of its parameters (`LeastSquares.Proofs.Charts`): its model is asked at
the point of a point in the chart, and the columns of its Jacobian are put in the order and into the
units of the chart. Both problems have parallel runs if the columns are independent wherever the
run stands: the points of the one are those of the other, and costs, radii, damping parameters and
counts are the same.

Without independent columns the order of the pivots would matter: which columns count as negligible
then depends on the units.

Results:
* `Problem.compute_reparametrized`: what is computed in the chart;
* `Courses.bases_subset`: outer iterations begin where the run stands;
* `LevenbergMarquardt.optimize_reparametrized`: parallel courses of a problem in two charts.
-/

namespace LeastSquares

open Matrix Decomposition LevenbergMarquardt

variable {σ : Type} {m n : Nat}

/-! ## A problem in a chart -/

namespace Chart

variable (χ : Chart n)

/-- The coordinates of a point in the chart. -/
noncomputable def coordinates (x : Vec ℝ n) : Vec ℝ n :=
  Vec.ofFn fun j => x (χ.perm.symm j) / χ.factor (χ.perm.symm j)

/-- The columns of a Jacobian in the chart. -/
noncomputable def columns (J : Mat ℝ m n) : Mat ℝ m n :=
  Mat.ofFn fun i j => χ.factor (χ.perm.symm j) * J i (χ.perm.symm j)

/-- The columns in the chart of what a model returns as its Jacobian. What is none stays as it
is. -/
noncomputable def returned (m : Nat) (J : Nested ℝ) : Nested ℝ :=
  match J.matrix "model jacobian" m n with
  | .ok A => .ofLists (χ.columns A).toLists
  | .error _ => J

/-- A model in the chart. -/
noncomputable def model (m : Nat) : Model σ ℝ n → Model σ ℝ n
  | .joint f => .joint fun p => Prod.map id (χ.returned m) <$> f (χ.point p)
  | .split value jacobian =>
    .split (fun p => value (χ.point p)) fun p => χ.returned m <$> jacobian (χ.point p)

/-- **Two evaluations correspond** in the two charts: they are made at one point, with the same
residuals, and the columns of their Jacobians are the same up to the chart. -/
structure Corresponds (e e' : Evaluation ℝ m n) : Prop where
  point_eq : e.point = χ.point e'.point
  residuals_eq : e'.residuals = e.residuals
  jacobian_eq : e'.jacobian = χ.columns e.jacobian

end Chart

/-- **A problem in a chart** of its parameters. -/
noncomputable def Problem.reparametrized (P : Problem σ ℝ m n) (χ : Chart n) : Problem σ ℝ m n :=
  { P with model := χ.model m P.model, start := χ.coordinates P.start }

variable {χ : Chart n}

namespace Chart

theorem point_coordinates (x : Vec ℝ n) : χ.point (χ.coordinates x) = x := by
  refine Vec.ext fun i => ?_
  rw [point_apply, coordinates, Vec.ofFn_apply, Equiv.symm_apply_apply,
    mul_div_cancel₀ _ (χ.factor_pos i).ne']

theorem columns_apply (J : Mat ℝ m n) (i : Fin m) (c : Fin n) :
    χ.columns J i (χ.perm c) = χ.factor c * J i c := by
  rw [columns, Mat.ofFn_apply, Equiv.symm_apply_apply]

/-- What a model in the chart returns is read as the Jacobian in the chart, or is none for the same
reason. -/
theorem matrix_returned (J : Nested ℝ) :
    (χ.returned m J).matrix "model jacobian" m n =
      (J.matrix "model jacobian" m n).map χ.columns := by
  unfold returned
  cases hJ : J.matrix "model jacobian" m n with
  | error f => exact hJ
  | ok A => exact Nested.matrix_ofLists _ (Nested.rows_pos_of_matrix hJ) _

/-- A call of the model in the chart. -/
theorem call_model (model : Model σ ℝ n) (p : Vec ℝ n) :
    (χ.model m model).call p = Prod.map id (χ.returned m) <$> model.call (χ.point p) := by
  cases model with
  | joint f => rfl
  | split value jacobian =>
    simp only [Chart.model, Model.call, map_bind, bind_map_left, map_pure, Prod.map, id]

/-- Weights act on the rows. -/
theorem jacobian_columns (P : Problem σ ℝ m n) (A : Mat ℝ m n) :
    P.jacobian (χ.columns A) = χ.columns (P.jacobian A) := by
  refine Mat.ext fun i j => ?_
  obtain ⟨c, rfl⟩ := χ.perm.surjective j
  have h := congrFun (congrFun (P.jacobian_toMatrix (χ.columns A)) i) (χ.perm c)
  have h' := congrFun (congrFun (P.jacobian_toMatrix A) i) c
  refine h.trans ?_
  rw [columns_apply, show P.jacobian A i c = _ from h', Matrix.mul_apply, Matrix.mul_apply,
    Finset.mul_sum]
  refine Finset.sum_congr rfl fun k _ => ?_
  rw [show (χ.columns A).toMatrix k (χ.perm c) = _ from columns_apply A k c, mul_left_comm]
  rfl

end Chart

/-- **What is computed in the chart**. -/
theorem Problem.compute_reparametrized (P : Problem σ ℝ m n) (χ : Chart n) (p : Vec ℝ n) (w : σ) :
    ((P.reparametrized χ).compute p).after w =
      (((P.compute (χ.point p)).after w).1.map fun rJ => (rJ.1, χ.columns rJ.2),
        ((P.compute (χ.point p)).after w).2) := by
  have hcall : (P.reparametrized χ).model.call p =
      Prod.map id (χ.returned m) <$> P.model.call (χ.point p) := χ.call_model P.model p
  have hresiduals (v : Vec ℝ m) : (P.reparametrized χ).residuals v = P.residuals v := rfl
  have hjacobian (A : Mat ℝ m n) : (P.reparametrized χ).jacobian (χ.columns A) =
      χ.columns (P.jacobian A) := Chart.jacobian_columns P A
  unfold Problem.compute
  simp only [hcall, Act.after_bind, Act.after_mapError, Act.after_map]
  rcases (P.model.call (χ.point p)).after w with ⟨f | ⟨V, J⟩, w'⟩
  · rfl
  simp only [Except.map, Except.mapError, Prod.map, id, Act.after_ofExcept,
    Chart.matrix_returned, hresiduals]
  cases V.vector "model value" "model value" m with
  | error f => rfl
  | ok v =>
    cases J.matrix "model jacobian" m n with
    | error f => rfl
    | ok A => simp only [Act.after_pure, hjacobian]

/-! ## Evaluations that correspond -/

namespace Chart

variable {e e' : Evaluation ℝ m n}

theorem Corresponds.gram (h : χ.Corresponds e e') : χ.Gram e.jacobian e'.jacobian := by
  intro i j
  rw [Mat.gram_eq, Mat.gram_eq, Finset.mul_sum, h.jacobian_eq]
  refine Finset.sum_congr rfl fun l _ => ?_
  rw [columns_apply, columns_apply]
  ring

theorem Corresponds.matches (h : χ.Corresponds e e') : χ.Matches e e' where
  point_eq := h.point_eq
  cost_eq := congrArg Residuals.cost h.residuals_eq
  gram := h.gram
  moment c := by
    rw [Mat.transposeMulVec_eq, Mat.transposeMulVec_eq, Finset.mul_sum, h.jacobian_eq,
      h.residuals_eq]
    refine Finset.sum_congr rfl fun l _ => ?_
    rw [columns_apply, mul_assoc]

/-- **With independent columns** every chart is tame: none is negligible. -/
theorem Corresponds.tame (h : χ.Corresponds e e')
    (hJ : LinearIndependent ℝ e.jacobian.toMatrix.col) : χ.Tame e e' := by
  have hinjective : ∀ v, e.jacobian.toMatrix *ᵥ v = 0 → v = 0 :=
    fun v => eq_zero_of_mulVec hJ
  have hinjective' (v : Fin n → ℝ) (hv : e'.jacobian.toMatrix *ᵥ v = 0) : v = 0 := by
    have hdot := h.gram.dot_mulVec v
    rw [hv, dotProduct_zero] at hdot
    have hpull := hinjective _ (dotProduct_self_eq_zero.mp hdot.symm)
    funext j
    obtain ⟨c, rfl⟩ := χ.perm.surjective j
    exact (mul_eq_zero.mp (congrFun hpull c)).resolve_left (χ.factor_pos c).ne'
  refine ⟨fun d d' hd hd' => ?_, fun c hc => ?_⟩
  · have hrank := (factored_ofJacobian le_rfl hd).rank_eq hinjective
    have hrank' := (factored_ofJacobian le_rfl hd').rank_eq hinjective'
    refine ⟨hrank'.trans hrank.symm, fun c _ => ?_⟩
    rw [pivotColumns_eq_univ (ofJacobian_order hd) hrank.ge]
    exact Finset.mem_univ c
  · refine absurd (funext fun i => ?_) (hJ.ne_zero c)
    exact eq_zero_of_length hc i

end Chart

/-! ## Where outer iterations begin -/

namespace LevenbergMarquardt

/-- An outer iteration begins at the evaluation that was accepted last. -/
theorem Search.accepted?_of_renew {o : Options ℝ} {s : Search ℝ m n} {e : Evaluation ℝ m n}
    {v : Option Bool} {st : Standing ℝ m n} {rg : Region ℝ n}
    (hn : s.outcome o e v = .renew st rg) (iteration : Nat) :
    (s.trial iteration e v).accepted? = some st.evaluation := by
  obtain ⟨-, hratio, rfl, -⟩ := Search.of_outcome_eq_renew hn
  have haccepted : (s.assess s.propose e).isAccepted = true := decide_eq_true (not_lt.mp hratio)
  rw [Search.standingAfter, if_pos haccepted]
  exact if_pos haccepted

theorem Runs.bases_subset {o : Options ℝ} {P : Problem σ ℝ m n} {left used iteration : Nat}
    {s : Search ℝ m n} {w : σ} {r : Run σ ℝ m n} (h : Runs o P left used iteration s w r) :
    ∀ e ∈ r.bases, e ∈ r.accepted := by
  induction h with
  | exhausted | failed | unanswered | stopped | stuck | overdue =>
    exact fun e he => absurd he List.not_mem_nil
  | retried _ _ _ ih => exact fun e he => mem_accepted_after _ (ih e he)
  | undecomposed _ hn | orthogonal _ hn =>
    intro e he
    obtain rfl := List.mem_singleton.mp he
    exact mem_accepted_of_accepted? (Search.accepted?_of_renew hn _)
  | renewed _ hn _ _ _ _ ih =>
    intro e he
    rcases List.mem_cons.mp he with rfl | he
    · exact mem_accepted_of_accepted? (Search.accepted?_of_renew hn _)
    · exact mem_accepted_after _ (ih e he)

/-- **Outer iterations begin where the run stands**: at the start or at an accepted evaluation. -/
theorem Courses.bases_subset {o : Options (Number ℝ)} {P : Problem σ ℝ m n} {w : σ}
    {c : Course σ ℝ m n} (h : Courses o P w c) : ∀ e ∈ c.bases, e ∈ c.standpoints := by
  cases h with
  | refused | failed | infinite => exact fun e he => absurd he List.not_mem_nil
  | undecomposed | orthogonal =>
    intro e he
    obtain rfl := List.mem_singleton.mp he
    exact List.mem_append_left _ (List.mem_singleton_self _)
  | begun _ _ _ _ _ _ hr =>
    intro e he
    rcases List.mem_cons.mp he with rfl | he
    · exact List.mem_append_left _ (List.mem_singleton_self _)
    · exact List.mem_append_right _ (hr.bases_subset e he)

end LevenbergMarquardt

/-- **A problem and itself in a chart** of its parameters. -/
theorem Problem.problems_reparametrized {P : Problem σ ℝ m n} (hchecker : P.checker = none)
    (hvalidator : P.validator = none) (χ : Chart n) :
    χ.Problems χ.Corresponds (· = ·) P (P.reparametrized χ) where
  start_eq := (Chart.point_coordinates P.start).symm
  maxEvaluations_eq := rfl
  maxIterations_eq := rfl
  checker_eq := hchecker
  checker_eq' := hchecker
  matches_of _ _ he := he.matches
  evaluation p w w' hw := by
    subst hw
    rw [P.evaluation_of_validator hvalidator,
      (P.reparametrized χ).evaluation_of_validator hvalidator, P.compute_reparametrized]
    rcases (P.compute (χ.point p)).after w with ⟨f | rJ, w₁⟩
    · exact .error f rfl
    · exact .ok ⟨rfl, rfl, rfl⟩ rfl

namespace LevenbergMarquardt

/-- **Headline.** A problem with no more parameters than observations, without validator and
checker, has a course parallel to its own in every chart of its parameters, if the columns of the
Jacobian are independent at the start and at every accepted point: trials at the points that
correspond, with the same costs, radii and damping parameters, and the same failure or evaluations
that correspond with the same counts. -/
theorem optimize_reparametrized {given : Options (Setting ℝ)} {o : Options (Number ℝ)}
    (hc : Options.check given = .ok o) (ht : o.values.rankingThreshold = 0) (hn : n ≤ m)
    {P : Problem σ ℝ m n} (hvalidator : P.validator = none) (hchecker : P.checker = none) {w : σ}
    (hJ : ∀ e ∈ (optimize o P w).standpoints, LinearIndependent ℝ e.jacobian.toMatrix.col)
    (χ : Chart n) :
    Course.Parallel χ.point χ.Corresponds (· = ·) (optimize o P w)
      (optimize o (P.reparametrized χ) w) := by
  refine (Problem.problems_reparametrized hchecker hvalidator χ).optimize_parallel hn hn
    (Options.regular_of_check hc ht) (fun e he e' hR => hR.tame (hJ e ?_)) rfl
  exact (courses_optimize o P w).bases_subset e he

/-! ## An example -/

/-- The parameter in units of two. -/
def doubling : Chart 1 := ⟨1, fun _ => 2, fun _ => two_pos⟩

theorem optimize_reparametrized_doubling :
    Options.check ((exactOptions ℝ).map Setting.number) = .ok (exactOptions ℝ) ∧
      (exactOptions ℝ).values.rankingThreshold = 0 ∧
      (∀ e ∈ (optimize (exactOptions ℝ) (lineProblem ℝ) ()).standpoints,
        LinearIndependent ℝ e.jacobian.toMatrix.col) ∧
      (∃ t, t ∈ (optimize (exactOptions ℝ) (lineProblem ℝ) ()).trials) ∧
      Course.Parallel doubling.point doubling.Corresponds (· = ·)
        (optimize (exactOptions ℝ) (lineProblem ℝ) ())
        (optimize (exactOptions ℝ) ((lineProblem ℝ).reparametrized doubling) ()) := by
  have hc : Options.check ((exactOptions ℝ).map Setting.number) = .ok (exactOptions ℝ) := rfl
  have hz : (exactOptions ℝ).values.rankingThreshold = 0 := Nat.cast_zero
  have hJ : ∀ e ∈ (optimize (exactOptions ℝ) (lineProblem ℝ) ()).standpoints,
      LinearIndependent ℝ e.jacobian.toMatrix.col := by
    intro e he
    obtain ⟨p, w, w', hp⟩ := (courses_optimize _ _ ()).standpoint_eq he
    cases (line_evaluation p).symm.trans hp
    exact line_independent
  exact ⟨hc, hz, hJ, exists_line_trial,
    optimize_reparametrized hc hz le_rfl rfl rfl hJ doubling⟩

end LevenbergMarquardt

end LeastSquares
