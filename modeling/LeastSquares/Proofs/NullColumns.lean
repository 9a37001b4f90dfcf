import LeastSquares.Proofs.Affine
import LeastSquares.Proofs.NullSteps
import LeastSquares.Proofs.Proposals
import LeastSquares.Proofs.SafeRun
import LeastSquares.Proofs.Standpoint

/-!
# Parameters without influence

Runs in exact arithmetic in which one column of the Jacobian is zero wherever the problem is
evaluated, without a validator that could move points. In the trust-region method the column has
unit scaling, stands behind the rank and is damped like any other, and the trial leaves the parameter
alone; in the Gauss-Newton method the step that is found does. So the parameter keeps its start
value at every point of the run. The solvers that work on the normal equations refuse the first
step.

Results:
* `LevenbergMarquardt.Reached.step_null`: no trial moves the parameter;
* `GaussNewton.Runs.keeps`: no iteration does;
* `Optimizer.keeps_null`: the parameter keeps its start value.
-/

namespace LeastSquares

variable {σ : Type} {m n : Nat} {P : Problem σ ℝ m n} {j : Fin n}

/-- Without a validator an evaluation is at the point that was asked for. -/
theorem Problem.point_of_validator (hv : P.validator = none) {p : Vec ℝ n} {w w' : σ}
    {e : Evaluation ℝ m n} (h : (P.evaluation p).after w = (.ok e, w')) : e.point = p := by
  rw [P.evaluation_of_validator hv] at h
  cases hcompute : ((P.compute p).after w).1 with
  | error f =>
    rw [hcompute] at h
    cases h
  | ok rJ =>
    rw [hcompute] at h
    obtain ⟨he, -⟩ := Prod.mk.inj h
    obtain rfl := Except.ok.inj he
    rfl

/-- **Parameter `j` keeps the value `x`**: at every point that is asked for, in every evaluation that
is made, and in what is returned. -/
structure Keeps (x : ℝ) (j : Fin n) (calls : List (Call ℝ m n)) (found : List (Evaluation ℝ m n))
    (result : Except (Failure ℝ) (Optimum ℝ m n)) : Prop where
  asked : ∀ p, Call.evaluate p ∈ calls → p j = x
  made : ∀ e ∈ found, e.point j = x
  returned : ∀ opt, result = .ok opt → opt.evaluation.point j = x

/-! ## The trust-region method -/

namespace LevenbergMarquardt

open Decomposition

variable {o : Options ℝ} {e₀ : Evaluation ℝ m n} {bs : List (Evaluation ℝ m n)}
  {s : Search ℝ m n}

/-- **A proposal** is a direction of its region with the sign changed. -/
theorem Search.exists_isDirection (hw : s.decomposition.Written (min m n))
    (hr : s.region.Signed (0 ≤ ·)) (hD : ∀ c, 0 < s.region.scaling c) :
    ∃ x, s.propose.step = x.map (fun x => -x) ∧
      IsDirection (Nat.min_le_left m n) (Nat.min_le_right m n) s.decomposition s.projected
        s.region.scaling s.propose.lambda x :=
  ⟨_, rfl, parameter_isDirection hw _ _ s.projected hD hr.1 hr.2⟩

/-- In every search of a run the scaling is positive. -/
theorem Reached.scaling_pos (ho : o.Bounds) (h : Reached o e₀ bs s) (c : Fin n) :
    0 < s.region.scaling c := by
  induction h with
  | first hs =>
    obtain ⟨d, hd, rfl⟩ := Search.of_start_eq_ok hs
    exact (ofDecomposition_region ho le_rfl (fun hf => Bool.noConfusion hf) hd).scaling_pos c
  | retried _ hn ih =>
    obtain ⟨-, -, rfl⟩ := Search.of_outcome_eq_retry hn
    exact (congrArg (0 < · c) (regionAfter_scaling _ _ _)).mpr ih
  | @renewed _ s _ _ _ _ _ _ hn hs ih =>
    obtain ⟨-, hlt, rfl, rfl⟩ := Search.of_outcome_eq_renew hn
    obtain ⟨d, hd, rfl⟩ := Search.of_start_eq_ok hs
    have hfresh := regionAfter_fresh s s.propose (decide_eq_true (not_lt.mp hlt))
    refine lt_of_lt_of_le ?_ (le_ofDecomposition_scaling hfresh c)
    rwa [regionAfter_scaling]

/-- **No trial moves the parameter**: its column stands behind the rank, and where it is damped there
is nothing but the damping. -/
theorem Reached.step_null (ho : o.Bounds) (h : Reached o e₀ bs s)
    (hj : ∀ i, s.base.jacobian i j = 0) : s.propose.step j = 0 := by
  obtain ⟨d, hd, ha⟩ := h.agrees
  have hf := factored_ofJacobian ho.threshold_nonneg hd
  have hw := ha.written (writeDiagonal_written hf.order _)
  have hpivot : s.decomposition.pivotOf j = d.pivotOf j := ha.pivotOf_eq j
  have hD := h.scaling_pos ho
  obtain ⟨x, hstep, hx⟩ :=
    Search.exists_isDirection hw (h.signed Exact.signRule ho.factor_pos.le) hD
  have hzero : x j = 0 := by
    refine hx.eq_zero_of_null hw.order hD ?_ fun i a hi => ?_
    · rw [hpivot, ha.rank_eq]
      exact (hf.null_column ho.threshold_nonneg hj).1
    · rw [ha.block_eq]
      exact hf.block_null ho.threshold_nonneg hj i (hi.trans (congrArg Fin.val hpivot))
  rw [hstep, Vec.map_apply, hzero, neg_zero]

/-- A trial has nothing evaluated but its own point. -/
theorem Trial.point_of_evaluate {t : Trial ℝ m n} {p : Vec ℝ n}
    (h : Call.evaluate p ∈ t.calls P) : p = t.proposal.point := by
  unfold Trial.calls at h
  rcases List.mem_append.mp h with h | h
  · split_ifs at h
    · exact (Call.evaluate.inj (List.mem_singleton.mp h))
    · exact absurd h List.not_mem_nil
  · obtain ⟨q, -, hq⟩ := List.mem_map.mp h
    cases hq

/-- A trial that stands at its base proposes a point with the value that the parameter has there. -/
theorem Trial.At.point_null {t : Trial ℝ m n} (hat : t.At o P e₀ bs) (ho : o.Bounds)
    (hs : t.search.standing = .ofEvaluation t.search.base)
    (hj : ∀ i, t.search.base.jacobian i j = 0) :
    t.proposal.point j = t.search.base.point j := by
  have hpoint : t.proposal.point j = t.search.standing.point j + t.search.propose.step j := by
    rw [hat.proposal_eq]
    exact Vec.ofFn_apply _ j
  rw [hpoint, hs, hat.reached.step_null ho hj, add_zero]
  rfl

/-- A course has the problem evaluated at its start point and at those of its trials. -/
theorem Course.point_of_evaluate {c : Course σ ℝ m n} {p : Vec ℝ n}
    (h : Call.evaluate p ∈ c.calls P) : p = P.start ∨ ∃ t ∈ c.trials, p = t.proposal.point := by
  rcases List.mem_append.mp h with h | h
  · split_ifs at h
    · exact .inl (Call.evaluate.inj (List.mem_singleton.mp h))
    · exact absurd h List.not_mem_nil
  · obtain ⟨t, ht, h⟩ := List.mem_flatMap.mp h
    exact .inr ⟨t, ht, Trial.point_of_evaluate h⟩

/-- **A course keeps the parameter** if its column is zero wherever the problem is evaluated. -/
theorem Courses.keeps {o : Options (Number ℝ)} (ho : o.values.Bounds) {w : σ}
    {c : Course σ ℝ m n} (h : Courses o P w c) (hv : P.validator = none)
    (hnull : ∀ e ∈ c.found, ∀ i, e.jacobian i j = 0) :
    Keeps (P.start j) j (c.calls P) c.found c.result := by
  have hchained := h.chained fun ratio (hr : acceptRatio ≤ ratio) => not_lt.mpr hr
  cases hstart : c.start.found? with
  | none =>
    obtain ⟨htrials, f, hresult⟩ := hchained.unbegun hstart
    have hnone {t : Trial ℝ m n} (ht : t ∈ c.trials) : False := by
      rw [htrials] at ht
      exact List.not_mem_nil ht
    refine ⟨fun p hp => ?_, fun e he => ?_, fun opt hopt => by cases hresult.symm.trans hopt⟩
    · obtain rfl | ⟨t, ht, -⟩ := Course.point_of_evaluate hp
      · rfl
      · exact (hnone ht).elim
    · obtain he | ⟨t, ht, -⟩ := Course.of_mem_found he
      · cases hstart.symm.trans he
      · exact (hnone ht).elim
  | some e =>
    obtain ⟨w₁, he, hrun⟩ := hchained.begun e hstart
    let stays (e : Evaluation ℝ m n) : Prop := e ∈ c.found ∧ e.point j = P.start j
    have hfirst : stays e := by
      refine ⟨List.mem_append_left _ (Option.mem_toList.mpr hstart), ?_⟩
      rw [Problem.point_of_validator hv he]
    have hpoint {t : Trial ℝ m n} (ht : t ∈ c.trials) (hb : stays t.search.base) :
        t.proposal.point j = P.start j := by
      obtain ⟨e₀, bs, -, -, hat⟩ := h.reached ht
      obtain ⟨ts, rest, heq⟩ := List.append_of_mem ht
      have hstands := hrun.stands ts t rest heq
      have hs : t.search.standing = .ofEvaluation t.search.base := by
        rw [hstands.standing_eq, hstands.base_eq]
      rw [hat.point_null ho hs (hnull _ hb.1), hb.2]
    have hmade : ∀ t ∈ c.trials, stays t.search.base → ∀ a v, t.progress = .made a v →
        stays a.evaluation := by
      intro t ht hb a v hp
      obtain ⟨ts, rest, heq⟩ := List.append_of_mem ht
      obtain ⟨w₂, heval, -⟩ := (hrun.stands ts t rest heq).answered a v hp
      refine ⟨Course.mem_found ht hp, ?_⟩
      rw [Problem.point_of_validator hv heval, hpoint ht hb]
    have hbase {t : Trial ℝ m n} (ht : t ∈ c.trials) : stays t.search.base :=
      hrun.of_base (p := stays) hfirst hmade ht
    refine ⟨fun p hp => ?_, fun e' he' => ?_, fun opt hopt => ?_⟩
    · obtain rfl | ⟨t, ht, rfl⟩ := Course.point_of_evaluate hp
      · rfl
      · exact hpoint ht (hbase ht)
    · obtain he' | ⟨t, ht, a, v, hp, rfl⟩ := Course.of_mem_found he'
      · obtain rfl := Option.some.inj (hstart.symm.trans he')
        exact hfirst.2
      · exact (hmade t ht (hbase ht) a v hp).2
    · rw [hrun.result opt hopt]
      exact (hrun.of_standpoint (p := stays) hfirst hmade (List.append_nil _).symm).2

end LevenbergMarquardt

/-! ## The Gauss-Newton method -/

namespace GaussNewton

variable [Exact.Factorizations] {method : Option Method} {c : Checker σ ℝ}
  {iterations evaluations done : Nat} {previous : Option (Evaluation ℝ m n)} {point : Vec ℝ n}
  {w : σ} {r : Run σ ℝ m n}

/-- An iteration has nothing evaluated but its own point. -/
theorem Visit.point_of_evaluate {v : Visit ℝ m n} {p : Vec ℝ n}
    (h : Call.evaluate p ∈ v.calls method P) : p = pointAfter method P v.previous := by
  unfold Visit.calls at h
  rcases List.mem_append.mp h with h | h
  · split_ifs at h
    · exact Call.evaluate.inj (List.mem_singleton.mp h)
    · exact absurd h List.not_mem_nil
  · obtain ⟨q, -, hq⟩ := List.mem_map.mp h
    cases hq

/-- A step that is found, by a solver with a name, does not move the parameter. -/
theorem solveBy_null {e : Evaluation ℝ m n} (hj : ∀ i, e.jacobian i j = 0)
    (he : ∀ solver, method = some solver → solver.IsExact e.jacobian) {x : Vec ℝ n}
    (h : Method.solveBy method e.jacobian e.residuals = .ok x) : x j = 0 := by
  cases method with
  | none => cases h
  | some solver => exact Method.solve_null hj (he solver rfl) h

/-- A run that ends at once, at an evaluation with the value if it returns one. -/
theorem keeps_ending {x : ℝ} {result : Except (Failure ℝ) (Optimum ℝ m n)} {w : σ}
    (h : ∀ opt, result = .ok opt → opt.evaluation.point j = x) :
    Keeps x j ((Run.ending result w).calls method P) (Run.ending result w).found
      (Run.ending result w).result :=
  ⟨fun _ hp => absurd hp List.not_mem_nil, fun _ he => absurd he List.not_mem_nil, h⟩

/-- An iteration before a run that keeps the parameter. -/
theorem keeps_after {x : ℝ} {v : Visit ℝ m n} (hp : pointAfter method P v.previous j = x)
    (hv : ∀ e, v.progress.found? = some e → e.point j = x)
    (h : Keeps x j (r.calls method P) r.found r.result) :
    Keeps x j ((r.after v).calls method P) (r.after v).found (r.after v).result := by
  refine ⟨fun p hcall => ?_, fun e he => ?_, h.returned⟩
  · obtain ⟨v', hv', hcall'⟩ := List.mem_flatMap.mp hcall
    rcases List.mem_cons.mp hv' with rfl | hv'
    · rw [Visit.point_of_evaluate hcall', hp]
    · exact h.asked p (List.mem_flatMap.mpr ⟨v', hv', hcall'⟩)
  · rw [Run.found_after] at he
    rcases List.mem_append.mp he with he | he
    · exact hv e (Option.mem_toList.mp he)
    · exact h.made e he

/-- **A run keeps the parameter** if its column is zero wherever the problem is evaluated. -/
theorem Runs.keeps (h : Runs method c P iterations evaluations done previous point w r)
    (hv : P.validator = none) (hp : point = pointAfter method P previous)
    (hnull : ∀ e ∈ r.found, ∀ i, e.jacobian i j = 0)
    (hexact : ∀ solver, method = some solver → ∀ e ∈ r.found, solver.IsExact e.jacobian) {x : ℝ}
    (hx : point j = x) : Keeps x j (r.calls method P) r.found r.result := by
  have hat {w w' : σ} {point : Vec ℝ n} {e : Evaluation ℝ m n}
      (he : (P.evaluation point).after w = (.ok e, w')) (hx : point j = x) : e.point j = x := by
    rw [Problem.point_of_validator hv he, hx]
  induction h with
  | overdue => exact keeps_ending fun _ h => by cases h
  | exhausted =>
    subst hp
    exact keeps_after hx (fun _ h => by cases h) (keeps_ending fun _ h => by cases h)
  | failed he =>
    subst hp
    exact keeps_after hx (fun _ h => by cases h) (keeps_ending fun _ h => by cases h)
  | unanswered he hc =>
    subst hp
    refine keeps_after hx (fun e h => ?_) (keeps_ending fun _ h => by cases h)
    cases h
    exact hat he hx
  | stopped he hc =>
    subst hp
    refine keeps_after hx (fun e h => ?_) (keeps_ending fun opt h => ?_)
    · cases h
      exact hat he hx
    · cases h
      exact hat he hx
  | unsolved he hc hne hs =>
    subst hp
    refine keeps_after hx (fun e h => ?_) (keeps_ending fun _ h => by cases h)
    cases h
    exact hat he hx
  | @stepped _ _ done previous _ _ e _ _ _ step r he hc hne hs hr ih =>
    subst hp
    rw [Run.found_after] at hnull hexact
    have hstep : step j = 0 := solveBy_null (hnull e List.mem_cons_self)
      (fun solver hsolver => hexact solver hsolver e List.mem_cons_self) hs
    refine keeps_after hx (fun e h => ?_) (ih ?_ (fun e he => hnull e (List.mem_cons_of_mem _ he))
      (fun solver hsolver e he => hexact solver hsolver e (List.mem_cons_of_mem _ he)) ?_)
    · cases h
      exact hat he hx
    · simp only [pointAfter, hs]
    · rw [Vec.ofFn_apply, hstep, add_zero, hat he hx]

/-- Solving a problem keeps the parameter. -/
theorem optimize_keeps (method : Option Method) (hv : P.validator = none) (w : σ)
    (hnull : ∀ e ∈ (optimize method P w).found, ∀ i, e.jacobian i j = 0)
    (hexact : ∀ solver, method = some solver → ∀ e ∈ (optimize method P w).found,
      solver.IsExact e.jacobian) :
    Keeps (P.start j) j ((optimize method P w).calls method P) (optimize method P w).found
      (optimize method P w).result := by
  by_cases hb : 1 ≤ P.maxEvaluations ∧ 1 ≤ P.maxIterations
  · rw [optimize_eq hb.1 hb.2] at hnull hexact ⊢
    cases hc : P.checker with
    | none => exact keeps_ending fun _ h => by cases h
    | some c =>
      rw [hc] at hnull hexact
      exact (runs_run method c P _ _ 0 none P.start w).keeps hv rfl hnull hexact rfl
  · obtain ⟨f, hf⟩ := optimize_of_no_budget (P := P) (by omega) method w
    rw [hf]
    exact keeps_ending fun _ h => by cases h

/-- **The normal equations are refused at the first step**: a run that evaluates the problem does so
once and fails. -/
theorem Runs.singular {solver : Method} (hsolver : solver = .lu ∨ solver = .cholesky)
    (h : Runs (some solver) c P iterations evaluations done none point w r)
    (hnull : ∀ e ∈ r.found, ∀ i, e.jacobian i j = 0) (hne : r.found ≠ []) :
    r.result = .error (.singularProblem solver) ∧ r.found.length = 1 := by
  cases h with
  | overdue | exhausted | failed => exact absurd rfl hne
  | unanswered _ hc | stopped _ hc => cases hc
  | @unsolved _ _ _ _ _ _ e _ _ _ _ _ _ _ hs =>
    have hj := hnull e List.mem_cons_self
    cases (Method.solve_singular hj hsolver).symm.trans hs
    exact ⟨rfl, rfl⟩
  | @stepped _ _ _ _ _ _ e _ _ _ _ r _ _ _ hs =>
    rw [Run.found_after] at hnull
    have hj := hnull e List.mem_cons_self
    cases (Method.solve_singular hj hsolver).symm.trans hs

theorem optimize_singular {solver : Method} (hsolver : solver = .lu ∨ solver = .cholesky) (w : σ)
    (hnull : ∀ e ∈ (optimize (some solver) P w).found, ∀ i, e.jacobian i j = 0)
    (hne : (optimize (some solver) P w).found ≠ []) :
    (optimize (some solver) P w).result = .error (.singularProblem solver) ∧
      (optimize (some solver) P w).found.length = 1 := by
  by_cases hb : 1 ≤ P.maxEvaluations ∧ 1 ≤ P.maxIterations
  · rw [optimize_eq hb.1 hb.2] at hnull hne ⊢
    cases hc : P.checker with
    | none =>
      rw [hc] at hne
      exact absurd rfl hne
    | some c =>
      rw [hc] at hnull hne
      exact (runs_run (some solver) c P _ _ 0 none P.start w).singular hsolver hnull hne
  · obtain ⟨f, hf⟩ := optimize_of_no_budget (P := P) (by omega) (some solver) w
    rw [hf] at hne
    exact absurd rfl hne

end GaussNewton

/-! ## Both optimizers -/

variable [Exact.Factorizations]

/-- An optimizer whose options were accepted. -/
def Optimizer.IsAccepted : Optimizer ℝ → Prop
  | levenbergMarquardt o => ∃ given, LevenbergMarquardt.Options.check given = .ok o
  | gaussNewton _ => True

/-- An optimizer whose linear solver, if it has one, factorizes a matrix exactly. -/
def Optimizer.IsExact : Optimizer ℝ → Mat ℝ m n → Prop
  | levenbergMarquardt _, _ => True
  | gaussNewton method, J => ∀ solver, method = some solver → solver.IsExact J

/-- **Headline.** If there is no validator and one column of the Jacobian is zero wherever an
optimizer evaluates the problem, its parameter keeps the start value at every point that the
optimizer asks for, in every evaluation and in what it returns. A solver of the normal equations
makes one evaluation and then fails to converge. -/
theorem Optimizer.keeps_null (opt : Optimizer ℝ) (hopt : opt.IsAccepted) (P : Problem σ ℝ m n)
    (hv : P.validator = none) (w : σ) (j : Fin n)
    (hnull : ∀ e ∈ opt.found P w, ∀ i, e.jacobian i j = 0)
    (hexact : ∀ e ∈ opt.found P w, opt.IsExact e.jacobian) :
    Keeps (P.start j) j (opt.calls P w) (opt.found P w) (opt.optimize P w).result ∧
      ∀ solver, opt = .gaussNewton (some solver) → solver = .lu ∨ solver = .cholesky →
        opt.found P w ≠ [] → (opt.found P w).length = 1 ∧
          ∃ f, (opt.optimize P w).result = .error f ∧ f.category = .convergence := by
  cases opt with
  | levenbergMarquardt o =>
    obtain ⟨given, hc⟩ := hopt
    refine ⟨(LevenbergMarquardt.courses_optimize o P w).keeps (LevenbergMarquardt.Options.bounds hc)
      hv hnull, fun solver h => by cases h⟩
  | gaussNewton method =>
    refine ⟨GaussNewton.optimize_keeps method hv w hnull
      fun solver hsolver e he => hexact e he solver hsolver, ?_⟩
    rintro solver h hsolver hne
    cases h
    obtain ⟨hresult, hlength⟩ := GaussNewton.optimize_singular hsolver w hnull hne
    exact ⟨hlength, _, hresult, rfl⟩

/-- Every evaluation of an affine model that an optimizer makes has its Jacobian. -/
theorem Optimizer.jacobian_of_mem_found {A : Mat ℝ m n} {b : Vec ℝ m}
    (hmodel : P.model.IsAffine A b) (hv : P.validator = none) {opt : Optimizer ℝ} {w : σ}
    {e : Evaluation ℝ m n} (he : e ∈ opt.found P w) : e.jacobian = P.jacobian A := by
  obtain ⟨p, w₁, w₂, heval⟩ := exists_evaluation (fun _ h => not_lt.mpr h) he
  obtain ⟨w₃, haffine⟩ := hmodel.evaluation hv p w₁
  rw [haffine] at heval
  obtain ⟨h, -⟩ := Prod.mk.inj heval
  obtain rfl := Except.ok.inj h
  rfl

/-- One observation that the second parameter has no influence on. -/
noncomputable def idleProblem : Problem Unit ℝ 1 2 where
  model := affineModel (Mat.ofFn fun _ c => if c = 0 then 1 else 0) (Vec.replicate 1 0)
  target := Vec.replicate 1 1
  start := Vec.replicate 2 3
  weight := none
  checker := some (.entries .point (.int 0) (.int 1) Checker.noLimit)
  maxEvaluations := 4
  maxIterations := 4
  deferred := false
  validator := none

omit [Exact.Factorizations] in
theorem Optimizer.keeps_null_idle :
    let _ := Exact.factorizations
    let trust : Optimizer ℝ := .levenbergMarquardt (LevenbergMarquardt.exactOptions ℝ)
    let full : Optimizer ℝ := .gaussNewton (some .qr)
    Keeps 3 1 (trust.calls idleProblem ()) (trust.found idleProblem ())
        (trust.optimize idleProblem ()).result ∧
      Keeps 3 1 (full.calls idleProblem ()) (full.found idleProblem ())
        (full.optimize idleProblem ()).result := by
  intro _ trust full
  have hnull (opt : Optimizer ℝ) : ∀ e ∈ opt.found idleProblem (), ∀ i, e.jacobian i 1 = 0 := by
    intro e he i
    rw [jacobian_of_mem_found (affineModel_isAffine _ one_pos _) rfl he]
    exact (Mat.ofFn_apply _ i 1).trans (if_neg one_ne_zero)
  have htrust : trust.IsAccepted :=
    ⟨(LevenbergMarquardt.exactOptions ℝ).map Setting.number, rfl⟩
  have hfull : full.IsAccepted := trivial
  have hstart : idleProblem.start 1 = 3 := Vec.replicate_apply 3 1
  have hkeeps := (trust.keeps_null htrust idleProblem rfl () 1 (hnull trust) fun _ _ => trivial).1
  have hkeeps' := (full.keeps_null hfull idleProblem rfl () 1 (hnull full) fun _ _ => by
    rintro _ ⟨⟩ ⟨⟩).1
  rw [hstart] at hkeeps hkeeps'
  exact ⟨hkeeps, hkeeps'⟩

end LeastSquares
