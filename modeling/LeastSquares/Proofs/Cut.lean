import LeastSquares.Proofs.Calls
import LeastSquares.Proofs.OneStep

/-!
# Budgets only cut

The budgets of a problem decide where a run is cut off and nothing else, although the number of the
outer iteration is told to the checker and the two counters race each other. So a run that returns
tells how every other pair of budgets would have done: enough for its counts, and the run is the
same; one of them short, and it ends at the first counter that is exceeded, after the first of the
calls.

A run follows its rules in one way only (`Runs.eq_run`). So the other run need not be looked at: it
is built from the rules that the returning one follows.

Results:
* `LevenbergMarquardt.Runs.withBudgets`, `LevenbergMarquardt.Runs.cut` and the same of
  `GaussNewton`: a returning run under other budgets;
* `Optimizer.optimize_withBudgets`: both of both optimizers.
-/

namespace LeastSquares

variable {α σ : Type} {m n : Nat}

/-- A problem with other budgets. -/
def Problem.withBudgets (P : Problem σ α m n) (E I : Int) : Problem σ α m n :=
  { P with maxEvaluations := E, maxIterations := I }

/-- **A run cut off** by the budgets `E` and `I`, one of which is short of what `found` counts: it
ends at the counter that is exceeded, after the first of the calls. -/
structure CutOff (E I : Int) (found : Optimum α m n) (all : List (Call α m n))
    (result : Except (Failure α) (Optimum α m n)) (calls : List (Call α m n)) : Prop where
  result_eq : E < found.evaluations ∧ result = .error (.exceeded .evaluationsExceeded E) ∨
    I < found.iterations ∧ result = .error (.exceeded .iterationsExceeded I)
  calls_prefix : calls <+: all

theorem CutOff.append {E I : Int} {found : Optimum α m n} {all calls : List (Call α m n)}
    {result : Except (Failure α) (Optimum α m n)} (h : CutOff E I found all result calls)
    (first : List (Call α m n)) : CutOff E I found (first ++ all) result (first ++ calls) :=
  ⟨h.result_eq, List.prefix_append_right_inj first |>.mpr h.calls_prefix⟩

/-! ## The trust-region method -/

namespace LevenbergMarquardt

variable [Scalar α]

/-- How a run goes on after a judged trial. -/
theorem run_of_judges {o : Options α} {P : Problem σ α m n} {iteration : Nat} {s : Search α m n}
    {w w' : σ} {e : Evaluation α m n} {v : Option Bool} (hj : Judges P iteration s w e v w')
    (left used : Nat) :
    run o P (left + 1) used iteration s w = Run.after (s.trial iteration e v)
      (match s.outcome o e v with
      | .stop e' => Run.ending (.ok ⟨e', used + 1, iteration⟩) w'
      | .fail f => Run.ending (.error f) w'
      | .retry s' => run o P left (used + 1) iteration s' w'
      | .renew st rg =>
        if P.maxIterations ≤ iteration then
          Run.ending (.error (.exceeded .iterationsExceeded P.maxIterations)) w'
        else
          Run.begunAt st.evaluation <|
          match Search.start o st rg with
          | .error f => Run.ending (.error f) w'
          | .ok s' =>
            if s'.maxCosine ≤ o.orthogonalityTolerance then
              Run.ending (.ok ⟨st.evaluation, used + 1, iteration + 1⟩) w'
            else run o P left (used + 1) (iteration + 1) s' w') := by
  obtain ⟨w₁, he, hc⟩ := hj
  have hasked : (if (s.assess s.propose e).isAccepted = true then P.consult iteration s.base e
      else pure none) = s.consult P iteration e := rfl
  rw [run]
  simp only [he, hasked, hc]
  rfl

/-- A run follows its rules in one way only. -/
theorem Runs.eq_run {o : Options α} {P : Problem σ α m n} {left used iteration : Nat}
    {s : Search α m n} {w : σ} {r : Run σ α m n} (h : Runs o P left used iteration s w r) :
    r = run o P left used iteration s w := by
  induction h with
  | exhausted => rfl
  | failed he => rw [run]; simp only [he]
  | @unanswered left used iteration s w e w₁ f w' he hc =>
    have hasked : (if (s.assess s.propose e).isAccepted = true then P.consult iteration s.base e
        else pure none) = s.consult P iteration e := rfl
    rw [run]
    simp only [he, hasked, hc]
    rfl
  | stopped hj hn => rw [run_of_judges hj, hn]
  | stuck hj hn => rw [run_of_judges hj, hn]
  | retried hj hn _ ih => rw [run_of_judges hj, hn, ih]
  | overdue hj hn hi =>
    rw [run_of_judges hj, hn]
    simp only [if_pos hi]
  | undecomposed hj hn hi hs =>
    rw [run_of_judges hj, hn]
    simp only [if_neg hi, hs]
  | orthogonal hj hn hi hs hc =>
    rw [run_of_judges hj, hn]
    simp only [if_neg hi, hs, if_pos hc]
  | renewed hj hn hi hs hc _ ih =>
    rw [run_of_judges hj, hn]
    simp only [if_neg hi, hs, if_neg hc]
    rw [ih]

variable {o : Options α} {P : Problem σ α m n} {left used iteration : Nat} {s : Search α m n}
  {w : σ} {r : Run σ α m n} {found : Optimum α m n} {E I : Int}

/-- A run that returns has made an evaluation and counts on. -/
theorem Runs.counts (h : Runs o P left used iteration s w r) (hr : r.result = .ok found) :
    used < found.evaluations ∧ iteration ≤ found.iterations := by
  induction h with
  | exhausted | failed | unanswered | stuck | overdue | undecomposed => cases hr
  | stopped _ _ =>
    cases hr
    exact ⟨Nat.lt_succ_self _, Nat.le_refl _⟩
  | orthogonal _ _ _ _ _ =>
    cases hr
    exact ⟨Nat.lt_succ_self _, Nat.le_succ _⟩
  | retried _ _ _ ih =>
    obtain ⟨hused, hiteration⟩ := ih hr
    exact ⟨by omega, hiteration⟩
  | renewed _ _ _ _ _ _ ih =>
    obtain ⟨hused, hiteration⟩ := ih hr
    exact ⟨by omega, by omega⟩

/-- **Budgets for its counts** change nothing about a run that returns. -/
theorem Runs.withBudgets (h : Runs o P left used iteration s w r) (hr : r.result = .ok found)
    {left' : Nat} (hE : found.evaluations ≤ used + left') (hI : found.iterations ≤ I) :
    Runs o (P.withBudgets E I) left' used iteration s w r := by
  have hcounts := h.counts hr
  induction h generalizing left' with
  | exhausted | failed | unanswered | stuck | overdue | undecomposed => cases hr
  | stopped hj hn =>
    obtain ⟨k, rfl⟩ : ∃ k, left' = k + 1 := ⟨left' - 1, by omega⟩
    exact .stopped hj hn
  | retried hj hn hrest ih =>
    obtain ⟨k, rfl⟩ : ∃ k, left' = k + 1 := ⟨left' - 1, by omega⟩
    exact .retried hj hn (ih hr (by omega) (hrest.counts hr))
  | @orthogonal _ _ iteration _ _ _ _ _ _ _ _ hj hn _ hs hc =>
    obtain ⟨k, rfl⟩ : ∃ k, left' = k + 1 := ⟨left' - 1, by omega⟩
    cases hr
    simp only at hI
    have hi : ¬ I ≤ iteration := by omega
    exact .orthogonal hj hn hi hs hc
  | @renewed _ _ iteration _ _ _ _ _ _ _ _ _ hj hn _ hs hc hrest ih =>
    obtain ⟨k, rfl⟩ : ∃ k, left' = k + 1 := ⟨left' - 1, by omega⟩
    have hnext := (hrest.counts hr).2
    have hi : ¬ I ≤ iteration := by omega
    exact .renewed hj hn hi hs hc (ih hr (by omega) (hrest.counts hr))

/-- Without evaluations a run is cut off before its first trial. -/
theorem exists_exhausted (o : Options α) (P : Problem σ α m n) (iteration : Nat) (s : Search α m n)
    (w : σ) (all : List (Call α m n)) (hE : E = used) (hused : used < found.evaluations) :
    ∃ r', Runs o (P.withBudgets E I) 0 used iteration s w r' ∧
      CutOff E I found all r'.result (r'.trials.flatMap (Trial.calls P)) :=
  ⟨_, .exhausted used iteration s w, .inl ⟨by omega, rfl⟩, List.nil_prefix⟩

/-- Without another outer iteration a run is cut off after its first trial. -/
theorem exists_overdue {e : Evaluation α m n} {v : Option Bool} {w' : σ} {st : Standing α m n}
    {rg : Region α n} (hj : Judges P iteration s w e v w') (hn : s.outcome o e v = .renew st rg)
    (hi : I ≤ iteration) (hI : I < found.iterations) (left used : Nat)
    (rest : List (Call α m n)) :
    ∃ r', Runs o (P.withBudgets E I) (left + 1) used iteration s w r' ∧
      CutOff E I found ((s.trial iteration e v).calls P ++ rest) r'.result
        (r'.trials.flatMap (Trial.calls P)) := by
  refine ⟨_, .overdue hj hn hi, .inr ⟨hI, rfl⟩, ?_⟩
  change [s.trial iteration e v].flatMap _ <+: _
  rw [List.flatMap_singleton]
  exact List.prefix_append _ rest

/-- **A budget that is short of its counts** cuts a run that returns. -/
theorem Runs.cut (h : Runs o P left used iteration s w r) (hr : r.result = .ok found)
    {left' : Nat} (hE : E = (used + left' : Nat)) (hI : iteration ≤ I)
    (hshort : E < found.evaluations ∨ I < found.iterations) :
    ∃ r', Runs o (P.withBudgets E I) left' used iteration s w r' ∧
      CutOff E I found (r.trials.flatMap (Trial.calls P)) r'.result
        (r'.trials.flatMap (Trial.calls P)) := by
  have hcounts := h.counts hr
  induction h generalizing left' with
  | exhausted | failed | unanswered | stuck | overdue | undecomposed => cases hr
  | stopped hj hn =>
    cases left' with
    | zero => exact exists_exhausted o P _ _ _ _ hE hcounts.1
    | succ k =>
      -- such a run spends one evaluation and no iteration
      cases hr
      simp only at hshort
      omega
  | @retried _ used _ _ _ _ _ _ _ _ hj hn hrest ih =>
    cases left' with
    | zero => exact exists_exhausted o P _ _ _ _ hE hcounts.1
    | succ k =>
      have hE' : E = (used + 1 + k : Nat) := by omega
      obtain ⟨r', hrun, hcut⟩ := ih hr hE' hI (hrest.counts hr)
      exact ⟨_, .retried hj hn hrun, hcut.append _⟩
  | @orthogonal _ used iteration _ _ _ _ _ st _ _ hj hn _ hs hc =>
    cases left' with
    | zero => exact exists_exhausted o P _ _ _ _ hE hcounts.1
    | succ k =>
      cases hr
      have hnext : I < (iteration + 1 : Nat) := hshort.resolve_left (by simp only; omega)
      have hi : I ≤ iteration := by omega
      exact exists_overdue hj hn hi hnext k used []
  | @renewed _ used iteration _ _ _ _ _ _ _ _ _ hj hn _ hs hc hrest ih =>
    cases left' with
    | zero => exact exists_exhausted o P _ _ _ _ hE hcounts.1
    | succ k =>
      have hnext := (hrest.counts hr).2
      by_cases hi : I ≤ iteration
      · exact exists_overdue hj hn hi (by omega) k _ _
      · have hE' : E = (used + 1 + k : Nat) := by omega
        obtain ⟨r', hrun, hcut⟩ := ih hr hE' (by omega) (hrest.counts hr)
        exact ⟨_, .renewed hj hn hi hs hc hrun, hcut.append _⟩

/-! ### Courses -/

/-- With budgets, a problem is solved from the evaluation of its start point on. -/
theorem optimize_eq {o : Options (Number α)} (hE : P.maxEvaluations = (left : Nat) + 1)
    (hI : 1 ≤ P.maxIterations) : optimize o P w =
      match (P.evaluation P.start).after w with
      | (.error f, w) => ⟨Run.ending (.error f) w, .failed⟩
      | (.ok e, w) => ⟨runFrom o.values P left e w, .made e none⟩ := by
  unfold optimize Problem.iterationCounter Problem.evaluationCounter
  rw [Counter.create_int_of_pos _ hI, Counter.create_int_of_pos _ (by omega)]
  have hto : P.maxEvaluations.toNat = left + 1 := by omega
  rcases (P.evaluation P.start).after w with ⟨_ | _, w'⟩ <;> simp only [hto]

/-- From a finite cost on, a run begins its first outer iteration. -/
theorem runFrom_eq {e : Evaluation α m n} (hf : isFinite e.cost = true) : runFrom o P left e w =
      Run.begunAt e (match Search.start o (.ofEvaluation e) Region.initial with
        | .error f => Run.ending (.error f) w
        | .ok s =>
          if s.maxCosine ≤ o.orthogonalityTolerance then Run.ending (.ok ⟨e, 1, 1⟩) w
          else run o P left 1 1 s w) :=
  if_neg (fun h => Bool.false_ne_true (h.symm.trans hf))

/-- With budgets, a course follows its rules in one way only. -/
theorem Courses.eq_optimize {o : Options (Number α)} {c : Course σ α m n} (h : Courses o P w c)
    (hE : 1 ≤ P.maxEvaluations) (hI : 1 ≤ P.maxIterations) : c = optimize o P w := by
  cases h with
  | refused hb f => exact absurd hb (by omega)
  | failed hE hI he => rw [optimize_eq hE hI, he]
  | @infinite left e _ hE hI he hf =>
    have hrun (w : σ) : runFrom o.values P left e w =
        Run.ending (.error (.costNotFinite e.cost)) w := if_pos hf
    rw [optimize_eq hE hI, he]
    simp only [hrun]
  | undecomposed hE hI he hf hs =>
    rw [optimize_eq hE hI, he]
    simp only [runFrom_eq hf, hs]
  | orthogonal hE hI he hf hs hc =>
    rw [optimize_eq hE hI, he]
    simp only [runFrom_eq hf, hs, if_pos hc]
  | begun hE hI he hf hs hc hr =>
    rw [optimize_eq hE hI, he]
    simp only [runFrom_eq hf, hs, if_neg hc, ← hr.eq_run]

/-- **Budgets for its counts** change nothing about a course that returns. -/
theorem Courses.withBudgets {o : Options (Number α)} {c : Course σ α m n} (h : Courses o P w c)
    (hr : c.result = .ok found) (hE : found.evaluations ≤ E) (hI : found.iterations ≤ I) :
    Courses o (P.withBudgets E I) w c ∧ 1 ≤ E ∧ 1 ≤ I := by
  cases h with
  | refused | failed | infinite | undecomposed => cases hr
  | orthogonal _ _ he hf hs hc =>
    cases hr
    simp only at hE hI
    obtain ⟨left', rfl⟩ : ∃ k : Nat, E = k + 1 := ⟨E.toNat - 1, by omega⟩
    have hI' : 1 ≤ I := hI
    exact ⟨.orthogonal rfl hI' he hf hs hc, by omega, hI'⟩
  | begun _ _ he hf hs hc hrun =>
    obtain ⟨hused, hiteration⟩ := hrun.counts hr
    obtain ⟨left', rfl⟩ : ∃ k : Nat, E = k + 1 := ⟨E.toNat - 1, by omega⟩
    have hI' : 1 ≤ I := by omega
    exact ⟨.begun rfl hI' he hf hs hc (hrun.withBudgets hr (by omega) hI), by omega, hI'⟩

/-- **A budget that is short of its counts** cuts a course that returns. -/
theorem Courses.cut {o : Options (Number α)} {c : Course σ α m n} (h : Courses o P w c)
    (hr : c.result = .ok found) (hE : 1 ≤ E) (hI : 1 ≤ I)
    (hshort : E < found.evaluations ∨ I < found.iterations) :
    ∃ c', Courses o (P.withBudgets E I) w c' ∧
      CutOff E I found (c.calls P) c'.result (c'.calls P) := by
  cases h with
  | refused | failed | infinite | undecomposed => cases hr
  | orthogonal _ _ he hf hs hc =>
    cases hr
    simp only at hshort
    omega
  | begun _ _ he hf hs hc hrun =>
    obtain ⟨left', rfl⟩ : ∃ k : Nat, E = k + 1 := ⟨E.toNat - 1, by omega⟩
    have hE' : ((left' : Int) + 1) = (1 + left' : Nat) := by omega
    obtain ⟨r', hrun', hcut⟩ := hrun.cut hr hE' hI hshort
    exact ⟨_, .begun rfl hI he hf hs hc hrun', hcut.append [.evaluate P.start]⟩

theorem optimize_eq_of_counts {o : Options (Number α)} (hr : (optimize o P w).result = .ok found)
    (hE : found.evaluations ≤ E) (hI : found.iterations ≤ I) :
    optimize o (P.withBudgets E I) w = optimize o P w := by
  obtain ⟨h, hE', hI'⟩ := (courses_optimize o P w).withBudgets hr hE hI
  exact (h.eq_optimize hE' hI').symm

theorem optimize_cut {o : Options (Number α)} (hr : (optimize o P w).result = .ok found)
    (hE : 1 ≤ E) (hI : 1 ≤ I) (hshort : E < found.evaluations ∨ I < found.iterations) :
    CutOff E I found ((optimize o P w).calls P) (optimize o (P.withBudgets E I) w).result
      ((optimize o (P.withBudgets E I) w).calls P) := by
  obtain ⟨c, h, hcut⟩ := (courses_optimize o P w).cut hr hE hI hshort
  obtain rfl := h.eq_optimize hE hI
  exact hcut

end LevenbergMarquardt

/-! ## The Gauss-Newton method -/

namespace GaussNewton

variable [Spectral α] {method : Option Method} {c : Checker σ α} {P : Problem σ α m n}
  {iterations evaluations done : Nat} {previous : Option (Evaluation α m n)} {point : Vec α n}
  {w : σ} {r : Run σ α m n} {found : Optimum α m n} {E I : Int}

/-- A run that returns has made an iteration with its evaluation. -/
theorem Runs.counts (h : Runs method c P iterations evaluations done previous point w r)
    (hr : r.result = .ok found) : done < found.evaluations ∧ done < found.iterations := by
  induction h with
  | overdue | exhausted | failed | unanswered | unsolved => cases hr
  | stopped _ _ =>
    cases hr
    exact ⟨Nat.lt_succ_self _, Nat.lt_succ_self _⟩
  | stepped _ _ _ _ _ ih =>
    obtain ⟨hE, hI⟩ := ih hr
    exact ⟨by omega, by omega⟩

/-- **Budgets for its counts** change nothing about a run that returns. -/
theorem Runs.withBudgets (h : Runs method c P iterations evaluations done previous point w r)
    (hr : r.result = .ok found) {iterations' evaluations' : Nat}
    (hE : found.evaluations ≤ done + evaluations') (hI : found.iterations ≤ done + iterations') :
    Runs method c (P.withBudgets E I) iterations' evaluations' done previous point w r := by
  have hcounts := h.counts hr
  induction h generalizing iterations' evaluations' with
  | overdue | exhausted | failed | unanswered | unsolved => cases hr
  | stopped he hc =>
    obtain ⟨i, rfl⟩ : ∃ k, iterations' = k + 1 := ⟨iterations' - 1, by omega⟩
    obtain ⟨k, rfl⟩ : ∃ k, evaluations' = k + 1 := ⟨evaluations' - 1, by omega⟩
    exact .stopped he hc
  | stepped he hc hv hs hrest ih =>
    obtain ⟨i, rfl⟩ : ∃ k, iterations' = k + 1 := ⟨iterations' - 1, by omega⟩
    obtain ⟨k, rfl⟩ : ∃ k, evaluations' = k + 1 := ⟨evaluations' - 1, by omega⟩
    exact .stepped he hc hv hs (ih hr (by omega) (by omega) (hrest.counts hr))

/-- Without iterations or evaluations a run is cut off before its first evaluation. -/
theorem exists_spent (method : Option Method) (c : Checker σ α) (P : Problem σ α m n)
    (previous : Option (Evaluation α m n)) (point : Vec α n) (w : σ) (all : List (Call α m n))
    (hcounts : done < found.evaluations ∧ done < found.iterations) {iterations' evaluations' : Nat}
    (hE : E = (done + evaluations' : Nat)) (hI : I = (done + iterations' : Nat))
    (hspent : iterations' = 0 ∨ evaluations' = 0) :
    ∃ r', Runs method c (P.withBudgets E I) iterations' evaluations' done previous point w r' ∧
      CutOff E I found all r'.result (r'.calls method P) := by
  obtain ⟨hused, hdone⟩ := hcounts
  cases iterations' with
  | zero =>
    exact ⟨_, .overdue evaluations' done previous point w, .inr ⟨by omega, rfl⟩, List.nil_prefix⟩
  | succ i =>
    obtain rfl := hspent.resolve_left (Nat.succ_ne_zero i)
    exact ⟨_, .exhausted i done previous point w, .inl ⟨by omega, rfl⟩, List.nil_prefix⟩

/-- **A budget that is short of its counts** cuts a run that returns. -/
theorem Runs.cut (h : Runs method c P iterations evaluations done previous point w r)
    (hr : r.result = .ok found) {iterations' evaluations' : Nat}
    (hE : E = (done + evaluations' : Nat)) (hI : I = (done + iterations' : Nat))
    (hshort : E < found.evaluations ∨ I < found.iterations) :
    ∃ r', Runs method c (P.withBudgets E I) iterations' evaluations' done previous point w r' ∧
      CutOff E I found (r.calls method P) r'.result (r'.calls method P) := by
  have hcounts := h.counts hr
  by_cases hspent : iterations' = 0 ∨ evaluations' = 0
  · exact exists_spent method c P previous point w _ hcounts hE hI hspent
  induction h generalizing iterations' evaluations' with
  | overdue | exhausted | failed | unanswered | unsolved => cases hr
  | stopped he hc =>
    cases hr
    simp only at hshort
    omega
  | @stepped _ _ done _ _ _ e _ v w' step r he hc hv hs hrest ih =>
    obtain ⟨i, rfl⟩ : ∃ k, iterations' = k + 1 := ⟨iterations' - 1, by omega⟩
    obtain ⟨k, rfl⟩ : ∃ k, evaluations' = k + 1 := ⟨evaluations' - 1, by omega⟩
    have hE' : E = (done + 1 + k : Nat) := by omega
    have hI' : I = (done + 1 + i : Nat) := by omega
    have hrun : ∃ r', Runs method c (P.withBudgets E I) i k (done + 1) (some e)
        (Vec.ofFn fun i => e.point i + step i) w' r' ∧
        CutOff E I found (r.calls method P) r'.result (r'.calls method P) := by
      by_cases hspent : i = 0 ∨ k = 0
      · exact exists_spent method c P _ _ _ _ (hrest.counts hr) hE' hI' hspent
      · exact ih hr hE' hI' (hrest.counts hr) hspent
    obtain ⟨r', hrun, hcut⟩ := hrun
    exact ⟨_, .stepped he hc hv hs hrun, hcut.append _⟩

/-- A run that returns has had budgets and a checker. -/
theorem exists_runs (hr : (optimize method P w).result = .ok found) :
    ∃ c iterations evaluations, P.checker = some c ∧
      Runs method c P iterations evaluations 0 none P.start w (optimize method P w) := by
  by_cases hb : 1 ≤ P.maxEvaluations ∧ 1 ≤ P.maxIterations
  · have heq := optimize_eq hb.1 hb.2 method w
    rw [heq] at hr ⊢
    cases hc : P.checker with
    | none =>
      rw [hc] at hr
      cases hr
    | some c => exact ⟨c, _, _, rfl, runs_run method c P _ _ 0 none P.start w⟩
  · obtain ⟨f, hf⟩ := optimize_of_no_budget (P := P) (by omega) method w
    rw [hf] at hr
    cases hr

theorem optimize_eq_of_counts (hr : (optimize method P w).result = .ok found)
    (hE : found.evaluations ≤ E) (hI : found.iterations ≤ I) :
    optimize method (P.withBudgets E I) w = optimize method P w := by
  obtain ⟨c, _, _, hc, h⟩ := exists_runs hr
  have hcounts := h.counts hr
  have hrun : Runs method c (P.withBudgets E I) I.toNat E.toNat 0 none P.start w
      (optimize method P w) := h.withBudgets hr (by omega) (by omega)
  have hE' : 1 ≤ E := by omega
  have hI' : 1 ≤ I := by omega
  exact (Runs.eq_optimize (P := P.withBudgets E I) hc hE' hI' hrun).symm

theorem optimize_cut (hr : (optimize method P w).result = .ok found) (hE : 1 ≤ E) (hI : 1 ≤ I)
    (hshort : E < found.evaluations ∨ I < found.iterations) :
    CutOff E I found ((optimize method P w).calls method P)
      (optimize method (P.withBudgets E I) w).result
      ((optimize method (P.withBudgets E I) w).calls method P) := by
  obtain ⟨c, _, _, hc, h⟩ := exists_runs hr
  have hE' : E = (0 + E.toNat : Nat) := by omega
  have hI' : I = (0 + I.toNat : Nat) := by omega
  obtain ⟨r, hrun, hcut⟩ := h.cut hr hE' hI' hshort
  obtain rfl := Runs.eq_optimize (P := P.withBudgets E I) hc hE hI hrun
  exact hcut

end GaussNewton

/-! ## Both optimizers -/

/-- **Budgets only cut**. An optimizer that returns does the same with any budgets for what it
counted; with positive budgets one of which is short of it, it ends at a counter that is exceeded,
after the first of the calls. -/
theorem Optimizer.optimize_withBudgets [Spectral α] (opt : Optimizer α) (P : Problem σ α m n)
    (w : σ) {found : Optimum α m n} (h : (opt.optimize P w).result = .ok found) (E I : Int) :
    (found.evaluations ≤ E → found.iterations ≤ I →
      opt.optimize (P.withBudgets E I) w = opt.optimize P w ∧
        opt.calls (P.withBudgets E I) w = opt.calls P w) ∧
    (1 ≤ E → 1 ≤ I → E < found.evaluations ∨ I < found.iterations →
      CutOff E I found (opt.calls P w) (opt.optimize (P.withBudgets E I) w).result
        (opt.calls (P.withBudgets E I) w)) ∧
    (opt.optimize (P.withBudgets E I) w).state = P.replay (opt.calls (P.withBudgets E I) w) w := by
  refine ⟨fun hE hI => ?_, fun hE hI hshort => ?_, opt.optimize_state (P.withBudgets E I) w⟩
  · cases opt with
    | levenbergMarquardt o =>
      have heq := LevenbergMarquardt.optimize_eq_of_counts h hE hI
      simp only [optimize, calls, heq]
      exact ⟨trivial, rfl⟩
    | gaussNewton method =>
      have heq := GaussNewton.optimize_eq_of_counts h hE hI
      simp only [optimize, calls, heq]
      exact ⟨trivial, rfl⟩
  · cases opt with
    | levenbergMarquardt o => exact LevenbergMarquardt.optimize_cut h hE hI hshort
    | gaussNewton method => exact GaussNewton.optimize_cut h hE hI hshort

/-- The weighted mean, with more budget than it needs and with one evaluation only. -/
theorem Optimizer.optimize_withBudgets_mean :
    let _ := Exact.factorizations
    let opt : Optimizer ℝ := .gaussNewton (some .lu)
    let P := GaussNewton.meanProblem
    ∃ found, (opt.optimize P ()).result = .ok found ∧
      opt.optimize (P.withBudgets 5 4) () = opt.optimize P () ∧
      CutOff 1 4 found (opt.calls P ()) (opt.optimize (P.withBudgets 1 4) ()).result
        (opt.calls (P.withBudgets 1 4) ()) := by
  intro _ opt P
  obtain ⟨p, k, hr, hk, -⟩ := GaussNewton.exists_optimize_affine
    (affineModel_isAffine GaussNewton.ones Nat.two_pos _) rfl rfl GaussNewton.mean_checker
    GaussNewton.mean_independent GaussNewton.mean_accepts (fun h => by cases h) (P := P) le_rfl
    le_rfl ()
  have h : (opt.optimize P ()).result = .ok ⟨_, k, k⟩ := hr
  obtain ⟨hsame, -, -⟩ := opt.optimize_withBudgets P () h 5 4
  obtain ⟨-, hcut, -⟩ := opt.optimize_withBudgets P () h 1 4
  have hlarge : (k : Int) ≤ 5 ∧ (k : Int) ≤ 4 := by omega
  have hshort : (1 : Int) < k := by omega
  exact ⟨_, h, (hsame hlarge.1 hlarge.2).1, hcut le_rfl (by omega) (.inl hshort)⟩

end LeastSquares
