import Mathlib.Algebra.Order.Floor.Ring
import LeastSquares.Optimizer
import LeastSquares.Proofs.Extended
import LeastSquares.Proofs.FullSteps
import LeastSquares.Proofs.InnerFailures

/-!
# What building a problem settles

A problem is built from its parts as they were given. What stands at the end is what the single
tests read off them (`Problem.Reading`), and nothing that the tests let through should be refused by
an optimizer later on, except by the Gauss-Newton method, which needs a checker.

The budgets are the place where this can fail: a number is tested against zero as it was given, and
only then loses its fraction. So a budget strictly between zero and one is accepted, kept as zero,
and refused by every optimizer. Nothing else is.

Results:
* `Problem.create_eq_ok_iff`: the problems that are built, by what is read off their parts;
* `Number.exists_of_toCount`: a budget is a positive real number, and its whole part is kept;
* `LevenbergMarquardt.optimize_category_ne`, `GaussNewton.optimize_category`: with budgets of at
  least one, only a missing checker is a failure of the configuration;
* `Problem.create_isSettled_iff`: a problem is settled exactly if both budgets were at least one.
-/

namespace LeastSquares

variable {α σ : Type} {m n : Nat}

/-! ## Reading the parts -/

/-- A list comes back from the array that it was laid out as, if it passes the test. -/
theorem Nested.checkVector_ofList [Scalar α] {xs : List α} (h : xs.all isFinite) (name : String) :
    (ofList xs).checkVector name true = .ok xs := by
  simp [checkVector, vectorEntries, shapeOf, maxDimensions, shape?_ofList, flatten_ofList, h, bind,
    Except.bind, pure, Except.pure]

namespace Problem

/-- A checker as it was given. -/
def readChecker (given : CheckerGiven σ α) : Except (Failure α) (Option (Checker σ α)) :=
  match given with
  | .none => pure none
  | .checker c => pure (some c)
  | .other kind => throw (.checkerKind kind)

/-- What is read off the parts of a problem. -/
structure Reading (σ α : Type) where
  target : List α
  start : List α
  model : Model σ α start.length
  weight : Option (WeightRoot α target.length)
  evaluations : Number α
  iterations : Number α
  checker : Option (Checker σ α)
  maxEvaluations : Int
  maxIterations : Int

/-- The problem that is read off the parts. -/
def Reading.problem (r : Reading σ α) (parts : ProblemParts σ α) : AnyProblem σ α where
  m := r.target.length
  n := r.start.length
  problem :=
    { model := r.model
      target := Vec.ofList r.target
      start := Vec.ofList r.start
      weight := r.weight
      checker := r.checker
      maxEvaluations := r.maxEvaluations
      maxIterations := r.maxIterations
      deferred := parts.deferred
      validator := parts.validator.map fun f => f r.start.length }

variable [Spectral α]

/-- Every test that the parts are put to, with what it reads. -/
structure Reading.Of (r : Reading σ α) (parts : ProblemParts σ α) : Prop where
  target : parts.target.checkVector "target" true = .ok r.target
  start : parts.start.checkVector "start" true = .ok r.start
  model : modelOf parts.model r.start.length = .ok r.model
  weight : weightOf parts.weight r.target.length = .ok r.weight
  evaluations : budgetOf .evaluations parts.maxEvaluations = .ok r.evaluations
  iterations : budgetOf .iterations parts.maxIterations = .ok r.iterations
  checker : readChecker parts.checker = .ok r.checker
  maxEvaluations : r.evaluations.toCount = .ok r.maxEvaluations
  maxIterations : r.iterations.toCount = .ok r.maxIterations

/-- The tests, one after the other. -/
theorem create_eq (parts : ProblemParts σ α) : create parts = (do
    let target ← parts.target.checkVector "target" true
    let start ← parts.start.checkVector "start" true
    let model ← modelOf parts.model start.length
    let weight ← weightOf parts.weight target.length
    let evaluations ← budgetOf .evaluations parts.maxEvaluations
    let iterations ← budgetOf .iterations parts.maxIterations
    let checker ← readChecker parts.checker
    let maxEvaluations ← evaluations.toCount
    let maxIterations ← iterations.toCount
    return Reading.problem ⟨target, start, model, weight, evaluations, iterations, checker,
      maxEvaluations, maxIterations⟩ parts) := by
  unfold create readChecker
  cases parts.checker <;> rfl

/-- **A problem is built** exactly if all its parts pass their tests, and then is what they read. -/
theorem create_eq_ok_iff {parts : ProblemParts σ α} {p : AnyProblem σ α} :
    create parts = .ok p ↔ ∃ r : Reading σ α, r.Of parts ∧ p = r.problem parts := by
  rw [create_eq]
  constructor
  · intro h
    obtain ⟨target, htarget, h⟩ := of_bind_eq_ok h
    obtain ⟨start, hstart, h⟩ := of_bind_eq_ok h
    obtain ⟨model, hmodel, h⟩ := of_bind_eq_ok h
    obtain ⟨weight, hweight, h⟩ := of_bind_eq_ok h
    obtain ⟨evaluations, hevaluations, h⟩ := of_bind_eq_ok h
    obtain ⟨iterations, hiterations, h⟩ := of_bind_eq_ok h
    obtain ⟨checker, hchecker, h⟩ := of_bind_eq_ok h
    obtain ⟨maxEvaluations, hmaxEvaluations, h⟩ := of_bind_eq_ok h
    obtain ⟨maxIterations, hmaxIterations, h⟩ := of_bind_eq_ok h
    exact ⟨_, ⟨htarget, hstart, hmodel, hweight, hevaluations, hiterations, hchecker,
      hmaxEvaluations, hmaxIterations⟩, (Except.ok.inj h).symm⟩
  · rintro ⟨r, hr, rfl⟩
    simp only [hr.target, hr.start, hr.model, hr.weight, hr.evaluations, hr.iterations, hr.checker,
      hr.maxEvaluations, hr.maxIterations, bind, Except.bind]
    rfl

end Problem

/-- A budget is a number that is not at or below zero. -/
theorem Problem.budgetOf_eq_ok_iff [Scalar α] {counted : Counted} {given : Setting α}
    {x : Number α} :
    budgetOf counted given = .ok x ↔ given = .number x ∧ x.isNonpositive = false := by
  constructor
  · intro h
    obtain ⟨y, hy, htest⟩ := of_bind_eq_ok h
    cases given with
    | number z =>
      cases hy
      cases hz : y.isNonpositive <;> rw [hz] at htest
      · cases htest
        exact ⟨rfl, hz⟩
      · cases htest
    | text s => cases hy
    | other => cases hy
  · rintro ⟨rfl, hx⟩
    change (if x.isNonpositive = true then _ else _) = _
    rw [if_neg (Bool.eq_false_iff.mp hx)]
    rfl

/-! ## Failures of the configuration -/

namespace LevenbergMarquardt

variable [Scalar α] {o : Options α} {P : Problem σ α m n} {left used iteration : Nat}
  {s : Search α m n} {w : σ} {r : Run σ α m n} {f : Failure α}

/-- No run fails for the configuration. -/
theorem Runs.category_ne (h : Runs o P left used iteration s w r) (hf : r.result = .error f) :
    f.category ≠ .configuration := by
  induction h with
  | exhausted | overdue =>
    cases hf
    exact nofun
  | @failed left used iteration s w f w' he =>
    cases hf
    exact Failure.category_ne_of_isInner ((P.inner_evaluation s.propose.point).of_after_eq he)
  | @unanswered left used iteration s w e w₁ f w' he hc =>
    cases hf
    exact Failure.category_ne_of_isInner ((s.inner_consult P iteration e).of_after_eq hc)
  | stuck hj hn =>
    cases hf
    obtain ⟨tolerance, x, rfl⟩ := Search.of_outcome_eq_fail hn
    cases tolerance <;> exact nofun
  | @undecomposed left used iteration s w e v w' st rg f hj hn hi hs =>
    cases hf
    exact Failure.category_ne_of_isInner ((Search.inner_start o st rg).of_error f hs)
  | stopped | orthogonal => cases hf
  | retried _ _ _ ih => exact ih hf
  | renewed _ _ _ _ _ _ ih => exact ih hf

/-- With budgets, the trust-region method never fails for the configuration. -/
theorem optimize_category_ne {o : Options (Number α)} (hE : 1 ≤ P.maxEvaluations)
    (hI : 1 ≤ P.maxIterations) (hf : (optimize o P w).result = .error f) :
    f.category ≠ .configuration := by
  have hc := courses_optimize o P w
  generalize optimize o P w = c at hc hf
  cases hc with
  | refused hb _ => omega
  | failed _ _ he =>
    cases hf
    exact Failure.category_ne_of_isInner ((P.inner_evaluation P.start).of_after_eq he)
  | infinite =>
    cases hf
    exact nofun
  | undecomposed _ _ _ _ hs =>
    cases hf
    exact Failure.category_ne_of_isInner ((Search.inner_start _ _ _).of_error f hs)
  | orthogonal => cases hf
  | begun _ _ _ _ _ _ hr => exact hr.category_ne hf

end LevenbergMarquardt

namespace GaussNewton

variable [Spectral α] {method : Option Method} {c : Checker σ α} {P : Problem σ α m n}
  {iterations evaluations done : Nat} {previous : Option (Evaluation α m n)} {point : Vec α n}
  {w : σ} {r : Run σ α m n} {f : Failure α}

/-- No run fails for the configuration. -/
theorem Runs.category_ne (h : Runs method c P iterations evaluations done previous point w r)
    (hf : r.result = .error f) : f.category ≠ .configuration := by
  induction h with
  | overdue | exhausted =>
    cases hf
    exact nofun
  | @failed iterations evaluations done previous point w f w' he =>
    cases hf
    exact Failure.category_ne_of_isInner ((P.inner_evaluation point).of_after_eq he)
  | @unanswered iterations evaluations done previous point w e w₁ f w' he hc =>
    cases hf
    exact Failure.category_ne_of_isInner ((inner_consult c (done + 1) previous e).of_after_eq hc)
  | @unsolved iterations evaluations done previous point w e w₁ v w' f he hc hv hs =>
    cases hf
    exact Failure.category_ne_of_isInner
      ((Method.inner_solveBy method e.jacobian e.residuals).of_error f hs)
  | stopped => cases hf
  | stepped _ _ _ _ _ ih => exact ih hf

/-- With budgets, the Gauss-Newton method fails for the configuration only without a checker. -/
theorem optimize_category (hE : 1 ≤ P.maxEvaluations) (hI : 1 ≤ P.maxIterations)
    (hf : (optimize method P w).result = .error f) (hcat : f.category = .configuration) :
    f = .checkerMissing ∧ P.checker = none := by
  rw [optimize_eq hE hI] at hf
  cases hc : P.checker with
  | none =>
    rw [hc] at hf
    cases hf
    exact ⟨rfl, rfl⟩
  | some c =>
    rw [hc] at hf
    exact absurd hcat ((runs_run method c P _ _ 0 none P.start w).category_ne hf)

end GaussNewton

/-! ## Settled problems -/

/-- A problem that no optimizer refuses: its budgets are positive, its counters start at zero with
them as maxima, and a failure of the configuration is that of a Gauss-Newton method without a
checker. -/
structure Problem.IsSettled [Spectral α] (P : Problem σ α m n) : Prop where
  maxEvaluations_pos : 0 < P.maxEvaluations
  maxIterations_pos : 0 < P.maxIterations
  evaluationCounter : P.evaluationCounter = .ok ⟨.evaluationsExceeded, P.maxEvaluations, 0⟩
  iterationCounter : P.iterationCounter = .ok ⟨.iterationsExceeded, P.maxIterations, 0⟩
  configured : ∀ (opt : Optimizer α) (w : σ) (f : Failure α),
    (opt.optimize P w).result = .error f → f.category = .configuration →
      f = .checkerMissing ∧ P.checker = none ∧ ∃ method, opt = .gaussNewton method

section

variable [Spectral α] {P : Problem σ α m n}

/-- Positive budgets are all that it takes. -/
theorem Problem.isSettled (hE : 0 < P.maxEvaluations) (hI : 0 < P.maxIterations) :
    P.IsSettled where
  maxEvaluations_pos := hE
  maxIterations_pos := hI
  evaluationCounter := Counter.create_int_of_pos _ hE
  iterationCounter := Counter.create_int_of_pos _ hI
  configured := by
    intro opt w f hf hcat
    cases opt with
    | levenbergMarquardt o => exact absurd hcat (LevenbergMarquardt.optimize_category_ne hE hI hf)
    | gaussNewton method =>
      obtain ⟨rfl, hc⟩ := GaussNewton.optimize_category hE hI hf hcat
      exact ⟨rfl, hc, method, rfl⟩

/-- A budget of zero is refused by every optimizer, before it does anything. -/
theorem Optimizer.optimize_of_zero (hE : 0 ≤ P.maxEvaluations) (hI : 0 ≤ P.maxIterations)
    (h : P.maxEvaluations = 0 ∨ P.maxIterations = 0) (opt : Optimizer α) (w : σ) :
    (opt.optimize P w).result = .error (.countNotPositive (.int 0)) ∧
      (opt.optimize P w).state = w := by
  have hzero (category : Category) :
      (Counter.create category (.int 0) : Except (Failure α) Counter) =
        .error (.countNotPositive (.int 0)) :=
    LevenbergMarquardt.create_int_of_lt_one category Int.zero_lt_one
  have hcounter (category : Category) {k : Int} (hk : 0 ≤ k) :
      (Counter.create category (.int k) : Except (Failure α) Counter) =
          .error (.countNotPositive (.int 0)) ∧ k = 0 ∨
        (Counter.create category (.int k) : Except (Failure α) Counter) = .ok ⟨category, k, 0⟩ ∧
          k ≠ 0 := by
    by_cases hk' : k = 0
    · subst hk'
      exact .inl ⟨hzero category, rfl⟩
    · exact .inr ⟨Counter.create_int_of_pos category (by omega), hk'⟩
  cases opt with
  | levenbergMarquardt o =>
    change (LevenbergMarquardt.optimize o P w).result = _ ∧
      (LevenbergMarquardt.optimize o P w).state = _
    unfold LevenbergMarquardt.optimize Problem.iterationCounter Problem.evaluationCounter
    rcases hcounter .iterationsExceeded hI with ⟨hi, -⟩ | ⟨hi, hi0⟩
    · rw [hi]
      exact ⟨rfl, rfl⟩
    · rcases hcounter .evaluationsExceeded hE with ⟨he, -⟩ | ⟨-, he0⟩
      · rw [hi, he]
        exact ⟨rfl, rfl⟩
      · omega
  | gaussNewton method =>
    change (GaussNewton.optimize method P w).result = _ ∧
      (GaussNewton.optimize method P w).state = _
    unfold GaussNewton.optimize Problem.iterationCounter Problem.evaluationCounter
    rcases hcounter .evaluationsExceeded hE with ⟨he, -⟩ | ⟨he, he0⟩
    · rw [he]
      exact ⟨rfl, rfl⟩
    · rcases hcounter .iterationsExceeded hI with ⟨hi, -⟩ | ⟨-, hi0⟩
      · rw [he, hi]
        exact ⟨rfl, rfl⟩
      · omega

end

/-! ## Budgets as numbers -/

namespace Extended

/-- Where the arithmetic with infinities has its factorizations from. -/
class Factorizations where
  eigen {n : Nat} : Mat Extended n n → Eigen Extended n
  singular {m n : Nat} : Mat Extended m n → Singular Extended m n

noncomputable instance [F : Factorizations] : Spectral Extended where
  eigen := F.eigen
  singular := F.singular

/-- Factorizations that nobody relies on. -/
abbrev factorizations : Factorizations where
  eigen _ := ⟨Vec.replicate _ undefined, Mat.ofFn fun _ _ => undefined⟩
  singular _ := ⟨undefined, Mat.ofFn fun _ _ => undefined, Vec.replicate _ undefined,
    Mat.ofFn fun _ _ => undefined⟩

theorem ofInt_eq (k : Int) : (Scalar.ofInt k : Extended) = finite k := by
  cases k with
  | ofNat k => exact congrArg finite (Int.cast_natCast k).symm
  | negSucc k => exact congrArg finite (Int.cast_negSucc k).symm

end Extended

/-- A real number has its whole part, towards zero. -/
theorem Number.toCount_finite {r : ℝ} (hr : 0 ≤ r) :
    (Number.real (.finite r) : Number Extended).toCount = .ok ⌊r⌋ := by
  have hself : Scalar.isUndefined (Extended.finite r) = false :=
    congrArg not (decide_eq_true rfl)
  have hcut : Scalar.truncate (Extended.finite r) = ⌊r⌋ := if_pos hr
  unfold toCount
  simp only [hself, hcut]
  rfl

/-- A number that is not at or below zero and has a whole part is a positive real number: neither
an infinite nor an undefined number has one. -/
theorem Number.exists_of_toCount {x : Number Extended} {k : Int} (hx : x.isNonpositive = false)
    (hk : x.toCount = .ok k) : ∃ r : ℝ, x.value = .finite r ∧ 0 < r ∧ k = ⌊r⌋ := by
  cases x with
  | int j =>
    cases hk
    have hj : 0 < k := not_le.mp (of_decide_eq_false hx)
    exact ⟨k, Extended.ofInt_eq k, Int.cast_pos.mpr hj, (Int.floor_intCast k).symm⟩
  | real x =>
    cases x with
    | finite r =>
      have hr : 0 < r := not_le.mp (of_decide_eq_false hx)
      cases (toCount_finite hr.le).symm.trans hk
      exact ⟨r, rfl, hr, rfl⟩
    | infinite s => cases s <;> cases hk
    | undefined => cases hk

/-- The budgets of a problem, given as the positive real numbers `E` and `I`. -/
structure Problem.Keeps (P : Problem σ Extended m n) (parts : ProblemParts σ Extended)
    (E I : ℝ) : Prop where
  given : ∃ x y, parts.maxEvaluations = .number x ∧ x.value = .finite E ∧
    parts.maxIterations = .number y ∧ y.value = .finite I
  evaluations_pos : 0 < E
  iterations_pos : 0 < I
  maxEvaluations_eq : P.maxEvaluations = ⌊E⌋
  maxIterations_eq : P.maxIterations = ⌊I⌋

/-- **Headline.** A problem that is built keeps the whole parts of two positive real numbers, so no
budget was infinite or undefined. It is settled exactly if both numbers were at least one; with a
number below one every optimizer refuses it. -/
theorem Problem.create_isSettled_iff [Extended.Factorizations] {parts : ProblemParts σ Extended}
    {p : AnyProblem σ Extended} (h : create parts = .ok p) :
    ∃ E I : ℝ, p.problem.Keeps parts E I ∧ (p.problem.IsSettled ↔ 1 ≤ E ∧ 1 ≤ I) ∧
      (E < 1 ∨ I < 1 → ∀ (opt : Optimizer Extended) (w : σ),
        (opt.optimize p.problem w).result = .error (.countNotPositive (.int 0))) := by
  obtain ⟨r, hr, rfl⟩ := create_eq_ok_iff.mp h
  obtain ⟨hgivenE, hposE⟩ := budgetOf_eq_ok_iff.mp hr.evaluations
  obtain ⟨hgivenI, hposI⟩ := budgetOf_eq_ok_iff.mp hr.iterations
  obtain ⟨E, hE, hE0, hkE⟩ := Number.exists_of_toCount hposE hr.maxEvaluations
  obtain ⟨I, hI, hI0, hkI⟩ := Number.exists_of_toCount hposI hr.maxIterations
  have hfloor {x : ℝ} : 0 < ⌊x⌋ ↔ 1 ≤ x := Int.floor_pos
  have hkE' : (r.problem parts).problem.maxEvaluations = ⌊E⌋ := hkE
  have hkI' : (r.problem parts).problem.maxIterations = ⌊I⌋ := hkI
  refine ⟨E, I, ⟨⟨_, _, hgivenE, hE, hgivenI, hI⟩, hE0, hI0, hkE, hkI⟩, ⟨?_, ?_⟩, ?_⟩
  · intro hs
    exact ⟨hfloor.mp (hkE'.le.trans_lt' hs.maxEvaluations_pos),
      hfloor.mp (hkI'.le.trans_lt' hs.maxIterations_pos)⟩
  · rintro ⟨h1E, h1I⟩
    exact isSettled (hkE'.ge.trans_lt' (hfloor.mpr h1E)) (hkI'.ge.trans_lt' (hfloor.mpr h1I))
  · intro hlt opt w
    have hcut {x : ℝ} (hx0 : 0 < x) (hx : x < 1) : ⌊x⌋ = 0 :=
      Int.floor_eq_zero_iff.mpr ⟨hx0.le, hx⟩
    refine (opt.optimize_of_zero (hkE'.ge.trans' (Int.floor_nonneg.mpr hE0.le))
      (hkI'.ge.trans' (Int.floor_nonneg.mpr hI0.le)) ?_ w).1
    rcases hlt with hlt | hlt
    · exact .inl (hkE.trans (hcut hE0 hlt))
    · exact .inr (hkI.trans (hcut hI0 hlt))

/-! ## An example

The line through the origin, built with budgets that have a fraction. -/

/-- The parts of the line with the given budgets. -/
noncomputable def lineParts (E I : Number Extended) : ProblemParts Unit Extended where
  model := .joint fun _ p => pure (.ofList p.toList, .ofLists [[1]])
  target := .ofList [1]
  start := .ofList [0]
  weight := none
  checker := .none
  maxEvaluations := .number E
  maxIterations := .number I
  deferred := false
  validator := none

section

variable [Extended.Factorizations]

/-- What is read off the parts of the line. -/
noncomputable def lineReading (E I : Number Extended) (j k : Int) :
    Problem.Reading Unit Extended where
  target := [1]
  start := [0]
  model := .joint fun p => pure (.ofList p.toList, .ofLists [[1]])
  weight := none
  evaluations := E
  iterations := I
  checker := none
  maxEvaluations := j
  maxIterations := k

/-- The line is built with any positive budgets that have a whole part. -/
theorem exists_create_line {E I : Number Extended} {j k : Int} (hE : E.isNonpositive = false)
    (hI : I.isNonpositive = false) (hj : E.toCount = .ok j) (hk : I.toCount = .ok k) :
    ∃ p, Problem.create (lineParts E I) = .ok p ∧ p.problem.maxEvaluations = j ∧
      p.problem.maxIterations = k := by
  have hfinite (x : ℝ) : [Extended.finite x].all isFinite = true := rfl
  have hread : (lineReading E I j k).Of (lineParts E I) :=
    { target := Nested.checkVector_ofList (hfinite 1) _
      start := Nested.checkVector_ofList (hfinite 0) _
      model := rfl
      weight := rfl
      evaluations := Problem.budgetOf_eq_ok_iff.mpr ⟨rfl, hE⟩
      iterations := Problem.budgetOf_eq_ok_iff.mpr ⟨rfl, hI⟩
      checker := rfl
      maxEvaluations := hj
      maxIterations := hk }
  exact ⟨_, Problem.create_eq_ok_iff.mpr ⟨_, hread, rfl⟩, rfl, rfl⟩

/-- A positive real number as the budget of evaluations. -/
theorem exists_create_line_real {r : ℝ} (hr : 0 < r) :
    ∃ p, Problem.create (lineParts (.real (.finite r)) (.int 1)) = .ok p ∧
      p.problem.maxEvaluations = ⌊r⌋ ∧ p.problem.maxIterations = 1 :=
  exists_create_line (decide_eq_false (not_le.mpr hr)) rfl (Number.toCount_finite hr.le) rfl

end

/-- Two and a half evaluations are two. -/
theorem Problem.create_isSettled_line :
    let _ := Extended.factorizations
    ∃ p, create (lineParts (.real (.finite (5 / 2))) (.int 1)) = .ok p ∧
      p.problem.maxEvaluations = 2 ∧ p.problem.IsSettled := by
  intro _
  obtain ⟨p, hp, hE, hI⟩ := exists_create_line_real (show (0 : ℝ) < 5 / 2 by norm_num)
  have hfloor : ⌊(5 / 2 : ℝ)⌋ = 2 := by norm_num
  obtain ⟨E, I, hkept, hiff, -⟩ := create_isSettled_iff hp
  have h1E : (1 : ℝ) ≤ E := by
    rw [← Int.floor_pos, ← hkept.maxEvaluations_eq, hE, hfloor]
    decide
  have h1I : (1 : ℝ) ≤ I := by
    rw [← Int.floor_pos, ← hkept.maxIterations_eq, hI]
    decide
  exact ⟨p, hp, hE.trans hfloor, hiff.mpr ⟨h1E, h1I⟩⟩

/-- Half an evaluation is accepted, kept as none, and refused by the optimizer: a failure of the
configuration. -/
theorem Problem.create_not_isSettled :
    let _ := Extended.factorizations
    ∃ p, create (lineParts (.real (.finite (1 / 2))) (.int 1)) = .ok p ∧
      p.problem.maxEvaluations = 0 ∧
      p.problem.evaluationCounter = .error (.countNotPositive (.int 0)) ∧
      (∀ opt : Optimizer Extended,
        (opt.optimize p.problem ()).result = .error (.countNotPositive (.int 0))) ∧
      (Failure.countNotPositive (.int 0) : Failure Extended).category = .configuration ∧
      ¬ p.problem.IsSettled := by
  intro _
  obtain ⟨p, hp, hE, hI⟩ := exists_create_line_real (show (0 : ℝ) < 1 / 2 by norm_num)
  have hfloor : ⌊(1 / 2 : ℝ)⌋ = 0 := by norm_num
  have hzero : p.problem.maxEvaluations = 0 := hE.trans hfloor
  refine ⟨p, hp, hzero, ?_, fun opt => ?_, rfl, fun hs => ?_⟩
  · rw [evaluationCounter, hzero]
    exact LevenbergMarquardt.create_int_of_lt_one _ Int.zero_lt_one
  · exact (opt.optimize_of_zero hzero.ge (hI ▸ Int.one_nonneg) (.inl hzero) ()).1
  · exact absurd hs.maxEvaluations_pos (hzero ▸ Int.lt_irrefl 0)

end LeastSquares
