import LeastSquares.Proofs.Cut
import LeastSquares.Proofs.Extended

/-!
# What the checkers of entries accept

A checker of entries looks for one that fails both of its tests. Where every two numbers compare,
an entry that does not fail a test passes it. Where a number may be undefined, every comparison with
it fails, and an entry that is compared with such a number neither passes nor fails: it escapes the
test. So what the checkers accept is that every entry passes or escapes, and the Gauss-Newton
method, which stops at their word, may stop where a residual is undefined.

Results:
* `Checker.isUnsettled_eq_false_iff`: one entry;
* `Checker.entries_converged`: the answer of a checker of entries below its limit;
* `GaussNewton.Runs.agreed`: a run returns what its checker agreed to stop at;
* `entries_accept`: what the checkers of entries accept, and what the Gauss-Newton method returns
  with one of them.
-/

namespace LeastSquares

variable {α σ : Type} {m n m₁ n₁ m₂ n₂ : Nat}

/-- **The comparisons of floating-point arithmetic**: two numbers that are defined compare one way or
the other, and with an undefined number every comparison fails. -/
structure Scalar.Compares (α : Type) [Scalar α] : Prop where
  le_of_not_lt {a b : α} : isUndefined a = false → isUndefined b = false → ¬ a < b → b ≤ a
  not_lt_of_le {a b : α} : a ≤ b → ¬ b < a
  of_undefined {a b : α} : isUndefined a = true ∨ isUndefined b = true → ¬ a < b ∧ ¬ a ≤ b

theorem Extended.isUndefined_iff (a : Extended) : Scalar.isUndefined a = true ↔ a = undefined := by
  cases a with
  | finite x => simp [Scalar.isUndefined, BEq.beq, same]
  | infinite s => simp [Scalar.isUndefined, BEq.beq, same]
  | undefined => simp [Scalar.isUndefined, BEq.beq, same]

/-- Exact arithmetic with infinities compares so. -/
theorem Extended.compares : Scalar.Compares Extended where
  le_of_not_lt {a b} ha hb h := by
    change ¬ Below a b at h
    change AtMost b a
    cases a with
    | undefined => cases ha.symm.trans ((isUndefined_iff _).mpr rfl)
    | finite x =>
      cases b with
      | undefined => cases hb.symm.trans ((isUndefined_iff _).mpr rfl)
      | finite y => exact not_lt.mp h
      | infinite t => exact (Bool.not_eq_false t).mp h
    | infinite s =>
      cases b with
      | undefined => cases hb.symm.trans ((isUndefined_iff _).mpr rfl)
      | finite y => exact (Bool.not_eq_true s).mp h
      | infinite t => cases s <;> cases t <;> simp_all [Below, AtMost]
  not_lt_of_le := not_lt_of_le
  of_undefined {a b} h := by
    rw [isUndefined_iff, isUndefined_iff] at h
    rcases h with rfl | rfl
    · exact ⟨id, id⟩
    · cases a <;> exact ⟨id, id⟩

/-- And so does exact arithmetic, without undefined numbers. -/
theorem Exact.compares : Scalar.Compares ℝ where
  le_of_not_lt _ _ h := not_lt.mp h
  not_lt_of_le h := not_lt.mpr h
  of_undefined {a b} h := by simp [isUndefined_eq] at h

/-- The entries of an evaluation that a checker compares. -/
def Evaluation.compared (e : Evaluation α m n) : Subject → List α
  | .point => e.point.toList
  | .residuals => e.residuals.toList

namespace Checker

section Entry

variable [Scalar α] (relative absolute p c : α)

/-- An entry passes the relative or the absolute test. -/
def Passes : Prop :=
  Scalar.abs (p - c) ≤ Scalar.largest (Scalar.abs p) (Scalar.abs c) * relative ∨
    Scalar.abs (p - c) ≤ absolute

/-- An entry escapes a test: one of the numbers that are compared is undefined. -/
def Escapes : Prop :=
  Scalar.isUndefined (Scalar.abs (p - c)) = true ∨
    Scalar.isUndefined (Scalar.largest (Scalar.abs p) (Scalar.abs c) * relative) = true ∨
      Scalar.isUndefined absolute = true

variable {relative absolute p c}

/-- Not to be below is to be at or above, or not to compare. -/
theorem not_lt_iff (h : Scalar.Compares α) {a b : α} :
    ¬ a < b ↔ b ≤ a ∨ Scalar.isUndefined b = true ∨ Scalar.isUndefined a = true := by
  constructor
  · intro hlt
    by_contra hno
    rw [not_or, not_or, Bool.not_eq_true, Bool.not_eq_true] at hno
    exact hno.1 (h.le_of_not_lt hno.2.2 hno.2.1 hlt)
  · rintro (hle | hb | ha)
    · exact h.not_lt_of_le hle
    · exact (h.of_undefined (.inr hb)).1
    · exact (h.of_undefined (.inl ha)).1

/-- **An entry that does not fail both tests** passes one or escapes one. -/
theorem isUnsettled_eq_false_iff (h : Scalar.Compares α) :
    isUnsettled relative absolute (p, c) = false ↔
      Passes relative absolute p c ∨ Escapes relative absolute p c := by
  unfold isUnsettled
  simp only [Bool.and_eq_false_iff, decide_eq_false_iff_not, not_lt_iff h]
  unfold Passes Escapes
  tauto

/-- An undefined difference passes no test. -/
theorem not_passes_of_undefined (h : Scalar.Compares α)
    (hd : Scalar.isUndefined (Scalar.abs (p - c)) = true) : ¬ Passes relative absolute p c := by
  rintro (hle | hle)
  · exact (h.of_undefined (.inl hd)).2 hle
  · exact (h.of_undefined (.inl hd)).2 hle

end Entry

section Answer

variable [Scalar α] (subject : Subject) (relative absolute : Number α) {limit : Number α}
  {iteration : Int}

/-- An iteration at which a checker with the given limit compares: there is no limit, or it is not
reached yet. -/
def BelowLimit (limit : Number α) (iteration : Int) : Prop :=
  isOff limit = true ∨ reaches iteration limit = false

/-- What a checker of entries accepts of a pair. -/
def Admits (relative absolute : Number α) (p c : α) : Prop :=
  Passes relative.value absolute.value p c ∨ Escapes relative.value absolute.value p c

/-- Vectors of one length have settled if every entry is accepted. -/
theorem settled_of_length_eq (h : Scalar.Compares α) {a b : Nat} {p : Vec α a} {c : Vec α b}
    (hlength : p.toList.length = c.toList.length) :
    ∃ v, settled relative.value absolute.value p c = .ok v ∧
      (v = true ↔ List.Forall₂ (Admits relative absolute) p.toList c.toList) := by
  unfold settled
  rw [beside?_of_length_eq hlength]
  refine ⟨_, rfl, ?_⟩
  rw [Bool.not_eq_true', List.any_eq_false, List.forall₂_iff_zip]
  simp only [Bool.not_eq_true, hlength, true_and]
  exact ⟨fun hall a b hab => (isUnsettled_eq_false_iff h).mp (hall (a, b) hab),
    fun hall pair hpair => (isUnsettled_eq_false_iff h).mpr (hall hpair)⟩

/-- **The answer of a checker of entries** below its limit. -/
theorem entries_converged (h : Scalar.Compares α) (hlimit : BelowLimit limit iteration)
    (previous : Evaluation α m₁ n₁) (current : Evaluation α m₂ n₂)
    (hlength : (previous.compared subject).length = (current.compared subject).length) (w : σ) :
    ∃ v, ((entries subject relative absolute limit).converged iteration previous current).after w =
        (.ok v, w) ∧
      (v = true ↔ List.Forall₂ (Admits relative absolute) (previous.compared subject)
        (current.compared subject)) := by
  have hbelow : ¬ (!isOff limit && reaches iteration limit) = true := by
    rcases hlimit with hoff | hreach
    · rw [hoff]
      exact Bool.false_ne_true
    · rw [hreach, Bool.and_false]
      exact Bool.false_ne_true
  unfold converged
  simp only [if_neg hbelow]
  cases subject with
  | point =>
    obtain ⟨v, hv, hiff⟩ := settled_of_length_eq relative absolute h hlength
    exact ⟨v, by rw [Act.after_ofExcept, hv], hiff⟩
  | residuals =>
    obtain ⟨v, hv, hiff⟩ := settled_of_length_eq relative absolute h hlength
    exact ⟨v, by rw [Act.after_ofExcept, hv], hiff⟩

end Answer

end Checker

/-! ## The Gauss-Newton method -/

namespace GaussNewton

variable [Spectral α] {method : Option Method} {c : Checker σ α} {P : Problem σ α m n}
  {iterations evaluations done : Nat} {previous : Option (Evaluation α m n)} {point : Vec α n}
  {w : σ} {r : Run σ α m n} {found : Optimum α m n}

/-- **A run returns what its checker agreed to stop at**, after the evaluation before it. -/
theorem Runs.agreed (h : Runs method c P iterations evaluations done previous point w r)
    (hr : r.result = .ok found) : ∃ p, ⟨found.iterations, some p,
        .made found.evaluation (some true)⟩ ∈ r.visits ∧
      ∃ w w', (c.converged found.iterations p found.evaluation).after w = (.ok true, w') := by
  induction h with
  | overdue | exhausted | failed | unanswered | unsolved => cases hr
  | @stopped iterations evaluations done previous point w e w₁ w' he hc =>
    cases hr
    cases previous with
    | none => cases hc
    | some p =>
      refine ⟨p, List.mem_singleton_self _, w₁, w', ?_⟩
      change (some <$> c.converged _ p e).after w₁ = _ at hc
      rw [map_eq_pure_bind, Act.after_bind] at hc
      rcases hanswer : (c.converged (done + 1 : Nat) p e).after w₁ with ⟨f | v, w₂⟩ <;>
        rw [hanswer] at hc <;> cases hc
      rfl
  | stepped _ _ _ _ _ ih =>
    obtain ⟨p, hmem, hagreed⟩ := ih hr
    exact ⟨p, List.mem_cons_of_mem _ hmem, hagreed⟩

end GaussNewton

/-! ## The checkers and the method -/

open Checker

/-- **Headline.** Below its limit, a checker of entries agrees to stop exactly if every entry of the
compared vectors passes a test or escapes one; where none escapes, exactly if every entry passes.
The Gauss-Newton method with such a checker returns an evaluation only if the checker accepts it
after the one before it. -/
theorem entries_accept [Spectral α] (h : Scalar.Compares α) (subject : Subject)
    (relative absolute limit : Number α) :
    (∀ (m₁ n₁ m₂ n₂ : Nat) (iteration : Int) (previous : Evaluation α m₁ n₁)
        (current : Evaluation α m₂ n₂) (w : σ), BelowLimit limit iteration →
      (previous.compared subject).length = (current.compared subject).length →
      ∃ v, ((entries subject relative absolute limit).converged iteration previous
          current).after w = (.ok v, w) ∧
        (v = true ↔ List.Forall₂ (Admits relative absolute) (previous.compared subject)
          (current.compared subject)) ∧
        ((∀ pair ∈ (previous.compared subject).zip (current.compared subject),
            ¬ Escapes relative.value absolute.value pair.1 pair.2) →
          (v = true ↔ List.Forall₂ (Passes relative.value absolute.value)
            (previous.compared subject) (current.compared subject)))) ∧
    ∀ (m n : Nat) (method : Option Method) (P : Problem σ α m n) (w : σ) (found : Optimum α m n),
      P.checker = some (entries subject relative absolute limit) →
      (GaussNewton.optimize method P w).result = .ok found →
      BelowLimit limit found.iterations →
      ∃ p : Evaluation α m n, ⟨found.iterations, some p, .made found.evaluation (some true)⟩ ∈
          (GaussNewton.optimize method P w).visits ∧
        List.Forall₂ (Admits relative absolute) (p.compared subject)
          (found.evaluation.compared subject) := by
  refine ⟨?_, ?_⟩
  · intro m₁ n₁ m₂ n₂ iteration previous current w hlimit hlength
    obtain ⟨v, hv, hiff⟩ := entries_converged subject relative absolute h hlimit previous current
      hlength w
    refine ⟨v, hv, hiff, fun hescapes => hiff.trans ?_⟩
    rw [List.forall₂_iff_zip, List.forall₂_iff_zip]
    refine and_congr_right fun _ => ⟨fun hall a b hab => ?_, fun hall a b hab => .inl (hall hab)⟩
    exact (hall hab).resolve_right (hescapes (a, b) hab)
  · intro m n method P w found hchecker hresult hlimit
    obtain ⟨c, iterations, evaluations, hc, hruns⟩ := GaussNewton.exists_runs hresult
    obtain rfl := Option.some.inj (hchecker.symm.trans hc)
    obtain ⟨p, hmem, w₁, w₂, hagreed⟩ := hruns.agreed hresult
    refine ⟨p, hmem, ?_⟩
    have hlength : (p.compared subject).length = (found.evaluation.compared subject).length := by
      cases subject <;> simp only [Evaluation.compared, Vec.length_toList]
    obtain ⟨v, hv, hiff⟩ := entries_converged subject relative absolute h hlimit p
      found.evaluation hlength w₁
    rw [hv] at hagreed
    cases hagreed
    exact hiff.mp rfl

/-! ## An example

A parameter that has moved by one, and one that is undefined. -/

/-- Exact arithmetic with infinities, with factorizations that find nothing. -/
@[reducible] noncomputable def Extended.spectral : Spectral Extended where
  eigen _ := ⟨Vec.replicate _ undefined, Mat.ofFn fun _ _ => undefined⟩
  singular _ := ⟨undefined, Mat.ofFn fun _ _ => undefined, Vec.replicate _ undefined,
    Mat.ofFn fun _ _ => undefined⟩

/-- An evaluation at a point of one parameter. -/
noncomputable def standsAt (x : Extended) : Evaluation Extended 1 1 :=
  ⟨Vec.replicate 1 x, Vec.replicate 1 0, Mat.ofFn fun _ _ => 1⟩

theorem entries_accept_moved :
    let _ := Extended.spectral
    Scalar.Compares Extended ∧
      ((entries .point (.int 0) (.int 1) noLimit : Checker Unit Extended).converged 2
        (standsAt (.finite 1)) (standsAt (.finite 2))).after () = (.ok true, ()) := by
  intro _
  refine ⟨Extended.compares, ?_⟩
  obtain ⟨hanswer, -⟩ := entries_accept (σ := Unit) Extended.compares .point (.int 0) (.int 1)
    noLimit
  obtain ⟨v, hv, hiff, -⟩ := hanswer 1 1 1 1 2 (standsAt (.finite 1)) (standsAt (.finite 2)) ()
    (.inl rfl) rfl
  have hadmits : Admits (.int 0) (.int 1) (Extended.finite 1) (.finite 2) := by
    refine .inl (.inr ?_)
    change |(1 : ℝ) + -2| ≤ (1 : Nat)
    norm_num
  obtain rfl : v = true := hiff.mpr (.cons hadmits .nil)
  exact hv

/-- **A point that is undefined is accepted**, although it passes no test. -/
theorem entries_accept_undefined :
    (Checker.ofThresholds .point (.real 1e-3) (.real 1e-3) noLimit :
        Except (Failure Extended) (Checker Unit Extended)) =
      .ok (entries .point (.real 1e-3) (.real 1e-3) noLimit) ∧
    ((entries .point (.real 1e-3) (.real 1e-3) noLimit : Checker Unit Extended).converged 1
        (standsAt .undefined) (standsAt .undefined)).after () = (.ok true, ()) ∧
      ¬ List.Forall₂ (Passes (1e-3 : Extended) 1e-3) ((standsAt .undefined).compared .point)
        ((standsAt .undefined).compared .point) := by
  have hpositive : (Number.real (1e-3 : Extended)).isNonpositive = false := by
    have hnot : ¬ (1e-3 : ℝ) ≤ 0 := by norm_num
    exact decide_eq_false hnot
  have hundefined : Scalar.isUndefined (Scalar.abs (.undefined - .undefined : Extended)) = true :=
    (Extended.isUndefined_iff _).mpr rfl
  refine ⟨?_, ?_, ?_⟩
  · unfold Checker.ofThresholds
    rw [hpositive]
    rfl
  · have hlimit : BelowLimit (noLimit : Number Extended) 1 := .inl rfl
    obtain ⟨v, hv, hiff⟩ := entries_converged .point (.real 1e-3) (.real 1e-3) Extended.compares
      hlimit (standsAt .undefined) (standsAt .undefined) rfl ()
    obtain rfl : v = true := hiff.mpr (.cons (.inr (.inl hundefined)) .nil)
    exact hv
  · intro hall
    cases hall with
    | cons hpasses _ => exact not_passes_of_undefined Extended.compares hundefined hpasses

end LeastSquares
