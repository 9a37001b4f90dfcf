import LeastSquares.Proofs.InPlace
import LeastSquares.Proofs.Runs

/-!
# Numbers that are never negative

The damping parameter and the radius of the trust region are formed by sums, products, quotients,
lengths and the choice of the larger or the smaller number. `SignRule N` says of a reading `N` of
"not negative" that these keep it. The rules are those of the exact numbers with an undefined number
counted as not negative, so they hold of exact arithmetic and of exact arithmetic with infinities.

Results:
* `parameter_lambda`: the damping parameter is not negative;
* `Assessment.adjust_signed`: a trial leaves radius and parameter not negative;
* `Reached.signed`: in every search of a run radius and parameter are not negative.
-/

namespace LeastSquares

variable {α σ : Type} {m n p : Nat} [Scalar α]

/-- A reading of "not negative" that the arithmetic keeps. -/
structure SignRule (N : α → Prop) : Prop where
  natCast (k : Nat) : N (k : α)
  zero : N 0
  one : N 1
  scientific (mantissa : Nat) (negative : Bool) (exponent : Nat) :
    N (OfScientific.ofScientific mantissa negative exponent)
  add {a b : α} : N a → N b → N (a + b)
  mul {a b : α} : N a → N b → N (a * b)
  div {a b : α} : N a → N b → N (a / b)
  mul_self (a : α) : N (a * a)
  sqrt (a : α) : N (sqrt a)
  of_lt {a b : α} : N a → a < b → N b
  /-- A length that exceeds the radius by more than a tenth of it, less the radius. -/
  excess {a δ : α} : N δ → ¬ a - δ ≤ 0.1 * δ → N (a - δ)
  /-- A factor that is not below a tenth. -/
  of_not_lt_tenth {a : α} : ¬ a < 0.1 → N a

namespace Decomposition

/-- The Newton search for a radius before its first pass. -/
def newtonStart (d : Decomposition α m n) (hm : p ≤ m) (hn : p ≤ n) (qy : Vec α m) (delta : α)
    (scaling : Vec α n) (initial : α) : Damped.Newton α :=
  let D := d.gather hn scaling
  let w := Damped.scaled D ((d.undamped qy).take hn)
  let length := norm w
  let excess := length - delta
  let lower := if d.rank = p then
      let u := Triangular.solveTransposed (d.block hm hn) (d.diagonal.take hn)
        (Vec.ofFn fun k => w k * (D k / length))
      excess / (delta * dot u u)
    else 0
  let g := d.gradient hm hn qy
  let gradientNorm := norm (Vec.ofFn fun k => g k / D k)
  let bound := gradientNorm / delta
  let upper := if bound == 0 then Scalar.leastNormal / Scalar.smaller delta 0.1 else bound
  let start := Scalar.smaller upper (Scalar.larger initial lower)
  ⟨if start == 0 then gradientNorm / length else start, lower, upper, excess⟩

end Decomposition

/-- The scaled length of the undamped direction, less the radius. -/
def SignRule.undampedExcess (d : Decomposition α m n) (hn : p ≤ n) (qy : Vec α m) (δ : α)
    (scaling : Vec α n) : α :=
  norm (Damped.scaled (d.gather hn scaling) ((d.undamped qy).take hn)) - δ

/-- The damping parameter is zero if the undamped direction fits, else it is searched for. -/
theorem Decomposition.parameter_eq {hm : p ≤ m} {hn : p ≤ n} {qy : Vec α m} {δ : α} {D : Vec α n}
    (d : Decomposition α m n) (initial : α) :
    d.parameter hm hn qy δ D initial =
      if SignRule.undampedExcess d hn qy δ D ≤ 0.1 * δ then ⟨0, d.toColumns (d.undamped qy), d, []⟩
      else newton hm hn qy δ D Damped.furtherPasses (d.newtonStart hm hn qy δ D initial) d := by
  unfold parameter newtonStart
  simp only [solveTransposed_square]
  rfl

namespace SignRule

variable {N : α → Prop}

/-! ## Operations -/

omit [Scalar α] in
theorem of_ite {c : Prop} [Decidable c] {a b : α} (ha : N a) (hb : N b) :
    N (if c then a else b) := by
  split
  · exact ha
  · exact hb

theorem smaller {a b : α} (ha : N a) (hb : N b) : N (Scalar.smaller a b) := of_ite hb ha

variable (h : SignRule N)

include h

theorem larger {a : α} (ha : N a) (b : α) : N (Scalar.larger a b) := by
  unfold Scalar.larger
  split
  · rename_i hlt
    exact h.of_lt ha hlt
  · exact ha

theorem leastNormal : N (Scalar.leastNormal : α) := h.div h.one (h.natCast _)

theorem dot_self (v : Vec α n) : N (dot v v) := by
  unfold dot sum
  rw [Fin.foldl_eq_finRange_foldl]
  have hfold (l : List (Fin n)) (x : α) (hx : N x) :
      N (l.foldl (fun s i => s + v i * v i) x) := by
    induction l generalizing x with
    | nil => exact hx
    | cons i l ih => exact ih _ (h.add hx (h.mul_self (v i)))
  exact hfold _ _ h.zero

theorem norm (v : Vec α n) : N (norm v) := h.sqrt _

/-- A number that was given as a positive one. -/
theorem value {x : Number α} (hx : x.isPositive = true) : N x.value := by
  cases x with
  | int k =>
    obtain ⟨l, rfl⟩ := Int.eq_ofNat_of_zero_le (Int.le_of_lt (of_decide_eq_true hx))
    exact h.natCast l
  | real x => exact h.of_lt h.zero (of_decide_eq_true hx)

/-! ## The damping parameter -/

theorem leaveZero {s : Damped.Newton α} (hl : N s.lambda) : N s.leaveZero.lambda := by
  unfold Damped.Newton.leaveZero
  split
  · exact h.larger h.leastNormal _
  · exact hl

omit h in
theorem leaveZero_bracket (s : Damped.Newton α) :
    s.leaveZero.lower = s.lower ∧ s.leaveZero.upper = s.upper := by
  unfold Damped.Newton.leaveZero
  split <;> exact ⟨rfl, rfl⟩

/-- The bracket stays where it is not negative, and so does the parameter in it. -/
theorem newton_next {s : Damped.Newton α} (hl : N s.lambda) (hlo : N s.lower) (hu : N s.upper)
    (excess correction : α) :
    N (s.next excess correction).lambda ∧ N (s.next excess correction).lower ∧
      N (s.next excess correction).upper := by
  have hlow : N (s.next excess correction).lower := of_ite (h.larger hlo _) hlo
  exact ⟨h.larger hlow _, hlow, of_ite hu (of_ite (smaller hu hl) hu)⟩

theorem newton_lambda {hm : p ≤ m} {hn : p ≤ n} {qy : Vec α m} {δ : α} {scaling : Vec α n}
    {left : Nat} {s : Damped.Newton α} {d : Decomposition α m n} (hl : N s.lambda)
    (hlo : N s.lower) (hu : N s.upper) :
    N (Decomposition.newton hm hn qy δ scaling left s d).lambda := by
  induction left generalizing s d with
  | zero =>
    unfold Decomposition.newton
    simp only [ite_self]
    exact h.leaveZero hl
  | succ left ih =>
    obtain ⟨elo, eu⟩ := leaveZero_bracket s
    unfold Decomposition.newton
    simp only
    split
    · exact h.leaveZero hl
    · obtain ⟨g1, g2, g3⟩ := h.newton_next (h.leaveZero hl) (elo ▸ hlo) (eu ▸ hu) _ _
      exact ih g1 g2 g3

/-- The Newton search begins in a bracket that is not negative. -/
theorem newtonStart (d : Decomposition α m n) (hm : p ≤ m) (hn : p ≤ n) (qy : Vec α m)
    {δ : α} (scaling : Vec α n) {initial : α} (hδ : N δ) (hi : N initial)
    (hfit : ¬ undampedExcess d hn qy δ scaling ≤ 0.1 * δ) :
    N (d.newtonStart hm hn qy δ scaling initial).lambda ∧
      N (d.newtonStart hm hn qy δ scaling initial).lower ∧
      N (d.newtonStart hm hn qy δ scaling initial).upper := by
  have hexc : N (undampedExcess d hn qy δ scaling) := h.excess hδ hfit
  have hupper (g : Vec α p) : N (if LeastSquares.norm g / δ == 0 then
      Scalar.leastNormal / Scalar.smaller δ 0.1 else LeastSquares.norm g / δ) :=
    of_ite (h.div h.leastNormal (smaller hδ (h.scientific ..))) (h.div (h.norm g) hδ)
  exact ⟨of_ite (h.div (h.norm _) (h.norm _)) (smaller (hupper _) (h.larger hi _)),
    of_ite (h.div hexc (h.mul hδ (h.dot_self _))) h.zero, hupper _⟩

/-- The undamped direction fits into the region, or the Newton search begins in a bracket that is
not negative. -/
theorem parameter_cases (d : Decomposition α m n) (hm : p ≤ m) (hn : p ≤ n) (qy : Vec α m)
    {δ : α} (scaling : Vec α n) {initial : α} (hδ : N δ) (hi : N initial) :
    (undampedExcess d hn qy δ scaling ≤ 0.1 * δ ∧
      d.parameter hm hn qy δ scaling initial = ⟨0, d.toColumns (d.undamped qy), d, []⟩) ∨
    (¬ undampedExcess d hn qy δ scaling ≤ 0.1 * δ ∧
      ∃ s : Damped.Newton α, N s.lambda ∧ N s.lower ∧ N s.upper ∧
        d.parameter hm hn qy δ scaling initial =
          Decomposition.newton hm hn qy δ scaling Damped.furtherPasses s d) := by
  by_cases hfit : undampedExcess d hn qy δ scaling ≤ 0.1 * δ
  · exact .inl ⟨hfit, by rw [d.parameter_eq, if_pos hfit]⟩
  · obtain ⟨hl, hlo, hu⟩ := h.newtonStart d hm hn qy scaling hδ hi hfit
    exact .inr ⟨hfit, _, hl, hlo, hu, by rw [d.parameter_eq, if_neg hfit]⟩

/-- **The damping parameter is not negative**. -/
theorem parameter_lambda (d : Decomposition α m n) (hm : p ≤ m) (hn : p ≤ n) (qy : Vec α m)
    {δ : α} (scaling : Vec α n) {initial : α} (hδ : N δ) (hi : N initial) :
    N (d.parameter hm hn qy δ scaling initial).lambda := by
  rcases h.parameter_cases d hm hn qy scaling hδ hi with ⟨-, he⟩ | ⟨-, s, hl, hlo, hu, he⟩
  · rw [he]
    exact h.zero
  · rw [he]
    exact h.newton_lambda hl hlo hu

end SignRule

namespace LevenbergMarquardt

/-! ## Options -/

namespace Options

omit [Scalar α] in
/-- A setting that passes a test does so as a number. -/
theorem of_test_eq_ok {x y : Number α} {b : Bool} {f : Failure α}
    (h : (if b then return y else throw f : Except (Failure α) (Number α)) = .ok x) :
    y = x ∧ b = true := by
  cases b with
  | true => exact ⟨Except.ok.inj h, rfl⟩
  | false => cases h

theorem of_checkFactor_eq_ok {given : Setting α} {x : Number α} (h : checkFactor given = .ok x) :
    x.isPositive = true := by
  obtain ⟨y, -, hy⟩ := of_bind_eq_ok h
  obtain ⟨rfl, hpos⟩ := of_test_eq_ok hy
  exact hpos

theorem of_checkBounded_eq_ok {setting : Bounded} {given : Setting α} {x : Number α}
    (h : checkBounded setting given = .ok x) : x.isNonnegative = true := by
  obtain ⟨y, -, hy⟩ := of_bind_eq_ok h
  obtain ⟨rfl, hnonneg⟩ := of_test_eq_ok hy
  exact hnonneg

/-- **Options that were accepted** are within their bounds. -/
theorem of_check_eq_ok {given : Options (Setting α)} {o : Options (Number α)}
    (h : check given = .ok o) :
    o.initialStepFactor.isPositive = true ∧ ∀ x ∈ o.bounded, x.2.isNonnegative = true := by
  obtain ⟨x₁, h₁, h⟩ := of_bind_eq_ok h
  obtain ⟨x₂, h₂, h⟩ := of_bind_eq_ok h
  obtain ⟨x₃, h₃, h⟩ := of_bind_eq_ok h
  obtain ⟨x₄, h₄, h⟩ := of_bind_eq_ok h
  obtain ⟨x₅, h₅, h⟩ := of_bind_eq_ok h
  obtain rfl := Except.ok.inj h
  refine ⟨of_checkFactor_eq_ok h₁, fun x hx => ?_⟩
  simp only [bounded, List.mem_cons, List.not_mem_nil, or_false] at hx
  rcases hx with rfl | rfl | rfl | rfl
  · exact of_checkBounded_eq_ok h₂
  · exact of_checkBounded_eq_ok h₃
  · exact of_checkBounded_eq_ok h₄
  · exact of_checkBounded_eq_ok h₅

end Options

variable {N : α → Prop} (h : SignRule N)

/-- Radius and damping parameter are not negative. -/
def Region.Signed (N : α → Prop) (r : Region α n) : Prop := N r.radius ∧ N r.lambda

include h

/-! ## Trials -/

theorem Search.propose_signed {s : Search α m n} (hs : s.region.Signed N) :
    N s.propose.lambda ∧ N s.propose.length ∧ N s.propose.radius :=
  ⟨h.parameter_lambda _ _ _ _ _ hs.1 hs.2, h.norm _,
    SignRule.of_ite (SignRule.smaller hs.1 (h.norm _)) hs.1⟩

/-- The linear model never predicts an increase. -/
theorem Search.assess_predicted (s : Search α m n) {p : Proposal α m n} (hl : N p.lambda)
    (hn : N p.length) (e : Evaluation α m n) : N (s.assess p e).predicted :=
  h.add (h.div (h.dot_self _) (h.mul_self _))
    (h.mul (h.scientific ..) (h.div (h.mul (h.mul hl hn) hn) (h.mul_self _)))

theorem Assessment.shrinkFactor_signed (a : Assessment α m n) (previous : α) :
    N (a.shrinkFactor previous) := by
  unfold Assessment.shrinkFactor
  simp only
  generalize (if a.actual < 0 then 0.5 * a.slope / (a.slope + 0.5 * a.actual) else 0.5) = f
  split
  · exact h.scientific ..
  · rename_i hf
    exact h.of_not_lt_tenth fun hlt => hf (.inr hlt)

theorem Assessment.adjust_signed (a : Assessment α m n) {p : Proposal α m n} (previous : α)
    (hr : N p.radius) (hl : N p.lambda) (hn : N p.length) :
    N (a.adjust p previous).1 ∧ N (a.adjust p previous).2 := by
  have hf : N (a.shrinkFactor previous) := a.shrinkFactor_signed h previous
  unfold Assessment.adjust
  simp only
  split
  · exact ⟨h.mul hf (SignRule.smaller hr (h.mul (h.scientific ..) hn)), h.div hl hf⟩
  · split
    · exact ⟨h.mul (h.scientific ..) hn, h.mul hl (h.scientific ..)⟩
    · exact ⟨hr, hl⟩

theorem Search.regionAfter_signed {s : Search α m n} (hs : s.region.Signed N)
    (a : Assessment α m n) : (s.regionAfter s.propose a).Signed N := by
  obtain ⟨hl, hn, hr⟩ := s.propose_signed h hs
  have ha := a.adjust_signed h s.standing.cost hr hl hn
  unfold Search.regionAfter
  simp only
  split
  · exact ha
  · exact ha

/-! ## Searches -/

theorem Search.start_signed {o : Options α} (ho : N o.initialStepFactor) {st : Standing α m n}
    {rg : Region α n} (hrg : rg.Signed N) {s : Search α m n}
    (hs : Search.start o st rg = .ok s) : s.region.Signed N := by
  obtain ⟨d, -, rfl⟩ := Search.of_start_eq_ok hs
  unfold Search.ofDecomposition Search.startRegion
  simp only
  split
  · refine ⟨?_, hrg.2⟩
    simp only [Region.widenScaling, Region.ofColumnNorms]
    split
    · exact ho
    · exact h.mul ho (h.norm _)
  · exact hrg

/-- **In every search of a run** radius and damping parameter are not negative. -/
theorem Reached.signed {o : Options α} (ho : N o.initialStepFactor) {e₀ : Evaluation α m n}
    {bs : List (Evaluation α m n)} {s : Search α m n} (hs : Reached o e₀ bs s) :
    s.region.Signed N := by
  induction hs with
  | first hs => exact Search.start_signed h ho ⟨h.zero, h.zero⟩ hs
  | retried _ hn ih =>
    obtain ⟨-, -, rfl⟩ := Search.of_outcome_eq_retry hn
    exact Search.regionAfter_signed h ih _
  | renewed _ hn hs ih =>
    obtain ⟨-, -, rfl, rfl⟩ := Search.of_outcome_eq_renew hn
    exact Search.start_signed h ho (Search.regionAfter_signed h ih _) hs

end LevenbergMarquardt

end LeastSquares
