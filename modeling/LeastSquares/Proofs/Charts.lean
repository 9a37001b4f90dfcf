import LeastSquares.Proofs.Columns

/-!
# Charts of the parameters

A chart renames and rescales the parameters: parameter `i` is `factor i` times parameter `perm i`
of the other chart. Points and steps go one way, Jacobians, gradients and scalings the other, so
products of the two kinds are the same in both charts. Two evaluations match under a chart if they
have the same cost and their products `Jᵀ J` and `Jᵀ r` correspond; the number of observations need
not be the same.

All that the search for the damping parameter computes in one chart it computes in the other, as
each quantity solves equations in the columns (`LeastSquares.Proofs.Columns`) that correspond. What
a chart does not settle is which columns a decomposition finds to be negligible: that the two
decompositions agree on them is asked for (`Chart.Links`).

Results:
* `Chart.solves_pull`: the damped normal equations in both charts;
* `Chart.Links.length_eq`, `Chart.Links.slope_eq`: a Newton pass, `Chart.Links.newton`: all of them;
* `Chart.Links.newtonStart_eq`: the bracket before the first pass;
* `Chart.Links.parameter`: so both searches find the same parameter, and directions that correspond.
-/

namespace LeastSquares

open Matrix

variable {m m' n p p' : Nat}

/-- A change of the parameters: each is a positive multiple of one of the others. -/
structure Chart (n : Nat) where
  perm : Equiv.Perm (Fin n)
  factor : Fin n → ℝ
  factor_pos : ∀ i, 0 < factor i

namespace Chart

/-- The parameters as they are. -/
def identity (n : Nat) : Chart n := ⟨1, fun _ => 1, fun _ => one_pos⟩

variable (χ : Chart n)

/-- The numbers of the parameters, from those in the chart. -/
def pull (x : Fin n → ℝ) : Fin n → ℝ := fun i => χ.factor i * x (χ.perm i)

/-- The point of a point in the chart. -/
def point (x : Vec ℝ n) : Vec ℝ n := Vec.ofFn (χ.pull x.get)

/-- `g'` is `g` in the chart, entry by entry in units of the parameters: a gradient or a
scaling. -/
def Dual (g g' : Fin n → ℝ) : Prop := ∀ i, g' (χ.perm i) = χ.factor i * g i

theorem point_apply (x : Vec ℝ n) (i : Fin n) : χ.point x i = χ.factor i * x (χ.perm i) :=
  Vec.ofFn_apply _ i

theorem identity_point (x : Vec ℝ n) : (identity n).point x = x :=
  Vec.ext fun i => ((identity n).point_apply x i).trans (one_mul _)

theorem point_get (x : Vec ℝ n) : (χ.point x).get = χ.pull x.get := funext (χ.point_apply x)

theorem point_map_neg (x : Vec ℝ n) :
    χ.point (x.map fun x => -x) = (χ.point x).map fun x => -x := by
  refine Vec.ext fun i => ?_
  rw [point_apply, Vec.map_apply, Vec.map_apply, point_apply, mul_neg]

variable {χ}

/-- Products of the two kinds are the same in both charts. -/
theorem Dual.sum_mul {g g' : Fin n → ℝ} (h : χ.Dual g g') (x : Fin n → ℝ) :
    ∑ j, g' j * x j = ∑ i, g i * χ.pull x i := by
  rw [← Equiv.sum_comp χ.perm]
  refine Finset.sum_congr rfl fun i _ => ?_
  rw [h i, pull]
  ring

theorem Dual.mul_pull {g g' : Fin n → ℝ} (h : χ.Dual g g') (x : Fin n → ℝ) (i : Fin n) :
    g' (χ.perm i) * x (χ.perm i) = g i * χ.pull x i := by
  rw [h i, pull]
  ring

/-- The scaled length of a point. -/
theorem Dual.norm_scaled {D D' : Vec ℝ n} (h : χ.Dual D.get D'.get) (x : Vec ℝ n) :
    norm (Damped.scaled D' x) = norm (Damped.scaled D (χ.point x)) := by
  rw [Exact.norm_eq, Exact.norm_eq, ← Equiv.sum_comp χ.perm]
  congr 1
  refine Finset.sum_congr rfl fun i _ => ?_
  have hi : D' (χ.perm i) * x (χ.perm i) = D i * χ.pull x.get i := h.mul_pull x.get i
  rw [Damped.scaled, Vec.ofFn_apply, Damped.scaled, Vec.ofFn_apply, hi, point, Vec.ofFn_apply]

/-! ## The damped normal equations -/

/-- The products of the columns in both charts. -/
def Gram (χ : Chart n) (J : Mat ℝ m n) (J' : Mat ℝ m' n) : Prop :=
  ∀ i j, J'.gram (χ.perm i) (χ.perm j) = χ.factor i * χ.factor j * J.gram i j

section Gram

variable {J : Mat ℝ m n} {J' : Mat ℝ m' n}

/-- The products of the columns take a vector of the parameters to one of their duals. -/
theorem Gram.dual_mulVec (hG : χ.Gram J J') (x : Fin n → ℝ) :
    χ.Dual (fun c => ∑ l, J.gram c l * χ.pull x l) fun c => ∑ l, J'.gram c l * x l := by
  intro i
  dsimp only
  rw [← Equiv.sum_comp χ.perm, Finset.mul_sum]
  refine Finset.sum_congr rfl fun l _ => ?_
  rw [hG i l, pull]
  ring

theorem identity_dual (g : Fin n → ℝ) : (identity n).Dual g g := fun i => (one_mul (g i)).symm

theorem identity_gram (h : J'.gram = J.gram) : (identity n).Gram J J' := fun i j => by
  rw [h]
  exact (mul_left_eq_self₀.mpr (.inl (one_mul (1 : ℝ)))).symm

/-- **The damped normal equations in both charts**. -/
theorem solves_pull {D D' : Vec ℝ n} {lambda : ℝ} {b b' x : Fin n → ℝ} (hG : χ.Gram J J')
    (hD : χ.Dual D.get D'.get) (hb : χ.Dual b b') :
    SolvesDamped J D lambda b (χ.pull x) ↔ SolvesDamped J' D' lambda b' x := by
  have hrow (i : Fin n) : (∑ l, J'.gram (χ.perm i) l * x l) +
      lambda * D' (χ.perm i) ^ 2 * x (χ.perm i) =
        χ.factor i * ((∑ l, J.gram i l * χ.pull x l) + lambda * D i ^ 2 * χ.pull x i) := by
    have hi := hG.dual_mulVec x i
    dsimp only at hi
    rw [hi, show D' (χ.perm i) = χ.factor i * D i from hD i, pull]
    ring
  constructor
  · intro h j
    obtain ⟨i, rfl⟩ := χ.perm.surjective j
    rw [hrow i, h i, hb i]
  · intro h i
    have hi := h (χ.perm i)
    rw [hrow i, hb i] at hi
    exact mul_left_cancel₀ (χ.factor_pos i).ne' hi

/-- Products of a right-hand side with its solution are the same in both charts. -/
theorem Gram.dot_solution {D D' : Vec ℝ n} {lambda : ℝ} {b b' x x' : Fin n → ℝ}
    (hG : χ.Gram J J') (hD : χ.Dual D.get D'.get) (hb : χ.Dual b b')
    (hdef : Definite J D lambda) (hx : SolvesDamped J D lambda b x)
    (hx' : SolvesDamped J' D' lambda b' x') : b' ⬝ᵥ x' = b ⬝ᵥ x := by
  rw [hx.unique hdef ((solves_pull hG hD hb).mpr hx')]
  exact hb.sum_mul x'

/-- The images of a vector in both charts have the same length. -/
theorem Gram.dot_mulVec (hG : χ.Gram J J') (x : Fin n → ℝ) :
    (J'.toMatrix *ᵥ x) ⬝ᵥ (J'.toMatrix *ᵥ x) =
      (J.toMatrix *ᵥ χ.pull x) ⬝ᵥ (J.toMatrix *ᵥ χ.pull x) := by
  rw [← J'.dot_gram, ← J.dot_gram]
  simp only [mul_comm (x _), mul_comm (χ.pull x _)]
  exact (hG.dual_mulVec x).sum_mul x

end Gram

end Chart

/-! ## Two subproblems -/

/-- **The subproblem of a trust region** with its decomposition: residuals, a Jacobian with no more
columns than there are pivots, and a scaling. -/
structure Subproblem (m n p : Nat) where
  hm : p ≤ m
  hn : p ≤ n
  jacobian : Mat ℝ m n
  residuals : Vec ℝ m
  projected : Vec ℝ m
  scaling : Vec ℝ n
  decomposition : Decomposition ℝ m n
  represents : decomposition.Represents hm hn jacobian residuals projected
  written : decomposition.Written p
  all : n ≤ p
  scaling_pos : ∀ c, 0 < scaling c

namespace Subproblem

variable (S : Subproblem m n p)

/-- The products of the columns with the residuals. -/
noncomputable def moment : Vec ℝ n := S.jacobian.transposeMulVec S.residuals

/-- The damped direction at a parameter. -/
noncomputable def damped (lambda : ℝ) : Vec ℝ n :=
  (S.decomposition.dampedAt S.hm S.hn S.projected S.scaling lambda).direction

/-- The undamped direction. -/
noncomputable def undamped : Vec ℝ n :=
  S.decomposition.toColumns (S.decomposition.undamped S.projected)

/-- The scaled length of a direction. -/
noncomputable def length (x : Vec ℝ n) : ℝ := norm (Damped.scaled S.scaling x)

/-- The slope of the length at a parameter. -/
noncomputable def slope (lambda : ℝ) : ℝ :=
  dot (S.decomposition.slopeAt S.hm S.hn S.projected S.scaling lambda)
    (S.decomposition.slopeAt S.hm S.hn S.projected S.scaling lambda)

/-- The slope at zero. -/
noncomputable def undampedSlope : ℝ :=
  dot (S.decomposition.undampedSlope S.hm S.hn S.projected S.scaling)
    (S.decomposition.undampedSlope S.hm S.hn S.projected S.scaling)

/-- What the search finds for a radius. -/
noncomputable def parameter (δ initial : ℝ) : Decomposition.Parameter ℝ m n :=
  S.decomposition.parameter S.hm S.hn S.projected δ S.scaling initial

theorem lengthAt_eq (lambda : ℝ) :
    S.decomposition.lengthAt S.hm S.hn S.projected S.scaling lambda =
      S.length (S.damped lambda) := S.represents.lengthAt_eq S.all

/-- The right-hand side of the equations for the slope of the length of a direction. -/
noncomputable def slopeSide (x : Vec ℝ n) : Fin n → ℝ :=
  Decomposition.slopeSide S.scaling x (S.length x)

theorem exists_slope {lambda : ℝ} (hl : 0 < lambda) :
    ∃ z, SolvesDamped S.jacobian S.scaling lambda (S.slopeSide (S.damped lambda)) z ∧
      S.slope lambda = S.slopeSide (S.damped lambda) ⬝ᵥ z := by
  have hslope := S.represents.exists_slopeAt S.all S.scaling_pos hl
  rwa [S.lengthAt_eq] at hslope

theorem exists_undampedSlope (hr : S.decomposition.rank = p) :
    ∃ z, SolvesDamped S.jacobian S.scaling 0 (S.slopeSide S.undamped) z ∧
      S.undampedSlope = S.slopeSide S.undamped ⬝ᵥ z :=
  S.represents.exists_undampedSlope S.all hr

/-- The scaled length of the undamped direction. -/
theorem undampedLength_eq :
    norm (Damped.scaled (S.decomposition.gather S.hn S.scaling)
      ((S.decomposition.undamped S.projected).take S.hn)) = S.length S.undamped :=
  S.represents.undampedLength_eq S.all S.scaling

end Subproblem

/-- Two decompositions that find the same columns to be negligible. -/
structure Chart.Ranks (χ : Chart n) (d : Decomposition ℝ m n) (d' : Decomposition ℝ m' n) :
    Prop where
  rank_eq : d'.rank = d.rank
  pivots : ∀ c, χ.perm c ∈ d'.pivotColumns d'.rank → c ∈ d.pivotColumns d.rank

theorem Chart.Ranks.congr {χ : Chart n} {d e : Decomposition ℝ m n} {d' e' : Decomposition ℝ m' n}
    (h : χ.Ranks d d') (ho : e.order = d.order) (hr : e.rank = d.rank) (ho' : e'.order = d'.order)
    (hr' : e'.rank = d'.rank) : χ.Ranks e e' where
  rank_eq := by rw [hr, hr', h.rank_eq]
  pivots c hc := by
    unfold Decomposition.pivotColumns at hc ⊢
    rw [ho', hr'] at hc
    rw [ho, hr]
    exact h.pivots c hc

/-- **Two subproblems in the two charts**: the products of their columns and their scalings
correspond, and they find the same columns to be negligible. -/
structure Chart.Links (χ : Chart n) (S : Subproblem m n p) (S' : Subproblem m' n p') : Prop where
  gram : χ.Gram S.jacobian S'.jacobian
  moment : χ.Dual S.moment.get S'.moment.get
  scaling : χ.Dual S.scaling.get S'.scaling.get
  ranks : χ.Ranks S.decomposition S'.decomposition

namespace Chart.Links

variable {χ : Chart n} {S : Subproblem m n p} {S' : Subproblem m' n p'} (h : χ.Links S S')
  {lambda δ : ℝ}

include h

theorem length_point (x : Vec ℝ n) : S.length (χ.point x) = S'.length x :=
  (h.scaling.norm_scaled x).symm

/-! ### A Newton pass -/

/-- **The damped direction**. -/
theorem damped_eq (hl : 0 < lambda) : S.damped lambda = χ.point (S'.damped lambda) := by
  have hx := S.represents.dampedAt_solves S.all S.scaling_pos hl
  have hx' := S'.represents.dampedAt_solves S'.all S'.scaling_pos hl
  have hpull := (solves_pull h.gram h.scaling h.moment).mpr hx'
  have heq := hx.unique (.inl ⟨hl, S.scaling_pos⟩) hpull
  refine Vec.ext fun i => neg_injective ?_
  have hi := congrFun heq i
  rw [Vec.map_apply, pull, Vec.map_apply, mul_neg] at hi
  rw [point_apply]
  exact hi

theorem length_eq (hl : 0 < lambda) : S'.length (S'.damped lambda) = S.length (S.damped lambda) := by
  rw [h.damped_eq hl, h.length_point]

theorem dual_slopeSide (x : Vec ℝ n) : χ.Dual (S.slopeSide (χ.point x)) (S'.slopeSide x) := by
  intro i
  have hi : S'.scaling (χ.perm i) = χ.factor i * S.scaling i := h.scaling i
  rw [Subproblem.slopeSide, Subproblem.slopeSide, Decomposition.slopeSide, Decomposition.slopeSide,
    h.length_point, hi, point_apply]
  ring

/-- **The slope of the length**. -/
theorem slope_eq (hl : 0 < lambda) : S'.slope lambda = S.slope lambda := by
  obtain ⟨z, hz, hslope⟩ := S.exists_slope hl
  obtain ⟨z', hz', hslope'⟩ := S'.exists_slope hl
  have hdual := h.dual_slopeSide (S'.damped lambda)
  rw [← h.damped_eq hl] at hdual
  rw [hslope, hslope']
  exact h.gram.dot_solution h.scaling hdual (.inl ⟨hl, S.scaling_pos⟩) hz hz'

theorem nextOf_eq {s : Damped.Newton ℝ} (hl : 0 < s.lambda) :
    S'.decomposition.nextOf S'.hm S'.hn S'.projected S'.scaling δ s =
      S.decomposition.nextOf S.hm S.hn S.projected S.scaling δ s := by
  unfold Decomposition.nextOf Decomposition.correctionAt
  have hslope : dot (S'.decomposition.slopeAt S'.hm S'.hn S'.projected S'.scaling s.lambda)
      (S'.decomposition.slopeAt S'.hm S'.hn S'.projected S'.scaling s.lambda) =
    dot (S.decomposition.slopeAt S.hm S.hn S.projected S.scaling s.lambda)
      (S.decomposition.slopeAt S.hm S.hn S.projected S.scaling s.lambda) := h.slope_eq hl
  rw [S'.lengthAt_eq, S.lengthAt_eq, h.length_eq hl, hslope]

/-- What two searches find in the two charts. -/
def Found (χ : Chart n) (r : Decomposition.Parameter ℝ m n)
    (r' : Decomposition.Parameter ℝ m' n) : Prop :=
  r'.lambda = r.lambda ∧ r.direction = χ.point r'.direction

/-- **The Newton passes** take the same parameters. -/
theorem newton (left : Nat) {s : Damped.Newton ℝ} (hl : 0 ≤ s.lambda) (hlo : 0 ≤ s.lower)
    (hu : 0 ≤ s.upper) :
    Found χ (Decomposition.newton S.hm S.hn S.projected δ S.scaling left s S.decomposition)
      (Decomposition.newton S'.hm S'.hn S'.projected δ S'.scaling left s S'.decomposition) := by
  induction left generalizing s with
  | zero =>
    rw [Decomposition.newton_zero, Decomposition.newton_zero]
    exact ⟨rfl, h.damped_eq (Decomposition.leaveZero_pos hl)⟩
  | succ left ih =>
    have hpos := Decomposition.leaveZero_pos hl
    rw [Decomposition.newton_succ S.written, Decomposition.newton_succ S'.written,
      S'.lengthAt_eq, S.lengthAt_eq, h.length_eq hpos]
    by_cases hsettled : s.leaveZero.isSettled δ (S.length (S.damped s.leaveZero.lambda) - δ)
    · rw [if_pos hsettled, if_pos hsettled]
      exact ⟨rfl, h.damped_eq hpos⟩
    · rw [if_neg hsettled, if_neg hsettled, h.nextOf_eq hpos]
      obtain ⟨elo, eu⟩ := SignRule.leaveZero_bracket s
      obtain ⟨g₁, g₂, g₃⟩ := Exact.signRule.newton_next hpos.le (elo ▸ hlo) (eu ▸ hu)
        (S.decomposition.lengthAt S.hm S.hn S.projected S.scaling s.leaveZero.lambda - δ)
        (S.decomposition.correctionAt S.hm S.hn S.projected S.scaling δ s.leaveZero.lambda)
      exact ih g₁ g₂ g₃

/-! ### The bracket before the first pass -/

/-- **The undamped direction**: negligible columns have no part in it. -/
theorem undamped_eq : S.undamped = χ.point S'.undamped := by
  have hall := Decomposition.pivotColumns_eq_univ S.represents.order S.all
  have hall' := Decomposition.pivotColumns_eq_univ S'.represents.order S'.all
  have hx := Decomposition.isUndamped S.represents
  have hx' := Decomposition.isUndamped S'.represents
  have hsolves' := (Decomposition.isStep_undamped S'.represents S'.scaling).solves hall'
  have hpull := (solves_pull h.gram h.scaling h.moment).mpr hsolves'
  have hback : IsUndamped S.jacobian S.residuals (S.decomposition.pivotColumns p)
      (S.decomposition.pivotColumns S.decomposition.rank)
      (χ.point (S'.undamped.map fun x => -x)) := by
    constructor
    · intro c hc
      have hc' := hx'.outside (χ.perm c) fun hmem => hc (h.ranks.pivots c hmem)
      rw [point_apply]
      exact mul_eq_zero_of_right _ hc'
    · intro c _
      rw [hall, ← Mat.transposeMulVec_eq]
      simp only [← Mat.gram_eq]
      have hc := hpull c
      rw [zero_mul, zero_mul, add_zero, ← point_get] at hc
      exact hc
  have heq := Decomposition.isUndamped_unique S.represents hx hback
  rw [point_map_neg] at heq
  refine Vec.ext fun i => neg_injective ?_
  have hi := congrArg (fun v : Vec ℝ n => v i) heq
  simp only [Vec.map_apply] at hi
  exact hi

theorem undampedLength_eq : S'.length S'.undamped = S.length S.undamped := by
  rw [h.undamped_eq, h.length_point]

/-- **The slope at zero**, where no column is negligible. -/
theorem undampedSlope_eq (hr : S.decomposition.rank = p) (hr' : S'.decomposition.rank = p') :
    S'.undampedSlope = S.undampedSlope := by
  obtain ⟨z, hz, hslope⟩ := S.exists_undampedSlope hr
  obtain ⟨z', hz', hslope'⟩ := S'.exists_undampedSlope hr'
  have hdual := h.dual_slopeSide S'.undamped
  rw [← h.undamped_eq] at hdual
  have hdefinite : Definite S.jacobian S.scaling 0 :=
    .inr ⟨le_rfl, fun v => S.represents.eq_zero_of_mulVec S.all hr⟩
  rw [hslope, hslope']
  exact h.gram.dot_solution h.scaling hdual hdefinite hz hz'

/-- **The scaled gradient**. -/
theorem gradientNorm_eq :
    norm (Vec.ofFn fun k => S'.decomposition.gradient S'.hm S'.hn S'.projected k /
        S'.decomposition.gather S'.hn S'.scaling k) =
      norm (Vec.ofFn fun k => S.decomposition.gradient S.hm S.hn S.projected k /
        S.decomposition.gather S.hn S.scaling k) := by
  rw [S'.represents.gradientNorm_eq S'.all, S.represents.gradientNorm_eq S.all,
    ← Equiv.sum_comp χ.perm]
  congr 1
  refine Finset.sum_congr rfl fun i _ => ?_
  rw [show S'.jacobian.transposeMulVec S'.residuals (χ.perm i) = χ.factor i * S.moment i from
    h.moment i, show S'.scaling (χ.perm i) = χ.factor i * S.scaling i from h.scaling i,
    mul_div_mul_left _ _ (χ.factor_pos i).ne']
  rfl

/-- **The bracket before the first pass**. -/
theorem newtonStart_eq (initial : ℝ) :
    S'.decomposition.newtonStart S'.hm S'.hn S'.projected δ S'.scaling initial =
      S.decomposition.newtonStart S.hm S.hn S.projected δ S.scaling initial := by
  have hp : p' = p := (le_antisymm S'.hn S'.all).trans (le_antisymm S.hn S.all).symm
  have hfull : (S'.decomposition.rank = p') = (S.decomposition.rank = p) :=
    congrArg₂ (· = ·) h.ranks.rank_eq hp
  rw [Decomposition.newtonStart_eq, Decomposition.newtonStart_eq, S'.undampedLength_eq,
    S.undampedLength_eq, h.undampedLength_eq, h.gradientNorm_eq]
  simp only [hfull]
  exact Decomposition.bracketOf_congr fun hr => h.undampedSlope_eq hr (hfull ▸ hr)

/-- **The search for the damping parameter** finds the same parameter in both charts, and
directions that correspond. -/
theorem parameter (hδ : 0 < δ) {initial : ℝ} (hi : 0 ≤ initial) :
    Found χ (S.parameter δ initial) (S'.parameter δ initial) := by
  have hexcess : SignRule.undampedExcess S'.decomposition S'.hn S'.projected δ S'.scaling =
      SignRule.undampedExcess S.decomposition S.hn S.projected δ S.scaling := by
    rw [SignRule.undampedExcess, SignRule.undampedExcess, S'.undampedLength_eq,
      S.undampedLength_eq, h.undampedLength_eq]
  rw [Subproblem.parameter, Subproblem.parameter, Decomposition.parameter_eq,
    Decomposition.parameter_eq, hexcess, h.newtonStart_eq]
  by_cases hfit : SignRule.undampedExcess S.decomposition S.hn S.projected δ S.scaling ≤ 0.1 * δ
  · rw [if_pos hfit, if_pos hfit]
    exact ⟨rfl, h.undamped_eq⟩
  · rw [if_neg hfit, if_neg hfit]
    obtain ⟨hl, hlo, hu⟩ := Exact.signRule.newtonStart S.decomposition S.hm S.hn S.projected
      S.scaling hδ.le hi hfit
    exact h.newton Damped.furtherPasses hl hlo hu

end Chart.Links

end LeastSquares
