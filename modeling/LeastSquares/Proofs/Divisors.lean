import LeastSquares.Proofs.Extension

/-!
# What the search for a damping parameter divides by

A search is `Posed` if the diagonal of `R` has no zero up to the rank, scaling and radius are
positive and the gradient is not zero. The rank may be deficient, and what is left of negligible
columns may be in the triangle. Then nothing that the search divides by is zero (`Divides`), and in
every arithmetic that contains the real numbers it finds what it finds in exact arithmetic.

Results:
* `Posed.agrees`: a damped solve leaves a search as it was;
* `Posed.divides`: the divisors of a search, from its undamped direction to its last pass;
* `Posed.map_parameter`: the search in other arithmetics.
-/

namespace LeastSquares.Decomposition

open Matrix Secular

variable {m n p : Nat} {d d' : Decomposition ℝ m n} {hm : p ≤ m} {hn : p ≤ n} {qy : Vec ℝ m}
  {D : Vec ℝ n} {δ lambda : ℝ}

/-- The diagonal of `R` has no zero up to the rank, whatever the threshold. -/
theorem Factored.solvable {J : Mat ℝ m n} {t : ℝ} (h : Factored J t d) (ht : 0 ≤ t) (hm : p ≤ m)
    (hn : p ≤ n) (hr : d.rank ≤ p) : Solvable hm hn (d.writeDiagonal p) where
  rank_le := hr
  diagonal_eq := (writeDiagonal_written h.order p).block_diagonal hm hn
  diagonal_ne := h.diagonal_ne ht

theorem Solvable.agrees (h : Solvable hm hn d) (ha : Agrees p d d') : Solvable hm hn d' where
  rank_le := ha.rank_eq ▸ h.rank_le
  diagonal_eq k := by rw [ha.block_eq hm hn, ha.diagonal_eq, h.diagonal_eq]
  diagonal_ne k hk := by
    rw [ha.diagonal_eq]
    exact h.diagonal_ne k (ha.rank_eq ▸ hk)

/-- A search for a damping parameter with positive scaling and radius and a gradient that is not
zero. -/
structure Posed (hm : p ≤ m) (hn : p ≤ n) (d : Decomposition ℝ m n) (qy : Vec ℝ m) (D : Vec ℝ n)
    (δ : ℝ) : Prop where
  written : d.Written p
  solvable : Solvable hm hn d
  scaling_pos : ∀ c, 0 < D c
  radius_pos : 0 < δ
  gradient_ne : d.scaledGradient hm hn qy D ≠ 0

theorem Posed.agrees (h : Posed hm hn d qy D δ) (ha : Agrees p d d') : Posed hm hn d' qy D δ where
  written := ha.written h.written
  solvable := h.solvable.agrees ha
  scaling_pos := h.scaling_pos
  radius_pos := h.radius_pos
  gradient_ne := by
    unfold scaledGradient
    rw [ha.gradient_eq, ha.gather_eq]
    exact h.gradient_ne

/-! ## Slopes -/

theorem dot_self_pos {v : Vec ℝ p} (hv : v.get ≠ 0) : 0 < dot v v := by
  rw [Exact.dot_eq]
  exact lt_of_le_of_ne (dot_self_nonneg v.get) fun h0 => hv (dotProduct_self_eq_zero.mp h0.symm)

/-- Forward substitution takes no vector but zero to zero. -/
theorem dot_solveTransposed_pos {S : Mat ℝ p p} {t b : Vec ℝ p} (hS : S.IsUpper)
    (hdiag : ∀ k, t k = S k k) (hne : ∀ k, t k ≠ 0) (hb : b.get ≠ 0) :
    0 < dot (Triangular.solveTransposed S t b) (Triangular.solveTransposed S t b) := by
  refine dot_self_pos fun h0 => hb ?_
  rw [← transpose_mulVec_solveTransposed hS hdiag hne b, h0, mulVec_zero]

/-- A vector with a length, scaled and divided by its length, is not zero. -/
theorem scaled_div_norm_ne {w e : Vec ℝ p} (hw : norm w ≠ 0) (he : ∀ k, e k ≠ 0) :
    (Vec.ofFn fun k => w k * e k / norm w).get ≠ 0 := by
  intro h0
  refine hw ?_
  rw [Exact.norm_eq]
  have hzero (k : Fin p) : w k = 0 := by
    have hk := congrFun h0 k
    rw [Vec.ofFn_apply] at hk
    exact (mul_eq_zero.mp ((div_eq_zero_iff.mp hk).resolve_right hw)).resolve_right (he k)
  simp [hzero]

/-! ## Divisors -/

/-- The vector that the lower end of the bracket is formed from. -/
def undampedSlope {α : Type} [Scalar α] (d : Decomposition α m n) (hm : p ≤ m) (hn : p ≤ n)
    (qy : Vec α m) (D : Vec α n) : Vec α p :=
  let w := Damped.scaled (d.gather hn D) ((d.undamped qy).take hn)
  Triangular.solveTransposed (d.block hm hn) (d.diagonal.take hn)
    (Vec.ofFn fun k => w k * (d.gather hn D k / norm w))

/-- **No divisor of a pass is zero**: the entries on the diagonal of `S`, the length of the
direction, and the slope times the radius. -/
structure PassDivides (hm : p ≤ m) (hn : p ≤ n) (d : Decomposition ℝ m n) (qy : Vec ℝ m)
    (D : Vec ℝ n) (δ lambda : ℝ) : Prop where
  lambda_pos : 0 < lambda
  diagonal_ne : ∀ k, (d.dampedAt hm hn qy D lambda).solution.diagonal k ≠ 0
  length_ne : d.lengthAt hm hn qy D lambda ≠ 0
  slope_ne : δ * dot (d.slopeAt hm hn qy D lambda) (d.slopeAt hm hn qy D lambda) ≠ 0

/-- **No divisor of a search is zero**. -/
structure Divides (hm : p ≤ m) (hn : p ≤ n) (d : Decomposition ℝ m n) (qy : Vec ℝ m)
    (D : Vec ℝ n) (δ initial : ℝ) : Prop where
  /-- The undamped direction is divided by the diagonal of `R` up to the rank. -/
  diagonal_ne : ∀ k : Fin n, k.val < d.rank → d.diagonal k ≠ 0
  /-- The bracket is divided by the length of an undamped direction that does not fit. -/
  length_ne : ¬ SignRule.undampedExcess d hn qy δ D ≤ 0.1 * δ →
    norm (Damped.scaled (d.gather hn D) ((d.undamped qy).take hn)) ≠ 0
  /-- Its lower end, at full rank, by the slope times the radius. -/
  slope_ne : ¬ SignRule.undampedExcess d hn qy δ D ≤ 0.1 * δ → d.rank = p →
    δ * dot (d.undampedSlope hm hn qy D) (d.undampedSlope hm hn qy D) ≠ 0
  pass : ∀ s ∈ (d.parameter hm hn qy δ D initial).passes, PassDivides hm hn d qy D δ s.lambda

section Posed

variable (h : Posed hm hn d qy D δ)

include h

theorem Posed.gather_ne (k : Fin p) : d.gather hn D k ≠ 0 := (gather_pos h.scaling_pos k).ne'

theorem Posed.lengthAt_pos (hl : 0 < lambda) : 0 < d.lengthAt hm hn qy D lambda := by
  have hy := ne_zero_of_shifted h.gradient_ne
    (shifted_dampedAt h.written.order hm hn qy h.scaling_pos hl)
  rw [lengthAt, ← length_get]
  exact length_pos hy

theorem Posed.passDivides (hl : 0 < lambda) : PassDivides hm hn d qy D δ lambda := by
  have hlength := (h.lengthAt_pos hl).ne'
  have hdiag (k : Fin p) : (d.dampedAt hm hn qy D lambda).solution.diagonal k ≠ 0 :=
    (Damped.firstZero_spec _).2.1 k
      ((firstZero_dampedAt d hm hn qy h.scaling_pos hl).symm ▸ k.isLt)
  refine ⟨hl, hdiag, hlength, (mul_pos h.radius_pos ?_).ne'⟩
  rw [slopeAt_eq, lengthAt]
  rw [lengthAt] at hlength
  rw [dampedAt_solution] at hlength hdiag ⊢
  exact dot_solveTransposed_pos (Damped.solve_isUpper _ _ (block_isUpper d hm hn))
    (fun k => Damped.solve_diagonal _ _ k) hdiag (scaled_div_norm_ne hlength h.gather_ne)

/-- An undamped direction that does not fit has a length. -/
theorem Posed.undamped_pos (hfit : ¬ SignRule.undampedExcess d hn qy δ D ≤ 0.1 * δ) :
    0 < norm (Damped.scaled (d.gather hn D) ((d.undamped qy).take hn)) := by
  have hδ := h.radius_pos
  unfold SignRule.undampedExcess at hfit
  linarith [not_le.mp hfit]

theorem Posed.undampedSlope_pos (hfit : ¬ SignRule.undampedExcess d hn qy δ D ≤ 0.1 * δ)
    (hr : d.rank = p) :
    0 < dot (d.undampedSlope hm hn qy D) (d.undampedSlope hm hn qy D) := by
  unfold undampedSlope
  simp only [mul_div_assoc']
  refine dot_solveTransposed_pos (block_isUpper d hm hn) (fun k => ?_) (fun k => ?_)
    (scaled_div_norm_ne (h.undamped_pos hfit).ne' h.gather_ne)
  · rw [Vec.take_apply, h.solvable.diagonal_eq]
  · rw [Vec.take_apply]
    exact h.solvable.diagonal_ne _ (hr ▸ k.isLt)

theorem Posed.newton_divides (left : Nat) {s : Damped.Newton ℝ} (hl : 0 ≤ s.lambda)
    (hlo : 0 ≤ s.lower) (hu : 0 ≤ s.upper) :
    ∀ t ∈ (newton hm hn qy δ D left s d).passes, PassDivides hm hn d qy D δ t.lambda := by
  have hpos := leaveZero_pos hl
  -- the parameter and both ends of the bracket stay non-negative, and a pass leaves zero first
  induction left generalizing s with
  | zero =>
    rw [newton_zero]
    exact List.forall_mem_singleton.mpr (h.passDivides hpos)
  | succ left ih =>
    obtain ⟨elo, eu⟩ := SignRule.leaveZero_bracket s
    rw [newton_succ h.written]
    split_ifs
    · exact List.forall_mem_singleton.mpr (h.passDivides hpos)
    · obtain ⟨g₁, g₂, g₃⟩ := Exact.signRule.newton_next hpos.le (elo ▸ hlo) (eu ▸ hu)
        (d.lengthAt hm hn qy D s.leaveZero.lambda - δ)
        (d.correctionAt hm hn qy D δ s.leaveZero.lambda)
      exact List.forall_mem_cons.mpr ⟨h.passDivides hpos, ih g₁ g₂ g₃ (leaveZero_pos g₁)⟩

/-- **The divisors of a search**. -/
theorem Posed.divides {initial : ℝ} (hi : 0 ≤ initial) : Divides hm hn d qy D δ initial where
  diagonal_ne := h.solvable.diagonal_ne
  length_ne hfit := (h.undamped_pos hfit).ne'
  slope_ne hfit hr := (mul_pos h.radius_pos (h.undampedSlope_pos hfit hr)).ne'
  pass := by
    rcases Exact.signRule.parameter_cases d hm hn qy D h.radius_pos.le hi with
      ⟨-, he⟩ | ⟨-, s, hl, hlo, hu, he⟩
    · rw [he]
      exact fun s hs => absurd hs List.not_mem_nil
    · rw [he]
      exact h.newton_divides _ hl hlo hu

end Posed

/-! ## The search in other arithmetics -/

/-- What a search finds with a pass before it. -/
def Parameter.withPass {α : Type} (r : Parameter α m n) (t : Damped.Newton α) : Parameter α m n :=
  { r with passes := t :: r.passes }

/-- A pass that is not the last one allowed, by the search that it begins with, its direction, its
scaled direction with its length, and the vector that it solves for. -/
theorem newton_pass {α : Type} [Scalar α] {d : Decomposition α m n} {hm : p ≤ m} {hn : p ≤ n}
    {qy : Vec α m} {δ : α} {D : Vec α n} {s t : Damped.Newton α} {r : Direction α m n p}
    {w u : Vec α p} {length : α} (ht : s.leaveZero = t)
    (hr : d.direction hm hn (qy.take hm) (D.map (sqrt t.lambda * ·)) = r)
    (hw : Damped.scaled (d.gather hn D) r.solution.direction = w) (hlength : norm w = length)
    (hu : Triangular.solveTransposedByColumns r.solution.upper r.solution.diagonal
      (Vec.ofFn fun k => w k * d.gather hn D k / length) = u) (left : Nat) :
    newton hm hn qy δ D (left + 1) s d =
      if t.isSettled δ (length - δ) then ⟨t.lambda, r.direction, r.decomposition, [t]⟩
      else
        (newton hm hn qy δ D left (t.next (length - δ) ((length - δ) / (δ * dot u u)))
          r.decomposition).withPass t := by
  subst ht hr hw hlength hu
  rw [← solveTransposedByColumns_scratch]
  rfl

/-- Such a pass in exact arithmetic. -/
theorem newton_pass_exact (left : Nat) (s : Damped.Newton ℝ) :
    newton hm hn qy δ D (left + 1) s d =
      if s.leaveZero.isSettled δ (d.lengthAt hm hn qy D s.leaveZero.lambda - δ) then
        d.endedAt hm hn qy D s.leaveZero
      else
        (newton hm hn qy δ D left (d.nextOf hm hn qy D δ s.leaveZero)
          (d.dampedAt hm hn qy D s.leaveZero.lambda).decomposition).withPass s.leaveZero :=
  newton_pass rfl rfl rfl rfl rfl left

/-- The bracket before the first pass, by the numbers that it is formed from. -/
def bracketOf {α : Type} [Scalar α] (full : Prop) [Decidable full]
    (δ length gradient slope initial : α) : Damped.Newton α :=
  let lower := if full then (length - δ) / (δ * slope) else 0
  let bound := gradient / δ
  let upper := if bound == 0 then Scalar.leastNormal / Scalar.smaller δ 0.1 else bound
  let start := Scalar.smaller upper (Scalar.larger initial lower)
  ⟨if start == 0 then gradient / length else start, lower, upper, length - δ⟩

theorem bracketOf_congr {α : Type} [Scalar α] {full : Prop} [Decidable full]
    {δ length gradient slope slope' initial : α} (h : full → slope = slope') :
    bracketOf full δ length gradient slope initial =
      bracketOf full δ length gradient slope' initial := by
  unfold bracketOf
  by_cases hfull : full
  · rw [h hfull]
  · simp only [if_neg hfull]

theorem newtonStart_eq {α : Type} [Scalar α] (d : Decomposition α m n) (hm : p ≤ m) (hn : p ≤ n)
    (qy : Vec α m) (δ : α) (D : Vec α n) (initial : α) :
    d.newtonStart hm hn qy δ D initial =
      bracketOf (d.rank = p) δ (norm (Damped.scaled (d.gather hn D) ((d.undamped qy).take hn)))
        (norm (Vec.ofFn fun k => d.gradient hm hn qy k / d.gather hn D k))
        (dot (d.undampedSlope hm hn qy D) (d.undampedSlope hm hn qy D)) initial := rfl

section Map

variable {β : Type} [Scalar β] {ι : ℝ → β} (hι : Extends ι)

include hι

theorem map_leaveZero (s : Damped.Newton ℝ) : (s.map ι).leaveZero = s.leaveZero.map ι := by
  unfold Damped.Newton.leaveZero
  simp only [Damped.Newton.map, hι.beq_zero, hι.leastNormal, ← hι.scientific, ← hι.mul, hι.larger]
  split_ifs <;> rfl

theorem isSettled_map_iff (s : Damped.Newton ℝ) (excess : ℝ) :
    (s.map ι).isSettled (ι δ) (ι excess) ↔ s.isSettled δ excess := by
  unfold Damped.Newton.isSettled
  simp only [Damped.Newton.map, ← hι.scientific, ← hι.mul, ← hι.abs, hι.le_iff, ← hι.zero,
    hι.lt_iff, hι.beq_eq]

theorem map_next (s : Damped.Newton ℝ) (excess correction : ℝ) :
    (s.map ι).next (ι excess) (ι correction) = (s.next excess correction).map ι := by
  unfold Damped.Newton.next
  simp only [Damped.Newton.map, ← hι.zero, hι.lt_iff, hι.larger, hι.smaller, ← apply_ite ι,
    ← hι.add]

theorem bracketOf_map {δ length : ℝ} (hδ : 0 < δ) (hlength : length ≠ 0) {full : Prop}
    [Decidable full] {slope : ℝ} (hslope : full → δ * slope ≠ 0) (initial gradient : ℝ) :
    bracketOf full (ι δ) (ι length) (ι gradient) (ι slope) (ι initial) =
      (bracketOf full δ length gradient slope initial).map ι := by
  have hsmall : Scalar.smaller δ 0.1 ≠ 0 := by
    rw [Exact.smaller_eq]
    exact (lt_min hδ (by norm_num)).ne'
  have hlower : (if full then ι (length - δ) / (ι δ * ι slope) else 0) =
      ι (if full then (length - δ) / (δ * slope) else 0) := by
    split_ifs with hfull
    · rw [hι.div _ (hslope hfull), hι.mul]
    · exact hι.zero.symm
  unfold bracketOf Damped.Newton.map
  simp only [← hι.sub, hlower, ← hι.scientific, hι.smaller, hι.leastNormal, ← hι.div _ hδ.ne',
    ← hι.div _ hsmall, ← hι.div _ hlength, hι.beq_zero, hι.larger, ← apply_ite ι]

theorem map_dampedAt (d : Decomposition ℝ m n) (hm : p ≤ m) (hn : p ≤ n) (qy : Vec ℝ m)
    (D : Vec ℝ n) (hl : 0 ≤ lambda) :
    (d.map ι).direction hm hn ((qy.map ι).take hm) ((D.map ι).map (sqrt (ι lambda) * ·)) =
      (d.dampedAt hm hn qy D lambda).map ι := by
  have hD : (D.map ι).map (sqrt (ι lambda) * ·) = (D.map (√lambda * ·)).map ι := by
    refine Vec.ext fun c => ?_
    simp only [Vec.map_apply, ← hι.sqrt hl, ← hι.mul]
    rfl
  rw [hD, Vec.map_take, hι.map_direction]
  rfl

theorem map_scaledDirection (d : Decomposition ℝ m n) (hn : p ≤ n) (D : Vec ℝ n)
    (r : Direction ℝ m n p) :
    Damped.scaled ((d.map ι).gather hn (D.map ι)) (r.map ι).solution.direction =
      (Damped.scaled (d.gather hn D) r.solution.direction).map ι := by
  rw [map_gather, ← hι.map_scaled]
  rfl

theorem Posed.map_slopeAt (h : Posed hm hn d qy D δ) (hl : 0 < lambda) :
    Triangular.solveTransposedByColumns
        ((d.dampedAt hm hn qy D lambda).map ι).solution.upper
        ((d.dampedAt hm hn qy D lambda).map ι).solution.diagonal
        (Vec.ofFn fun k => (Damped.scaled (d.gather hn D)
          (d.dampedAt hm hn qy D lambda).solution.direction).map ι k *
            (d.map ι).gather hn (D.map ι) k / ι (d.lengthAt hm hn qy D lambda)) =
      (d.slopeAt hm hn qy D lambda).map ι := by
  have hpass := h.passDivides hl
  have hdiagonal : ((d.dampedAt hm hn qy D lambda).map ι).solution.diagonal =
      (d.dampedAt hm hn qy D lambda).solution.diagonal.map ι := Damped.map_diagonal ι _
  unfold slopeAt
  simp only
  rw [← hι.map_solveTransposedByColumns hpass.diagonal_ne, Vec.map_ofFn, hdiagonal]
  simp only [map_gather, Vec.map_apply, ← hι.mul, ← hι.div _ hpass.length_ne]
  rfl

/-- **The Newton passes**. -/
theorem Posed.map_newton (h : Posed hm hn d qy D δ) (left : Nat) {s : Damped.Newton ℝ}
    (hl : 0 ≤ s.lambda) (hlo : 0 ≤ s.lower) (hu : 0 ≤ s.upper) :
    newton hm hn (qy.map ι) (ι δ) (D.map ι) left (s.map ι) (d.map ι) =
      (newton hm hn qy δ D left s d).map ι := by
  have hpos := leaveZero_pos hl
  -- each pass leaves the decomposition with its scratch, so the search stays `Posed`
  induction left generalizing s d with
  | zero =>
    rw [newton_zero]
    unfold newton
    simp only [ite_self, map_leaveZero hι]
    exact congrArg (fun r : Direction β m n p => (⟨ι s.leaveZero.lambda, r.direction,
      r.decomposition, [s.leaveZero.map ι]⟩ : Parameter β m n))
      (map_dampedAt hι d hm hn qy D hpos.le)
  | succ left ih =>
    have hpass := h.passDivides hpos
    have hcorrection : (ι (d.lengthAt hm hn qy D s.leaveZero.lambda) - ι δ) / (ι δ *
        dot ((d.slopeAt hm hn qy D s.leaveZero.lambda).map ι)
          ((d.slopeAt hm hn qy D s.leaveZero.lambda).map ι)) =
        ι (d.correctionAt hm hn qy D δ s.leaveZero.lambda) := by
      rw [correctionAt, hι.div _ hpass.slope_ne, hι.sub, hι.mul, hι.dot_map]
    obtain ⟨elo, eu⟩ := SignRule.leaveZero_bracket s
    obtain ⟨g₁, g₂, g₃⟩ := Exact.signRule.newton_next hpos.le (elo ▸ hlo) (eu ▸ hu)
      (d.lengthAt hm hn qy D s.leaveZero.lambda - δ)
      (d.correctionAt hm hn qy D δ s.leaveZero.lambda)
    have hagrees : Agrees p d (d.dampedAt hm hn qy D s.leaveZero.lambda).decomposition :=
      h.written.direction hm hn _ _
    have hlength : norm ((Damped.scaled (d.gather hn D)
        (d.dampedAt hm hn qy D s.leaveZero.lambda).solution.direction).map ι) =
        ι (d.lengthAt hm hn qy D s.leaveZero.lambda) := hι.norm_map _
    rw [newton_pass (map_leaveZero hι s) (map_dampedAt hι d hm hn qy D hpos.le)
      (map_scaledDirection hι d hn D _) hlength (h.map_slopeAt hι hpos),
      newton_pass_exact, hcorrection, ← hι.sub, map_next hι]
    simp only [isSettled_map_iff hι]
    split_ifs
    · rfl
    · exact congrArg (Parameter.withPass · _) (ih (h.agrees hagrees) g₁ g₂ g₃ (leaveZero_pos g₁))

section Start

variable (h : Posed hm hn d qy D δ) (hfit : ¬ SignRule.undampedExcess d hn qy δ D ≤ 0.1 * δ)

include h hfit

theorem Posed.map_undampedSlope (hr : d.rank = p) :
    (d.map ι).undampedSlope hm hn (qy.map ι) (D.map ι) = (d.undampedSlope hm hn qy D).map ι := by
  have hdiagonal : (d.map ι).diagonal = d.diagonal.map ι := rfl
  unfold undampedSlope
  simp only [map_gather, hι.map_undamped d h.solvable.diagonal_ne, Vec.map_take, hι.map_scaled,
    hι.norm_map, hι.map_block, hdiagonal]
  rw [← hι.map_solveTransposed, Vec.map_ofFn]
  · simp only [Vec.map_apply, hι.mul, hι.div _ (h.undamped_pos hfit).ne']
  · intro k
    rw [Vec.take_apply]
    exact h.solvable.diagonal_ne _ (hr ▸ k.isLt)

/-- The search before its first pass. -/
theorem Posed.map_newtonStart (initial : ℝ) :
    (d.map ι).newtonStart hm hn (qy.map ι) (ι δ) (D.map ι) (ι initial) =
      (d.newtonStart hm hn qy δ D initial).map ι := by
  have hgradient : (Vec.ofFn fun k => (d.gradient hm hn qy).map ι k / (d.gather hn D).map ι k) =
      (Vec.ofFn fun k => d.gradient hm hn qy k / d.gather hn D k).map ι := by
    simp only [Vec.map_ofFn, Vec.map_apply, hι.div _ (h.gather_ne _)]
  rw [newtonStart_eq, newtonStart_eq, ← bracketOf_map hι h.radius_pos (h.undamped_pos hfit).ne'
    fun hr => (mul_pos h.radius_pos (h.undampedSlope_pos hfit hr)).ne']
  simp only [map_gather, hι.map_undamped d h.solvable.diagonal_ne, Vec.map_take, hι.map_scaled,
    hι.norm_map, hι.map_gradient, hgradient]
  refine bracketOf_congr fun hr => ?_
  rw [h.map_undampedSlope hι hfit hr, hι.dot_map]

end Start

/-- **The search for a damping parameter**. -/
theorem Posed.map_parameter (h : Posed hm hn d qy D δ) {initial : ℝ} (hi : 0 ≤ initial) :
    (d.map ι).parameter hm hn (qy.map ι) (ι δ) (D.map ι) (ι initial) =
      (d.parameter hm hn qy δ D initial).map ι := by
  have hexcess : SignRule.undampedExcess (d.map ι) hn (qy.map ι) (ι δ) (D.map ι) =
      ι (SignRule.undampedExcess d hn qy δ D) := by
    unfold SignRule.undampedExcess
    rw [map_gather, hι.map_undamped d h.solvable.diagonal_ne, Vec.map_take, hι.map_scaled,
      hι.norm_map, hι.sub]
  rw [parameter_eq, parameter_eq, hexcess]
  simp only [← hι.scientific, ← hι.mul, hι.le_iff]
  split_ifs with hfit
  · rw [hι.map_undamped d h.solvable.diagonal_ne, map_toColumns, ← hι.zero]
    rfl
  · obtain ⟨hl, hlo, hu⟩ :=
      Exact.signRule.newtonStart d hm hn qy D h.radius_pos.le hi hfit
    rw [h.map_newtonStart hι hfit]
    exact h.map_newton hι _ hl hlo hu

end Map

end LeastSquares.Decomposition
