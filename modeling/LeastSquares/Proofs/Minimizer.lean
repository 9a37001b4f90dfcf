import LeastSquares.Proofs.Damping
import LeastSquares.Proofs.Scratch

/-!
# The damped direction as a minimiser

What a damped solve answers and leaves in exact arithmetic, for every decomposition with the
diagonal of `R` in its buffer, singular or not, and every diagonal `D`, zeros and negative entries
included.
The triangle `S` of the solve is read back from two places: its diagonal is answered, and its
entries above the diagonal stand transposed in the scratch, `Decomposition.scratchTriangle`.

Results:
* `Damped.squares_add`, `Damped.squares_le`: the sum of squares of a damped system around a point,
  and why normal equations make it least;
* `IsDampedSolve`: `Sᵀ S = Rᵀ R + D²`, and before the first zero `q` on the diagonal of `S` the
  direction fulfils the normal equations, so it is the least one of those that are zero off the
  first `q` pivots;
* `isDampedSolve_direction`, `directionFor_isDampedSolve`: the damped direction, and that of a
  caller, is such a solve.
-/

namespace LeastSquares

open Matrix

variable {m n p : Nat}

namespace Damped

variable (R : Mat ℝ p p) (b d : Vec ℝ p)

/-- The sum of squares of a damped system: `‖R z - b‖² + ‖D z‖²`. -/
noncomputable def squares (z : Fin p → ℝ) : ℝ :=
  (∑ i, ((∑ j, R i j * z j) - b i) ^ 2) + ∑ j, (d j * z j) ^ 2

/-- What is left of equation `a` of the normal equations `(Rᵀ R + D²) z = Rᵀ b`. -/
noncomputable def normalDefect (z : Fin p → ℝ) (a : Fin p) : ℝ :=
  (∑ c, (∑ i, R i a * R i c) * z c) + d a * d a * z a - ∑ i, R i a * b i

/-- The products of the rows with two vectors, summed over the rows. -/
theorem sum_rows_mul (x h : Fin p → ℝ) :
    ∑ i, (∑ j, R i j * x j) * ∑ j, R i j * h j =
      ∑ a, h a * ∑ c, (∑ i, R i a * R i c) * x c := by
  simp only [Finset.sum_mul, Finset.mul_sum]
  rw [Finset.sum_comm]
  refine Finset.sum_congr rfl fun a _ => ?_
  rw [Finset.sum_comm]
  exact Finset.sum_congr rfl fun c _ => Finset.sum_congr rfl fun i _ => by ring

/-- The slope of the sum of squares is the defect of the normal equations. -/
theorem sum_mul_normalDefect (x h : Fin p → ℝ) :
    ∑ a, h a * normalDefect R b d x a =
      (∑ i, ((∑ j, R i j * x j) - b i) * ∑ j, R i j * h j) + ∑ a, d a * h a * (d a * x a) := by
  have hrhs : ∑ i, b i * (∑ j, R i j * h j) = ∑ a, h a * ∑ i, R i a * b i := by
    simp only [Finset.mul_sum]
    rw [Finset.sum_comm]
    exact Finset.sum_congr rfl fun a _ => Finset.sum_congr rfl fun i _ => by ring
  simp only [sub_mul, Finset.sum_sub_distrib]
  rw [sum_rows_mul, hrhs, ← Finset.sum_sub_distrib, ← Finset.sum_add_distrib]
  exact Finset.sum_congr rfl fun a _ => by
    unfold normalDefect
    ring

/-- **The sum of squares around a point**: besides its slope it grows by a sum of squares. -/
theorem squares_add (x h : Fin p → ℝ) :
    squares R b d (fun j => x j + h j) = squares R b d x +
      2 * (∑ a, h a * normalDefect R b d x a) +
        ((∑ i, (∑ j, R i j * h j) ^ 2) + ∑ j, (d j * h j) ^ 2) := by
  have hrow (i : Fin p) : ((∑ j, R i j * (x j + h j)) - b i) ^ 2 =
      ((∑ j, R i j * x j) - b i) ^ 2 +
        2 * (((∑ j, R i j * x j) - b i) * ∑ j, R i j * h j) + (∑ j, R i j * h j) ^ 2 := by
    simp only [mul_add, Finset.sum_add_distrib]
    ring
  have hdamped (j : Fin p) : (d j * (x j + h j)) ^ 2 =
      (d j * x j) ^ 2 + 2 * (d j * h j * (d j * x j)) + (d j * h j) ^ 2 := by ring
  rw [sum_mul_normalDefect]
  unfold squares
  simp only [hrow, hdamped, Finset.sum_add_distrib, ← Finset.mul_sum]
  ring

/-- A point at which the normal equations of its entries hold is the least among those with the same
entries at zero. -/
theorem squares_le {x z : Fin p → ℝ} {q : Nat}
    (hx : ∀ a : Fin p, a.val < q → normalDefect R b d x a = 0)
    (hzero : ∀ a : Fin p, q ≤ a.val → x a = 0) (hz : ∀ a : Fin p, q ≤ a.val → z a = 0) :
    squares R b d x ≤ squares R b d z := by
  have hadd := squares_add R b d x fun j => z j - x j
  simp only [add_sub_cancel] at hadd
  have hslope : ∑ a, (z a - x a) * normalDefect R b d x a = 0 := by
    refine Finset.sum_eq_zero fun a _ => ?_
    rcases Nat.lt_or_ge a.val q with ha | ha
    · rw [hx a ha, mul_zero]
    · rw [hz a ha, hzero a ha, sub_zero, zero_mul]
  have h₁ : 0 ≤ ∑ i, (∑ j, R i j * (z j - x j)) ^ 2 := Finset.sum_nonneg fun i _ => sq_nonneg _
  have h₂ : 0 ≤ ∑ j, (d j * (z j - x j)) ^ 2 := Finset.sum_nonneg fun j _ => sq_nonneg _
  rw [hadd, hslope]
  linarith

end Damped

namespace Decomposition

/-- The triangle `S` of a damped solve as a caller reads it: the diagonal was answered, and the
entries above it stand transposed in the scratch. -/
def scratchTriangle (d : Decomposition ℝ m n) (hm : p ≤ m) (hn : p ≤ n) (diagonal : Vec ℝ p) :
    Mat ℝ p p :=
  Mat.ofFn fun k i =>
    if k < i then d.inColumnOrder (i.castLE hm) (d.order (k.castLE hn))
    else if k = i then diagonal k
    else 0

/-- **A damped solve** of `d` for the right-hand side `b` and the diagonal `D`. It answers `x` and
the diagonal of `S`, on which `q` is the first zero, and it leaves `d'`. -/
structure IsDampedSolve (hm : p ≤ m) (hn : p ≤ n) (d : Decomposition ℝ m n) (b : Vec ℝ p)
    (D x : Vec ℝ n) (diagonal : Vec ℝ p) (d' : Decomposition ℝ m n) (q : Nat) : Prop where
  agrees : Agrees p d d'
  gram : (d'.scratchTriangle hm hn diagonal).toMatrixᵀ *
      (d'.scratchTriangle hm hn diagonal).toMatrix =
    (d.block hm hn).toMatrixᵀ * (d.block hm hn).toMatrix +
      Matrix.diagonal fun k => D (d.order (k.castLE hn)) ^ 2
  le : q ≤ p
  diagonal_ne : ∀ k : Fin p, k.val < q → diagonal k ≠ 0
  diagonal_eq_zero : ∀ hq : q < p, diagonal ⟨q, hq⟩ = 0
  outside : ∀ c, c ∉ d.pivotColumns q → x c = 0
  normal : ∀ a : Fin p, a.val < q →
    Damped.normalDefect (d.block hm hn) b (d.gather hn D) (d.gather hn x).get a = 0
  least : ∀ z : Vec ℝ n, (∀ c, c ∉ d.pivotColumns q → z c = 0) →
    Damped.squares (d.block hm hn) b (d.gather hn D) (d.gather hn x).get ≤
      Damped.squares (d.block hm hn) b (d.gather hn D) (d.gather hn z).get

variable {d : Decomposition ℝ m n} {hm : p ≤ m} {hn : p ≤ n}

/-- What a damped solve writes into the scratch is the triangle. -/
theorem scratchTriangle_withScratch (hd : Function.Injective d.order) {S : Mat ℝ p p}
    (hS : S.IsUpper) : (d.withScratch S).scratchTriangle hm hn (Damped.diagonalOf S) = S := by
  refine Mat.ext fun k i => ?_
  have hpivot : (d.withScratch S).pivotOf (d.order (k.castLE hn)) = k.castLE hn :=
    pivotOf_order (d := d.withScratch S) hd _
  simp only [scratchTriangle, inColumnOrder, Mat.ofFn_apply]
  split_ifs with hlt heq
  · change (d.withScratch S).buffer (i.castLE hm)
      ((d.withScratch S).pivotOf (d.order (k.castLE hn))) = S k i
    rw [hpivot]
    simp only [withScratch, Mat.ofFn_apply, Fin.val_castLE, i.isLt, k.isLt, and_self, dite_true]
    exact if_pos hlt
  · rw [heq]
    exact Vec.ofFn_apply _ i
  · exact (hS k i (lt_of_le_of_ne (not_lt.mp hlt) (Ne.symm heq))).symm

theorem gather_scatter (hd : Function.Injective d.order) (v : Vec ℝ p) :
    d.gather hn (d.scatter v) = v := by
  refine Vec.ext fun k => ?_
  simp only [gather, scatter, Vec.ofFn_apply, pivotOf_order hd]
  exact dif_pos k.isLt

/-- A vector that is zero off the first `q` pivots is so in pivot order too. -/
theorem gather_eq_zero (hd : Function.Injective d.order) {q : Nat} {z : Vec ℝ n}
    (hz : ∀ c, c ∉ d.pivotColumns q → z c = 0) {k : Fin p} (hk : q ≤ k.val) :
    d.gather hn z k = 0 := by
  rw [gather, Vec.ofFn_apply]
  refine hz _ fun hmem => ?_
  have hlt := (mem_pivotColumns hd).mp hmem
  rw [pivotOf_order hd] at hlt
  exact absurd hlt (not_lt.mpr hk)

/-- **The damped direction** is a damped solve. -/
theorem isDampedSolve_direction (h : d.Written p) (b : Vec ℝ p) (D : Vec ℝ n) :
    let r := d.direction hm hn b D
    IsDampedSolve hm hn d b D r.direction r.solution.diagonal r.decomposition
      (Damped.firstZero r.solution.diagonal) := by
  have hR := block_isUpper d hm hn
  simp only [direction_direction, direction_solution, direction_decomposition]
  set s := Damped.solve (d.block hm hn) b (d.gather hn D) with hs
  have hx : d.gather hn (d.scatter s.direction) = s.direction := gather_scatter h.order _
  have hbehind {a : Fin p} (ha : Damped.firstZero s.diagonal ≤ a.val) :
      d.gather hn (d.scatter s.direction) a = 0 := by
    rw [hx]
    exact Damped.solve_direction_of_le b (d.gather hn D) ha
  have hnormal {a : Fin p} (ha : a.val < Damped.firstZero s.diagonal) :
      Damped.normalDefect (d.block hm hn) b (d.gather hn D)
        (d.gather hn (d.scatter s.direction)).get a = 0 := by
    rw [hx]
    exact sub_eq_zero.mpr (Damped.solve_normal b (d.gather hn D) hR ha)
  obtain ⟨hle, hne, hzero⟩ := Damped.firstZero_spec s.diagonal
  refine ⟨h.withScratch _, ?_, hle, hne, hzero, ?_, fun a => hnormal, ?_⟩
  · have hgram := Damped.solve_gram b (d.gather hn D) hR
    have htriangle : (d.withScratch s.upper).scratchTriangle hm hn s.diagonal = s.upper :=
      scratchTriangle_withScratch h.order (Damped.solve_isUpper b (d.gather hn D) hR)
    rw [htriangle, hgram]
    simp only [gather, Vec.ofFn_apply, sq]
  · intro c hc
    have hq := not_lt.mp fun hlt => hc ((mem_pivotColumns h.order).mpr hlt)
    rw [scatter, Vec.ofFn_apply]
    split_ifs with hp
    · exact Damped.solve_direction_of_le b (d.gather hn D) hq
    · rfl
  · intro z hz
    exact Damped.squares_le _ _ _ (fun a => hnormal) (fun a => hbehind)
      fun a => gather_eq_zero h.order hz

/-- **Headline.** The damped direction that a caller is told, for every right-hand side and every
diagonal, is a damped solve: the triangle that its scratch and its diagonal hold has
`Sᵀ S = Rᵀ R + D²`, and the direction is the least one that the regular part of the triangle
allows. -/
theorem directionFor_isDampedSolve (hm : p ≤ m) (hn : p ≤ n) (h : d.Written p) (qy : Vec ℝ m)
    (D : Vec ℝ n) :
    ∃ (x : Vec ℝ n) (diagonal : Vec ℝ p) (d' : Decomposition ℝ m n) (q : Nat),
      (directionFor p qy.toList D.toList).after d = (.ok (x, diagonal.toList), d') ∧
        IsDampedSolve hm hn d (qy.take hm) D x diagonal d' q :=
  ⟨_, _, _, _, (Agrees.refl d).directionFor_after hm hn qy D, isDampedSolve_direction h _ D⟩

/-- The triangle with the rows `(1, 1)` and `(0, 0)`, for columns that changed places. -/
def flatTriangle : Decomposition ℝ 2 2 where
  buffer := Mat.ofFn fun i _ => if i.val = 0 then 1 else 0
  order := Vec.ofFn Fin.rev
  diagonal := Vec.ofFn fun k => if k.val = 0 then 1 else 0
  beta := Vec.replicate 2 0
  columnNorm := Vec.replicate 2 1
  rank := 1

theorem flatTriangle_written : flatTriangle.Written 2 where
  order i j h := by simpa [flatTriangle] using h
  diagonal_eq i k hik _ := by
    obtain rfl := Fin.ext hik
    simp [flatTriangle]

/-- Without damping the triangle stays singular, so the second pivot is left at zero. -/
theorem directionFor_isDampedSolve_flatTriangle :
    flatTriangle.Written 2 ∧ ∃ (x : Vec ℝ 2) (diagonal : Vec ℝ 2) (d' : Decomposition ℝ 2 2)
      (q : Nat),
      (directionFor 2 (Vec.replicate 2 (1 : ℝ)).toList (Vec.replicate 2 (0 : ℝ)).toList).after
          flatTriangle = (.ok (x, diagonal.toList), d') ∧
        IsDampedSolve le_rfl le_rfl flatTriangle ((Vec.replicate 2 1).take le_rfl)
          (Vec.replicate 2 0) x diagonal d' q ∧ q < 2 := by
  obtain ⟨x, diagonal, d', q, hd, h⟩ := directionFor_isDampedSolve le_rfl le_rfl
    flatTriangle_written (Vec.replicate 2 1) (Vec.replicate 2 0)
  refine ⟨flatTriangle_written, x, diagonal, d', q, hd, h, not_le.mp fun hq => ?_⟩
  have hgram (a c : Fin 2) := congrFun (congrFun h.gram a) c
  have h₀ := hgram 0 0
  have h₁ := hgram 0 1
  have h₂ := hgram 1 1
  simp [Matrix.mul_apply, Mat.toMatrix, scratchTriangle, block, flatTriangle, Vec.replicate]
    at h₀ h₁ h₂
  -- with `s₀₀² = 1` and `s₀₀ s₀₁ = 1` nothing is left for `s₁₁` of `s₀₁² + s₁₁² = 1`
  refine h.diagonal_ne 1 hq (mul_self_eq_zero.mp ?_)
  set s := diagonal 0
  set t := d'.inColumnOrder 1 (d'.order 0)
  have ht : t * t = 1 := by linear_combination (s * t + 1) * h₁ - t * t * h₀
  linear_combination h₂ - ht

end Decomposition

end LeastSquares
