import Mathlib.Analysis.Real.Sqrt
import Mathlib.LinearAlgebra.Matrix.Block
import Mathlib.LinearAlgebra.Matrix.ToLinearEquiv
import Mathlib.Tactic.FieldSimp
import Mathlib.Tactic.LinearCombination
import LeastSquares.Damped.System
import LeastSquares.Proofs.Exact

/-!
# The damped system

`Damped.solve R b d` in exact arithmetic, for every upper triangular `R`, singular or not, and
every diagonal `d`, zeros and negative entries included. A rotation is orthogonal, so a row of `D`
can be rotated into the triangle without changing the sum of squares: `Elimination.gram e k` and
`Elimination.moment e k` are the products of the triangle and of what is left of the row from
entry `k` on, with themselves and with the right-hand sides. Each rotation keeps both
(`gram_rotate`, `moment_rotate`).

Results:
* `solve_gram`, `solve_moment`: the triangle `S` has `Sᵀ S = Rᵀ R + D²`, and its right-hand side
  `c` has `Sᵀ c = Rᵀ b`;
* `solve_normal`: before the first zero `q` on the diagonal of `S` the solution fulfils the normal
  equations `(Rᵀ R + D²) x = Rᵀ b`, from `q` on it is zero;
* `firstZero_solve`: if `D` has no zero, there is no zero on the diagonal of `S`.
-/

namespace LeastSquares

open scoped Matrix

variable {m n p : Nat}

theorem filter_le_finRange (j : Fin n) :
    (List.finRange n).filter (fun k => decide (j ≤ k)) = (List.finRange n).drop j := by
  have hbefore : ((List.finRange n).take j).filter (fun k => decide (j ≤ k)) = [] := by
    refine List.filter_eq_nil_iff.mpr fun k hk => ?_
    obtain ⟨l, hl, rfl⟩ := List.mem_take_iff_getElem.mp hk
    simp only [List.getElem_finRange, decide_eq_true_eq, Fin.le_def, Fin.val_cast]
    omega
  have hbehind : ((List.finRange n).drop j).filter (fun k => decide (j ≤ k)) =
      (List.finRange n).drop j := by
    refine List.filter_eq_self.mpr fun k hk => ?_
    obtain ⟨l, hl, rfl⟩ := List.mem_drop_iff_getElem.mp hk
    simp only [List.getElem_finRange, decide_eq_true_eq, Fin.le_def, Fin.val_cast]
    omega
  conv_lhs => rw [← List.take_append_drop j (List.finRange n)]
  rw [List.filter_append, hbefore, hbehind, List.nil_append]

/-- A stored matrix as a matrix. -/
def Mat.toMatrix (A : Mat ℝ m n) : Matrix (Fin m) (Fin n) ℝ := fun i j => A i j

/-- There is nothing below the diagonal. -/
def Mat.IsUpper (A : Mat ℝ p p) : Prop := ∀ i j, j < i → A i j = 0

/-- The products of the columns, applied to a vector. -/
theorem Mat.sum_gram_mul (A : Mat ℝ p p) (x : Fin p → ℝ) (a : Fin p) :
    (∑ c, (∑ i, A i a * A i c) * x c) = ∑ i, A i a * ∑ c, A i c * x c := by
  simp only [Finset.sum_mul, Finset.mul_sum]
  rw [Finset.sum_comm]
  simp only [mul_assoc]

namespace Damped

/-- The rotation is one, and takes the second number of the pair to zero. -/
theorem rotation_spec (r : ℝ) {d : ℝ} (hd : d ≠ 0) :
    (rotation r d).1 * (rotation r d).1 + (rotation r d).2 * (rotation r d).2 = 1 ∧
      (rotation r d).2 * r = (rotation r d).1 * d := by
  -- the root of one and a square, by which both numbers are divided
  have root (x : ℝ) : 1 / √(1 + x * x) * (1 / √(1 + x * x)) * (1 + x * x) = 1 := by
    have hpos : 0 < 1 + x * x := add_pos_of_pos_of_nonneg one_pos (mul_self_nonneg x)
    rw [div_mul_div_comm, one_mul, Real.mul_self_sqrt hpos.le, one_div_mul_cancel hpos.ne']
  unfold rotation
  split
  · have h := root (r / d)
    have e : r / d * d = r := div_mul_cancel₀ r hd
    constructor
    · linear_combination h
    · linear_combination (-(1 / √(1 + r / d * (r / d)))) * e
  · rename_i hle
    have hr : r ≠ 0 := fun h0 => hle (by rw [h0]; simpa [Scalar.abs] using hd)
    have h := root (d / r)
    have e : d / r * r = d := div_mul_cancel₀ d hr
    constructor
    · linear_combination h
    · linear_combination (1 / √(1 + d / r * (d / r))) * e

namespace Elimination

/-- What is left of the row from entry `k` on. -/
def left (e : Elimination ℝ p) (k : Nat) (a : Fin p) : ℝ := if k ≤ a.val then e.row a else 0

/-- The products of the columns, the row from entry `k` on included. -/
noncomputable def gram (e : Elimination ℝ p) (k : Nat) (a b : Fin p) : ℝ :=
  (∑ i, e.upper i a * e.upper i b) + e.left k a * e.left k b

/-- The products of the columns with the right-hand side, the row from entry `k` on included. -/
noncomputable def moment (e : Elimination ℝ p) (k : Nat) (a : Fin p) : ℝ :=
  (∑ i, e.upper i a * e.rhs i) + e.left k a * e.rest

/-- **One rotation**: row `k` of the triangle and what is left of the row are combined by an
orthogonal pair; no other row changes. -/
theorem rotate_spec (e : Elimination ℝ p) (hu : e.upper.IsUpper) (k : Fin p) :
    ∃ c s : ℝ, c * c + s * s = 1 ∧
      (∀ a, (e.rotate k).upper k a = c * e.upper k a + s * e.left k a) ∧
      (∀ a, (e.rotate k).left (k + 1) a = -s * e.upper k a + c * e.left k a) ∧
      (e.rotate k).rhs k = c * e.rhs k + s * e.rest ∧
      (e.rotate k).rest = -s * e.rhs k + c * e.rest ∧
      ∀ i, i ≠ k → (∀ a, (e.rotate k).upper i a = e.upper i a) ∧ (e.rotate k).rhs i = e.rhs i := by
  unfold rotate
  split_ifs with h0
  · -- a zero entry is left out: the pair `(1, 0)`
    have hz : e.row k = 0 := (Exact.beq_zero_iff _).mp h0
    refine ⟨1, 0, by ring, fun a => by ring, ?_, by ring, by ring,
      fun i _ => ⟨fun a => rfl, rfl⟩⟩
    intro a
    unfold left
    rcases lt_trichotomy a k with ha | rfl | ha
    · rw [if_neg (by omega), if_neg (by omega)]
      ring
    · rw [if_neg (by omega), if_pos le_rfl, hz]
      ring
    · rw [if_pos (by omega), if_pos (by omega)]
      ring
  · have hz : e.row k ≠ 0 := fun h => h0 ((Exact.beq_zero_iff _).mpr h)
    obtain ⟨hone, hzero⟩ := rotation_spec (e.upper k k) hz
    refine ⟨_, _, hone, ?_, ?_, ?_, rfl, ?_⟩
    · intro a
      simp only [Mat.ofFn_apply, true_and]
      unfold left
      split_ifs with h1 h2 h2
      · rfl
      · exact absurd h1 (by omega)
      · exact absurd h2 (by omega)
      · rw [hu k a (not_le.mp h1)]
        ring
    · intro a
      unfold left
      simp only [Vec.ofFn_apply]
      rcases lt_trichotomy a k with ha | rfl | ha
      · rw [if_neg (by omega), if_neg (by omega), hu k a ha]
        ring
      · rw [if_neg (by omega), if_pos le_rfl]
        linear_combination hzero
      · rw [if_pos (by omega), if_pos ha, if_pos (by omega)]
    · rw [Vec.set_apply, if_pos rfl]
    · intro i hi
      constructor
      · intro a
        simp only [Mat.ofFn_apply, hi, false_and, if_false]
      · rw [Vec.set_apply, if_neg hi]

/-- A sum over the rows in which only row `k` changes. -/
theorem sum_change (k : Fin p) {f g : Fin p → ℝ} (h : ∀ i, i ≠ k → f i = g i) :
    ∑ i, f i = (∑ i, g i) - g k + f k := by
  rw [← Finset.add_sum_erase Finset.univ f (Finset.mem_univ k),
    ← Finset.add_sum_erase Finset.univ g (Finset.mem_univ k),
    Finset.sum_congr rfl fun i hi => h i (Finset.ne_of_mem_erase hi)]
  ring

theorem gram_rotate (e : Elimination ℝ p) (hu : e.upper.IsUpper) (k a b : Fin p) :
    (e.rotate k).gram (k + 1) a b = e.gram k a b := by
  obtain ⟨c, s, hcs, hU, hL, -, -, hrest⟩ := e.rotate_spec hu k
  unfold gram
  rw [sum_change k fun i hi => by rw [(hrest i hi).1 a, (hrest i hi).1 b], hU, hU, hL, hL]
  linear_combination (e.upper k a * e.upper k b + e.left k a * e.left k b) * hcs

theorem moment_rotate (e : Elimination ℝ p) (hu : e.upper.IsUpper) (k a : Fin p) :
    (e.rotate k).moment (k + 1) a = e.moment k a := by
  obtain ⟨c, s, hcs, hU, hL, hb, hr, hrest⟩ := e.rotate_spec hu k
  unfold moment
  rw [sum_change k fun i hi => by rw [(hrest i hi).1 a, (hrest i hi).2], hU, hL, hb, hr]
  linear_combination (e.upper k a * e.rhs k + e.left k a * e.rest) * hcs

theorem isUpper_rotate (e : Elimination ℝ p) (hu : e.upper.IsUpper) (k : Fin p) :
    (e.rotate k).upper.IsUpper := by
  intro i j hij
  unfold rotate
  split_ifs
  · exact hu i j hij
  · simp only [Mat.ofFn_apply]
    rw [if_neg (by rintro ⟨rfl, h⟩; exact hij.not_ge h)]
    exact hu i j hij

/-- The row is rotated away from entry `k` on. -/
theorem foldl_rotate (e : Elimination ℝ p) (hu : e.upper.IsUpper) {k : Nat} (hk : k ≤ p) :
    let e' := ((List.finRange p).drop k).foldl rotate e
    e'.upper.IsUpper ∧ (∀ a b, e'.gram p a b = e.gram k a b) ∧
      ∀ a, e'.moment p a = e.moment k a := by
  induction hl : p - k generalizing k e with
  | zero =>
    obtain rfl : k = p := le_antisymm hk (Nat.sub_eq_zero_iff_le.mp hl)
    rw [List.drop_of_length_le (by rw [List.length_finRange])]
    exact ⟨hu, fun a b => rfl, fun a => rfl⟩
  | succ l ih =>
    have hk' : k < p := by omega
    rw [drop_finRange hk', List.foldl_cons]
    obtain ⟨h1, h2, h3⟩ := ih _ (e.isUpper_rotate hu ⟨k, hk'⟩) hk' (by omega)
    exact ⟨h1, fun a b => (h2 a b).trans (e.gram_rotate hu ⟨k, hk'⟩ a b),
      fun a => (h3 a).trans (e.moment_rotate hu ⟨k, hk'⟩ a)⟩

theorem left_self (e : Elimination ℝ p) (a : Fin p) : e.left p a = 0 :=
  if_neg (not_le.mpr a.isLt)

end Elimination

/-! ## All rows -/

/-- A row of `D` adds its square to the products of the columns and nothing to the products with
the right-hand side. -/
theorem absorb_spec (s : System ℝ p) (hu : s.upper.IsUpper) (j : Fin p) (x : ℝ) :
    (s.absorb j x).upper.IsUpper ∧
      (∀ a b, (∑ i, (s.absorb j x).upper i a * (s.absorb j x).upper i b) =
        (∑ i, s.upper i a * s.upper i b) + if a = j ∧ b = j then x * x else 0) ∧
      ∀ a, (∑ i, (s.absorb j x).upper i a * (s.absorb j x).rhs i) =
        ∑ i, s.upper i a * s.rhs i := by
  unfold System.absorb
  split_ifs with h0
  · obtain rfl := (Exact.beq_zero_iff x).mp h0
    refine ⟨hu, fun a b => ?_, fun a => rfl⟩
    rw [mul_zero, ite_self, add_zero]
  · simp only [filter_le_finRange]
    set e : Elimination ℝ p :=
      { upper := s.upper, rhs := s.rhs, row := Vec.ofFn fun i => if i = j then x else 0, rest := 0 }
    have hleft (a : Fin p) : e.left j a = if a = j then x else 0 := by
      unfold Elimination.left
      simp only [e, Vec.ofFn_apply]
      split_ifs with h1 h2 h2
      · rfl
      · rfl
      · exact absurd (h2 ▸ le_rfl) h1
      · rfl
    obtain ⟨h1, h2, h3⟩ := e.foldl_rotate hu j.isLt.le
    refine ⟨h1, ?_, ?_⟩
    · intro a b
      have h := h2 a b
      unfold Elimination.gram at h
      rw [Elimination.left_self, zero_mul, add_zero, hleft, hleft] at h
      rw [h]
      congr 1
      split_ifs with ha hb hb <;> simp_all
    · intro a
      have h := h3 a
      unfold Elimination.moment at h
      rw [Elimination.left_self, zero_mul, add_zero, mul_zero, add_zero] at h
      exact h

theorem absorbAll_spec (s : System ℝ p) (hu : s.upper.IsUpper) (d : Vec ℝ p) :
    (s.absorbAll d).upper.IsUpper ∧
      (∀ a b, (∑ i, (s.absorbAll d).upper i a * (s.absorbAll d).upper i b) =
        (∑ i, s.upper i a * s.upper i b) + if a = b then d a * d a else 0) ∧
      ∀ a, (∑ i, (s.absorbAll d).upper i a * (s.absorbAll d).rhs i) =
        ∑ i, s.upper i a * s.rhs i := by
  have h (l : List (Fin p)) (s : System ℝ p) (hu : s.upper.IsUpper) :
      let s' := l.foldl (fun s j => s.absorb j (d j)) s
      s'.upper.IsUpper ∧
        (∀ a b, (∑ i, s'.upper i a * s'.upper i b) = (∑ i, s.upper i a * s.upper i b) +
          (l.map fun j => if a = j ∧ b = j then d j * d j else 0).sum) ∧
        ∀ a, (∑ i, s'.upper i a * s'.rhs i) = ∑ i, s.upper i a * s.rhs i := by
    induction l generalizing s with
    | nil => exact ⟨hu, fun a b => (add_zero _).symm, fun a => rfl⟩
    | cons j l ih =>
      obtain ⟨h1, h2, h3⟩ := absorb_spec s hu j (d j)
      obtain ⟨g1, g2, g3⟩ := ih _ h1
      refine ⟨g1, fun a b => ?_, fun a => (g3 a).trans (h3 a)⟩
      rw [List.foldl_cons, g2, h2, List.map_cons, List.sum_cons, add_assoc]
  obtain ⟨h1, h2, h3⟩ := h (List.finRange p) s hu
  refine ⟨h1, fun a b => ?_, h3⟩
  refine (h2 a b).trans (congrArg _ ?_)
  rw [← Fin.sum_univ_def]
  split_ifs with hab
  · subst hab
    simp
  · refine Finset.sum_eq_zero fun j _ => if_neg ?_
    rintro ⟨rfl, rfl⟩
    exact hab rfl

/-! ## The solution -/

section Solve

variable (R : Mat ℝ p p) (b d : Vec ℝ p)

/-- The triangular system that the elimination leaves. -/
noncomputable def eliminated : System ℝ p := System.absorbAll ⟨R, b⟩ d

variable {R}

theorem solve_diagonal (i : Fin p) : (solve R b d).diagonal i = (solve R b d).upper i i :=
  Vec.ofFn_apply _ i

theorem solve_isUpper (hR : R.IsUpper) : (solve R b d).upper.IsUpper :=
  (absorbAll_spec ⟨R, b⟩ hR d).1

/-- **`Sᵀ S = Rᵀ R + D²`**. -/
theorem solve_gram (hR : R.IsUpper) :
    (solve R b d).upper.toMatrixᵀ * (solve R b d).upper.toMatrix =
      R.toMatrixᵀ * R.toMatrix + Matrix.diagonal fun i => d i * d i := by
  ext a c
  have h := (absorbAll_spec ⟨R, b⟩ hR d).2.1 a c
  rw [Matrix.mul_apply, Matrix.add_apply, Matrix.mul_apply, Matrix.diagonal_apply]
  exact h

/-- **`Sᵀ c = Rᵀ b`**. -/
theorem solve_moment (hR : R.IsUpper) :
    (solve R b d).upper.toMatrixᵀ.mulVec (eliminated R b d).rhs = R.toMatrixᵀ.mulVec b := by
  funext a
  exact (absorbAll_spec ⟨R, b⟩ hR d).2.2 a

/-- The first zero of a vector: there is none before it, and one at it. -/
theorem firstZero_spec (v : Vec ℝ p) :
    firstZero v ≤ p ∧ (∀ i : Fin p, i.val < firstZero v → v i ≠ 0) ∧
      ∀ h : firstZero v < p, v ⟨firstZero v, h⟩ = 0 := by
  unfold firstZero
  cases hf : (List.finRange p).find? fun i => v i == 0 with
  | none =>
    have hne (i : Fin p) : v i ≠ 0 := fun h0 =>
      List.find?_eq_none.mp hf i (List.mem_finRange i) ((Exact.beq_zero_iff _).mpr h0)
    exact ⟨le_rfl, fun i _ => hne i, fun h => absurd h (lt_irrefl p)⟩
  | some k =>
    obtain ⟨hk, l, hl, rfl, hbefore⟩ := List.find?_eq_some_iff_getElem.mp hf
    rw [Option.map_some, Option.getD_some, List.getElem_finRange]
    rw [List.getElem_finRange] at hk
    rw [List.length_finRange] at hl
    refine ⟨hl.le, fun i hi h0 => ?_, fun _ => (Exact.beq_zero_iff _).mp hk⟩
    have := hbefore i hi
    rw [List.getElem_finRange] at this
    exact absurd ((Exact.beq_zero_iff _).mpr h0) (by simpa using this)

/-- A row of the triangular system before the first zero on its diagonal holds. -/
theorem solve_row (hR : R.IsUpper) {i : Fin p} (hi : i.val < firstZero (solve R b d).diagonal) :
    (∑ j, (solve R b d).upper i j * (solve R b d).direction j) = (eliminated R b d).rhs i := by
  have hu := solve_isUpper b d hR
  have hne : (solve R b d).diagonal i ≠ 0 := (firstZero_spec _).2.1 i hi
  have hrow := Triangular.solveUpper_row _ (solve R b d).upper (solve R b d).diagonal
    (eliminated R b d).rhs hi hne
  refine Eq.trans ?_ hrow
  change _ = (solve R b d).diagonal i * (solve R b d).direction i +
    ∑ j, if i < j then (solve R b d).upper i j * (solve R b d).direction j else 0
  rw [Elimination.sum_change i (g := fun j => if i < j then
    (solve R b d).upper i j * (solve R b d).direction j else 0)]
  · rw [if_neg (lt_irrefl i), sub_zero, add_comm, solve_diagonal]
  · intro j hj
    split_ifs with h
    · rfl
    · rw [hu i j (lt_of_le_of_ne (not_lt.mp h) hj), zero_mul]

/-- **The normal equations of the damped system** hold before the first zero on the diagonal of
`S`; from there on the solution is zero (`solve_direction_of_le`). -/
theorem solve_normal (hR : R.IsUpper) {a : Fin p}
    (ha : a.val < firstZero (solve R b d).diagonal) :
    (∑ c, (∑ i, R i a * R i c) * (solve R b d).direction c) +
      d a * d a * (solve R b d).direction a = ∑ i, R i a * b i := by
  have hu := solve_isUpper b d hR
  have hx : ((solve R b d).upper.toMatrixᵀ * (solve R b d).upper.toMatrix).mulVec
      (solve R b d).direction a = (R.toMatrixᵀ.mulVec b) a := by
    rw [← solve_moment b d hR, ← Matrix.mulVec_mulVec]
    change (∑ i, (solve R b d).upper i a *
        ∑ j, (solve R b d).upper i j * (solve R b d).direction j) =
      ∑ i, (solve R b d).upper i a * (eliminated R b d).rhs i
    refine Finset.sum_congr rfl fun i _ => ?_
    rcases le_or_gt i a with hi | hi
    · rw [solve_row b d hR (lt_of_le_of_lt hi ha)]
    · rw [hu i a hi, zero_mul, zero_mul]
  rw [solve_gram b d hR, Matrix.add_mulVec, Pi.add_apply, Matrix.mulVec_diagonal] at hx
  exact hx

theorem solve_direction_of_le {a : Fin p} (ha : firstZero (solve R b d).diagonal ≤ a.val) :
    (solve R b d).direction a = 0 := Triangular.solveUpper_of_le _ _ _ _ ha

/-- **Damping makes the system regular**: if `D` has no zero, nor has the diagonal of `S`. -/
theorem firstZero_solve (hR : R.IsUpper) (hd : ∀ i, d i ≠ 0) :
    firstZero (solve R b d).diagonal = p := by
  obtain ⟨hle, -, hzero⟩ := firstZero_spec (solve R b d).diagonal
  refine le_antisymm hle (not_lt.mp fun hlt => ?_)
  have hu := solve_isUpper b d hR
  set S := (solve R b d).upper.toMatrix with hS
  have hdet : S.det = 0 := by
    have hS' : S.IsUpperTriangular := fun i j hij => hu i j hij
    rw [Matrix.det_of_isUpperTriangular hS']
    refine Finset.prod_eq_zero (Finset.mem_univ ⟨_, hlt⟩) ?_
    exact (solve_diagonal b d _).symm.trans (hzero hlt)
  -- a vector that `S` takes to zero is taken to zero by `D` as well
  obtain ⟨x, hx0, hx⟩ := Matrix.exists_mulVec_eq_zero_iff.mpr hdet
  have hquad : (R.toMatrix.mulVec x ⬝ᵥ R.toMatrix.mulVec x) + ∑ i, d i * x i * (d i * x i) = 0 := by
    have h0 : x ⬝ᵥ (Sᵀ * S).mulVec x = 0 := by
      rw [← Matrix.mulVec_mulVec, hx, Matrix.mulVec_zero, dotProduct_zero]
    rw [hS, solve_gram b d hR, Matrix.add_mulVec, dotProduct_add, ← Matrix.mulVec_mulVec,
      Matrix.dotProduct_mulVec, Matrix.vecMul_transpose] at h0
    rw [← h0]
    congr 1
    refine Finset.sum_congr rfl fun i _ => ?_
    rw [Matrix.mulVec_diagonal]
    ring
  have hR0 : 0 ≤ R.toMatrix.mulVec x ⬝ᵥ R.toMatrix.mulVec x :=
    Finset.sum_nonneg fun i _ => mul_self_nonneg _
  have hD0 : 0 ≤ ∑ i, d i * x i * (d i * x i) := Finset.sum_nonneg fun i _ => mul_self_nonneg _
  have hD : ∑ i, d i * x i * (d i * x i) = 0 := by linarith
  refine hx0 (funext fun i => ?_)
  have hi := (Finset.sum_eq_zero_iff_of_nonneg fun i _ => mul_self_nonneg (d i * x i)).mp hD i
    (Finset.mem_univ i)
  exact (mul_eq_zero.mp (mul_self_eq_zero.mp hi)).resolve_left (hd i)

end Solve

end Damped

end LeastSquares
