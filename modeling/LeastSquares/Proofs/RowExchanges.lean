import Mathlib.Analysis.Real.Sqrt
import LeastSquares.Step
import LeastSquares.Proofs.Factorization
import LeastSquares.Proofs.Loops

/-!
# Elimination solves its system

Elimination with row exchanges in exact arithmetic. After the columns before `k`, the entries below
the diagonal of these columns are multipliers, and every row of the matrix is what they make of the
rows above it and of what is left (`Eliminates`). An exchange moves multipliers and rest together; a
column that is cleared hands its part of the rest over to the multipliers. A zero pivot clears
nothing: as the largest entry of its column it leaves only zeros there.

Results:
* `eliminates_factor`: the factorization eliminates all columns;
* `mulVec_solve`: without a zero on the diagonal, it solves every system of its matrix.
-/

namespace LeastSquares

variable {n : Nat}

namespace LowerUpper

variable {A : Mat ℝ n n} {e : LowerUpper ℝ n}

/-! ## The invariant -/

/-- The multipliers of the columns before `k` times the rows above. -/
noncomputable def products (F : Mat ℝ n n) (k : Nat) (i j : Fin n) : ℝ :=
  ∑ l, if l.val < k ∧ l < i ∧ l ≤ j then F i l * F l j else 0

theorem products_succ (F : Mat ℝ n n) (k i j : Fin n) : products F (k + 1) i j =
    products F k i j + if k < i ∧ k ≤ j then F i k * F k j else 0 := by
  have hterm (l : Fin n) : (if l.val < k.val + 1 ∧ l < i ∧ l ≤ j then F i l * F l j else 0) =
      (if l.val < k ∧ l < i ∧ l ≤ j then F i l * F l j else 0) +
        if k = l then (if k < i ∧ k ≤ j then F i k * F k j else 0) else 0 := by
    rcases lt_trichotomy l.val k.val with hlt | heq | hgt
    · have hne : k ≠ l := fun h => absurd (h ▸ hlt) (lt_irrefl _)
      simp only [hlt, hlt.trans (Nat.lt_succ_self _), true_and, if_neg hne, add_zero]
    · obtain rfl := Fin.ext heq
      simp
    · have hne : k ≠ l := fun h => absurd (h ▸ hgt) (lt_irrefl _)
      rw [if_neg (by omega), if_neg (by omega), if_neg hne, add_zero]
  unfold products
  simp only [hterm, Finset.sum_add_distrib, Finset.sum_ite_eq, Finset.mem_univ, if_true]

theorem products_congr {F G : Mat ℝ n n} {k : Nat} {i i' j : Fin n}
    (hside : ∀ l : Fin n, l.val < k → (l < i ↔ l < i'))
    (hrow : ∀ l : Fin n, l.val < k → F i l = G i' l)
    (hcolumn : ∀ l : Fin n, l.val < k → F l j = G l j) :
    products F k i j = products G k i' j := by
  refine Finset.sum_congr rfl fun l _ => ?_
  by_cases hl : l.val < k
  · simp only [hside l hl, hrow l hl, hcolumn l hl]
  · rw [if_neg fun h => hl h.1, if_neg fun h => hl h.1]

/-- **The columns before `k` are eliminated.** -/
structure Eliminates (A : Mat ℝ n n) (k : Nat) (e : LowerUpper ℝ n) : Prop where
  order : Function.Injective e.order
  /-- A row is the multipliers times the rows above it, and the rest, which has nothing below the
  diagonal of an eliminated column. -/
  product : ∀ i j, A (e.order i) j = products e.factors k i j +
    if j < i ∧ j.val < k then 0 else e.factors i j

theorem eliminates_start (A : Mat ℝ n n) : Eliminates A 0 ⟨A, Vec.ofFn id⟩ where
  order i j h := by simpa using h
  product i j := by simp [products]

/-! ## One step -/

theorem swap_factors (e : LowerUpper ℝ n) (k p i j : Fin n) :
    (e.swap k p).factors i j = e.factors (Equiv.swap k p i) j := Mat.ofFn_apply _ i j

theorem swap_order (e : LowerUpper ℝ n) (k p i : Fin n) :
    (e.swap k p).order i = e.order (Equiv.swap k p i) := Vec.ofFn_apply _ i

/-- **An exchange** of rows from `k` on. -/
theorem Eliminates.swap {k p : Fin n} (hkp : k ≤ p) (h : Eliminates A k e) :
    Eliminates A k (e.swap k p) := by
  -- rows before `k` stay, and those from `k` on stand behind all multipliers
  have hside (i l : Fin n) (hl : l < k) : l < i ↔ l < Equiv.swap k p i := by
    rcases lt_or_ge i k with hi | hi
    · rw [Decomposition.swap_apply_of_lt hkp hi]
    · exact iff_of_true (hl.trans_le hi) (hl.trans_le (Decomposition.le_swap_apply hkp hi))
  refine ⟨fun i j hij => ?_, fun i j => ?_⟩
  · rw [swap_order, swap_order] at hij
    exact (Equiv.swap k p).injective (h.order hij)
  · have hproducts : products (e.swap k p).factors k i j =
        products e.factors k (Equiv.swap k p i) j :=
      products_congr (hside i) (fun l _ => swap_factors e k p i l) fun l hl => by
        rw [swap_factors, Decomposition.swap_apply_of_lt hkp hl]
    rw [swap_order, h.product, hproducts, swap_factors]
    congr 1
    by_cases hj : j < k
    · simp only [hside i j hj]
    · rw [if_neg fun h => hj h.2, if_neg fun h => hj h.2]

/-- The entries after a column with a pivot was cleared. -/
theorem clear_factors {k : Fin n} (hk : e.factors k k ≠ 0) (i j : Fin n) :
    (e.clear k).factors i j =
      if k < i then
        if j = k then e.factors i k / e.factors k k
        else if k < j then e.factors i j - e.factors i k / e.factors k k * e.factors k j
        else e.factors i j
      else e.factors i j := by
  unfold LowerUpper.clear
  rw [if_neg fun h => hk ((Exact.beq_zero_iff _).mp h)]
  simp only [Mat.ofFn_apply, Vec.ofFn_apply]
  by_cases hi : k < i
  · simp only [if_pos hi]
  · simp only [if_neg hi]

theorem clear_of_zero {k : Fin n} (hk : e.factors k k = 0) : e.clear k = e :=
  if_pos ((Exact.beq_zero_iff _).mpr hk)

theorem clear_order (e : LowerUpper ℝ n) (k : Fin n) : (e.clear k).order = e.order := by
  unfold LowerUpper.clear
  split_ifs <;> rfl

/-- Rows up to `k` have no multiplier in column `k`. -/
theorem rest_of_le {k i j : Fin n} (hi : ¬ k < i) (x y : ℝ) :
    (if j < i ∧ j.val < k.val then 0 else y) =
      (if k < i ∧ k ≤ j then x else 0) + if j < i ∧ j.val < k.val + 1 then 0 else y := by
  have hlt : j < i ∧ j.val < k.val + 1 ↔ j < i ∧ j.val < k.val := by
    constructor
    · exact fun h => ⟨h.1, lt_of_lt_of_le (Fin.lt_def.mp h.1) (Fin.le_def.mp (not_lt.mp hi))⟩
    · exact fun h => ⟨h.1, h.2.trans (Nat.lt_succ_self _)⟩
  rw [if_neg fun h : k < i ∧ k ≤ j => hi h.1, zero_add]
  simp only [hlt]

/-- A column without a pivot has nothing left from the diagonal down. -/
theorem Eliminates.clear_zero {k : Fin n} (hzero : ∀ i, k ≤ i → e.factors i k = 0)
    (h : Eliminates A k e) : Eliminates A (k + 1) e := by
  refine ⟨h.order, fun i j => ?_⟩
  rw [h.product, products_succ, add_assoc]
  congr 1
  by_cases hi : k < i
  · rw [hzero i hi.le, zero_mul, ite_self, zero_add]
    by_cases hj : j = k
    · subst hj
      rw [if_neg fun h => lt_irrefl _ h.2, if_pos ⟨hi, Nat.lt_succ_self _⟩, hzero i hi.le]
    · have hlt : j.val < k.val + 1 ↔ j.val < k.val := by
        have hne := Fin.val_ne_of_ne hj
        omega
      simp only [hlt]
  · exact rest_of_le hi _ _

/-- A column with a pivot hands its rest over to the multipliers. -/
theorem Eliminates.clear_ne_zero {k : Fin n} (hk : e.factors k k ≠ 0) (h : Eliminates A k e) :
    Eliminates A (k + 1) (e.clear k) := by
  refine ⟨clear_order e k ▸ h.order, fun i j => ?_⟩
  have hproducts : products (e.clear k).factors k i j = products e.factors k i j := by
    refine products_congr (fun _ _ => Iff.rfl) (fun l hl => ?_) fun l hl => ?_
    · have hlk : l < k := hl
      rw [clear_factors hk, if_neg hlk.ne, if_neg hlk.not_gt, ite_self]
    · have hlk : l < k := hl
      rw [clear_factors hk, if_neg hlk.not_gt]
  rw [clear_order, h.product, products_succ, hproducts, add_assoc]
  congr 1
  have hpivot : (e.clear k).factors k j = e.factors k j := by
    rw [clear_factors hk, if_neg (lt_irrefl k)]
  by_cases hi : k < i
  · have hmultiplier : (e.clear k).factors i k = e.factors i k / e.factors k k := by
      rw [clear_factors hk, if_pos hi, if_pos rfl]
    rw [hpivot, hmultiplier]
    rcases lt_trichotomy j k with hj | rfl | hj
    · rw [if_pos ⟨hj.trans hi, hj⟩, if_neg fun h => h.2.not_gt hj,
        if_pos ⟨hj.trans hi, Nat.lt_succ_of_lt hj⟩, add_zero]
    · rw [if_neg fun h => lt_irrefl _ h.2, if_pos ⟨hi, le_rfl⟩, if_pos ⟨hi, Nat.lt_succ_self _⟩,
        add_zero, div_mul_cancel₀ _ hk]
    · have hbehind : ¬ (j < i ∧ j.val < k.val + 1) := fun h =>
        absurd (Nat.le_of_lt_succ h.2) (not_le.mpr hj)
      rw [if_neg fun h => h.2.not_gt hj, if_pos ⟨hi, hj.le⟩, if_neg hbehind, clear_factors hk,
        if_pos hi, if_neg hj.ne', if_pos hj, add_sub_cancel]
  · have hsame : (e.clear k).factors i j = e.factors i j := by rw [clear_factors hk, if_neg hi]
    rw [hsame]
    exact rest_of_le hi _ _

/-- **One step**: the row with the largest entry is brought to the front and its column cleared. -/
theorem Eliminates.step {k : Fin n} (h : Eliminates A k e) :
    Eliminates A (k + 1) ((e.swap k (e.pivotRow k)).clear k) := by
  obtain ⟨hle, hmax⟩ := Decomposition.firstLargest_spec (fun i => |e.factors i k|) k
  have hswap : Eliminates A k (e.swap k (e.pivotRow k)) := h.swap hle
  by_cases hk : (e.swap k (e.pivotRow k)).factors k k = 0
  · rw [clear_of_zero hk]
    refine hswap.clear_zero fun i hi => ?_
    have hle := hmax _ (Decomposition.le_swap_apply hle hi)
    rw [swap_factors, Equiv.swap_apply_left] at hk
    change _ ≤ |e.factors (e.pivotRow k) k| at hle
    rw [hk, abs_zero] at hle
    rw [swap_factors]
    exact abs_eq_zero.mp (le_antisymm hle (abs_nonneg _))
  · exact hswap.clear_ne_zero hk

/-- **The factorization** eliminates all columns. -/
theorem eliminates_factor (A : Mat ℝ n n) : Eliminates A n (factor A) :=
  foldl_finRange (eliminates_start A) fun _ _ h => h.step

/-! ## The solution -/

/-- The diagonal is that of the upper factor. -/
theorem diagonal_apply (e : LowerUpper ℝ n) (i : Fin n) : e.diagonal i = e.factors i i :=
  Vec.ofFn_apply _ i

/-- A row of the upper factor applied to the solution. -/
theorem upper_row (e : LowerUpper ℝ n) (hd : ∀ i, e.diagonal i ≠ 0) (y : Vec ℝ n) (i : Fin n) :
    (∑ j, (if j < i then 0 else e.factors i j) *
      Triangular.solveUpper n e.factors e.diagonal y j) = y i := by
  rw [← Triangular.solveUpper_row n e.factors e.diagonal y i.isLt (hd i),
    Triangular.sum_eq_add (p := (i < ·)) (lt_irrefl i) fun j hne hle => by
      rw [if_pos (lt_of_le_of_ne (not_lt.mp hle) hne), zero_mul], if_neg (lt_irrefl i),
    diagonal_apply]
  congr 1
  refine Finset.sum_congr rfl fun j _ => ?_
  by_cases hj : i < j
  · rw [if_pos hj, if_pos hj, if_neg hj.not_gt]
  · rw [if_neg hj, if_neg hj]

/-- **Without a zero on the diagonal, the factorization solves every system** of its matrix. -/
theorem mulVec_solve (A : Mat ℝ n n) (hd : ∀ i, (factor A).diagonal i ≠ 0) (b : Vec ℝ n) :
    A.mulVec ((factor A).solve b) = b := by
  have h := eliminates_factor A
  set e := factor A
  set y := Triangular.solveTransposed e.factors.transpose (Vec.replicate n 1)
    (Vec.ofFn fun i => b (e.order i)) with hy
  have hx (i : Fin n) : (∑ j, (if j < i then 0 else e.factors i j) * e.solve b j) = y i :=
    upper_row e hd y i
  refine Vec.ext fun c => ?_
  obtain ⟨i, rfl⟩ := Finite.surjective_of_injective h.order c
  have hrow := Triangular.solveTransposed_row (j := i) e.factors.transpose (Vec.replicate n 1)
    (Vec.ofFn fun i => b (e.order i)) (by rw [Vec.replicate_apply]; exact one_ne_zero)
  simp only [← hy, Vec.replicate_apply, one_mul, Vec.ofFn_apply, Mat.transpose_apply] at hrow
  rw [← hrow, Mat.mulVec_apply, Exact.sum_eq]
  calc ∑ j, A (e.order i) j * e.solve b j
      = (∑ j, products e.factors n i j * e.solve b j) +
          ∑ j, (if j < i then 0 else e.factors i j) * e.solve b j := by
        rw [← Finset.sum_add_distrib]
        refine Finset.sum_congr rfl fun j _ => ?_
        rw [h.product, add_mul]
        simp only [j.isLt, and_true]
    _ = (∑ l, if l < i then e.factors i l * y l else 0) + y i := by
        rw [hx i]
        congr 1
        simp only [products, Finset.sum_mul]
        rw [Finset.sum_comm]
        refine Finset.sum_congr rfl fun l _ => ?_
        by_cases hl : l < i
        · rw [if_pos hl, ← hx l, Finset.mul_sum]
          refine Finset.sum_congr rfl fun j _ => ?_
          by_cases hj : j < l
          · rw [if_neg fun h => h.2.2.not_gt hj, if_pos hj, zero_mul, mul_zero]
          · rw [if_pos ⟨l.isLt, hl, not_lt.mp hj⟩, if_neg hj, mul_assoc]
        · rw [if_neg hl]
          exact Finset.sum_eq_zero fun j _ => by rw [if_neg fun h => hl h.2.1, zero_mul]
    _ = y i + ∑ l, if l < i then e.factors i l * y l else 0 := add_comm _ _

/-- The pivot of a single entry is that entry. -/
theorem diagonal_single {α : Type} [Scalar α] (A : Mat α 1 1) (i : Fin 1) :
    (factor A).diagonal i = A 0 0 := by
  have hswap (e : LowerUpper α 1) (k j : Fin 1) : (e.swap k j).factors 0 0 = e.factors 0 0 := by
    rw [swap, Mat.ofFn_apply]
    exact congrArg (e.factors · 0) (Subsingleton.elim _ _)
  have hclear (e : LowerUpper α 1) (k : Fin 1) : (e.clear k).factors 0 0 = e.factors 0 0 := by
    have hlt : ¬ k < 0 := (Fin.zero_le k).not_gt
    unfold clear
    split_ifs
    · rfl
    · rw [Mat.ofFn_apply, if_neg hlt]
  rw [diagonal, Vec.ofFn_apply, Subsingleton.elim i 0]
  exact (hclear _ _).trans (hswap _ _ _)

end LowerUpper

/-- A single parameter has a step by elimination, if its column is of a length that is finite and
not negligible. -/
theorem Method.exists_step_lu {α : Type} [Spectral α] {m : Nat} {J : Mat α m 1} {r : Vec α m}
    (hfinite : isFinite (J.gram 0 0) = true) (hpivot : ¬ Scalar.abs (J.gram 0 0) < negligible)
    (hrhs : isFinite (J.transposeMulVec r 0) = true) : ∃ x, solveBy (some lu) J r = .ok x := by
  have hgram : J.gram.isFinite = true := by
    refine (Mat.isFinite_iff _).mpr fun i j => ?_
    rw [Subsingleton.elim i 0, Subsingleton.elim j 0]
    exact hfinite
  have hvector : (J.transposeMulVec r).isFinite = true := by
    refine (Vec.isFinite_iff _).mpr fun i => ?_
    rw [Subsingleton.elim i 0]
    exact hrhs
  have hnone : ¬ ∃ i, Scalar.abs ((LowerUpper.factor J.gram).diagonal i) < negligible := by
    rintro ⟨i, hi⟩
    rw [LowerUpper.diagonal_single] at hi
    exact hpivot hi
  have hresize : r.resize m = (.ok r : Except (Failure α) _) := dif_pos rfl
  refine ⟨(LowerUpper.factor J.gram).solve (J.transposeMulVec r), ?_⟩
  change (r.resize m >>= solveLu J) = _
  rw [hresize]
  change solveLu J r = _
  unfold solveLu requireFinite
  simp only [hgram, hvector, hnone, if_true, if_false, Bool.true_eq_false]
  rfl

end LeastSquares
