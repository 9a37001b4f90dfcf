import LeastSquares.Proofs.NormalEquations

/-!
# The order of the pivots

With column exchanges, each step of the orthogonal factorization brings the longest column to the
front, measured from its row down. Later reflections change no length below the rows before them, so
a pivot stays at least as long as every column behind it (`Dominates A k`, after the columns before
`k`). In the finished factor the diagonal therefore does not increase in magnitude, and from a zero
on it is zero: the numeric rank ends before the first column without length.

Results:
* `Triangulates.tailSquare_reflect`: a reflection keeps the lengths from every row up to its own;
* `dominates_factor`: every pivot dominates the columns behind it;
* `Dominates.abs_diagonal_le`: the diagonal does not increase in magnitude;
* `Dominates.column_sq_le`: the first pivot is at least as long as every column;
* `lt_numericRank_iff`: the numeric rank is the size of the leading block of entries that count;
* `Dominates.numericRank_le`: a column of zeros stands behind the numeric rank.
-/

namespace LeastSquares.Orthogonal

open Matrix

variable {m n : Nat} {A : Mat ℝ m n} {f : Orthogonal ℝ m n} {k l : Nat}

/-! ## Lengths from a row down -/

/-- The square of the length of a column from row `l` down. -/
noncomputable def tailSquare (f : Orthogonal ℝ m n) (l : Nat) (j : Fin n) : ℝ :=
  ∑ i : Fin m, if l ≤ i.val then f.r i j * f.r i j else 0

theorem normOver_tail (f : Orthogonal ℝ m n) (row : Fin m) (j : Fin n) :
    normOver (row ≤ ·) (fun i => f.r i j) = √(f.tailSquare row j) := normOver_eq _ _

/-- No entry of a column is longer than the column. -/
theorem sq_le_tailSquare (f : Orthogonal ℝ m n) {i : Fin m} (hi : l ≤ i.val) (j : Fin n) :
    f.r i j ^ 2 ≤ f.tailSquare l j := by
  rw [sq]
  exact mul_self_le_sum_tail (fun i => f.r i j) hi

/-- **A reflection keeps lengths** from every row up to its own. -/
theorem Triangulates.tailSquare_reflect {row : Fin m} {c : Fin n} (hrow : row.val = c.val)
    (h : Triangulates A c f) (hl : l ≤ row.val) (j : Fin n) :
    (f.reflect row c).tailSquare l j = f.tailSquare l j := by
  set H := (f.reflection row c).toMatrix
  set y : Fin m → ℝ := fun i => f.r i j
  have hentry (i : Fin m) : (f.reflect row c).r i j = (H *ᵥ y) i :=
    congrFun (congrFun (h.reflect_r hrow) i) j
  have habove (i : Fin m) (hi : i.val < l) : (H *ᵥ y) i = y i := by
    have hvector : (f.reflection row c).vector i = 0 :=
      Reflection.ofTail_vector_of_lt _ (Fin.lt_def.mpr (hi.trans_le hl))
    refine (householder_mulVec_apply _ _ y i).trans ?_
    rw [hvector, mul_zero, sub_zero]
  have hH : Hᵀ * H = 1 :=
    (congrArg (· * H) (householder_transpose _ _)).trans (Reflection.ofTail_mul_self _ _)
  unfold tailSquare
  simp only [hentry]
  exact sum_tail_mulVec_sq hH habove

theorem tailSquare_swap (f : Orthogonal ℝ m n) (a b : Fin n) (l : Nat) (j : Fin n) :
    (f.swap a b).tailSquare l j = f.tailSquare l (Equiv.swap a b j) := by
  unfold tailSquare
  simp only [swap_r]

/-! ## Pivots -/

/-- **Every pivot before `k` is at least as long as the columns behind it**, from its row down. -/
structure Dominates (A : Mat ℝ m n) (k : Nat) (f : Orthogonal ℝ m n) : Prop
    extends Triangulates A k f where
  pivot_le : ∀ (row : Fin m) (c j : Fin n), row.val = c.val → c.val < k → c ≤ j →
    f.tailSquare row j ≤ f.r row c ^ 2

theorem dominates_start (A : Mat ℝ m n) : Dominates A 0 (start A) :=
  ⟨triangulates_start A, fun _ _ _ _ h => absurd h (Nat.not_lt_zero _)⟩

/-- An exchange of two columns from `b` on leaves the columns from `b` on there. -/
theorem le_swap_apply {b c p j : Fin n} (hbc : b ≤ c) (hcp : c ≤ p) (hj : b ≤ j) :
    b ≤ Equiv.swap c p j := by
  rcases eq_or_ne j c with rfl | hc
  · rw [Equiv.swap_apply_left]
    exact hbc.trans hcp
  · rcases eq_or_ne j p with rfl | hp
    · rwa [Equiv.swap_apply_right]
    · rwa [Equiv.swap_apply_of_ne_of_ne hc hp]

/-- An exchange of columns behind the pivots. -/
theorem Dominates.swap {c p : Fin n} (hcp : c ≤ p) (h : Dominates A c f) :
    Dominates A c (f.swap c p) where
  toTriangulates := h.toTriangulates.swap hcp
  pivot_le row b j hrow hb hj := by
    rw [tailSquare_swap, swap_r, Decomposition.swap_apply_of_lt hcp hb]
    exact h.pivot_le row b _ hrow hb (le_swap_apply (Fin.lt_def.mpr hb).le hcp hj)

/-- The entry that a column is reflected onto is as long as the column. -/
theorem Triangulates.reflect_pivot_sq {row : Fin m} {c : Fin n} (hrow : row.val = c.val)
    (h : Triangulates A c f) : (f.reflect row c).r row c ^ 2 = f.tailSquare row c := by
  have hbelow := (h.reflect hrow).upper
  rw [← h.tailSquare_reflect hrow le_rfl c, tailSquare, Finset.sum_eq_single row]
  · rw [if_pos le_rfl, sq]
  · intro i _ hi
    split_ifs with hle
    · rw [hbelow i c (Nat.lt_succ_self _) (hrow ▸ lt_of_le_of_ne hle (Fin.val_ne_of_ne hi.symm)),
        zero_mul]
    · rfl
  · exact fun hmem => absurd (Finset.mem_univ row) hmem

/-- **A reflection of the longest column** behind the pivots makes it another pivot. -/
theorem Dominates.reflect {row : Fin m} {c : Fin n} (hrow : row.val = c.val)
    (h : Dominates A c f) (hlongest : ∀ j, c ≤ j → f.tailSquare row j ≤ f.tailSquare row c) :
    Dominates A (c + 1) (f.reflect row c) where
  toTriangulates := h.toTriangulates.reflect hrow
  pivot_le row' b j hrow' hb hj := by
    rcases Nat.lt_succ_iff_lt_or_eq.mp hb with hlt | heq
    · have hkept : (f.reflect row c).r row' b = f.r row' b := by
        unfold Orthogonal.reflect
        rw [Mat.ofFn_apply, if_pos (.inl (Fin.lt_def.mpr hlt))]
      rw [h.toTriangulates.tailSquare_reflect hrow (by omega), hkept]
      exact h.pivot_le row' b j hrow' hlt hj
    · obtain rfl := Fin.ext heq
      obtain rfl := Fin.ext (hrow'.trans hrow.symm)
      rw [h.toTriangulates.tailSquare_reflect hrow le_rfl, h.toTriangulates.reflect_pivot_sq hrow]
      exact hlongest j hj

/-- The column that comes to the front is the longest one. -/
theorem pivotColumn_spec (f : Orthogonal ℝ m n) (row : Fin m) (c : Fin n) :
    c ≤ f.pivotColumn row c ∧
      ∀ j, c ≤ j → f.tailSquare row j ≤ f.tailSquare row (f.pivotColumn row c) := by
  obtain ⟨hle, hmax⟩ := Decomposition.firstLargest_spec
    (Vec.ofFn fun j => normOver (row ≤ ·) fun i => f.r i j) c
  refine ⟨hle, fun j hj => ?_⟩
  have hnorm := hmax j hj
  rw [Vec.ofFn_apply, Vec.ofFn_apply, normOver_tail, normOver_tail] at hnorm
  refine (Real.sqrt_le_sqrt_iff (Finset.sum_nonneg fun i _ => ?_)).mp hnorm
  split_ifs
  exacts [mul_self_nonneg _, le_rfl]

/-- **One step.** A column behind the last row is left alone. -/
theorem Dominates.step {c : Fin n} (h : Dominates A c f) :
    Dominates A (c + 1) (if hc : c.val < m then
      (f.swap c (f.pivotColumn ⟨c, hc⟩ c)).reflect ⟨c, hc⟩ c else f) := by
  split_ifs with hc
  · obtain ⟨hle, hmax⟩ := f.pivotColumn_spec ⟨c, hc⟩ c
    refine (h.swap hle).reflect rfl fun j hj => ?_
    rw [tailSquare_swap, tailSquare_swap, Equiv.swap_apply_left]
    exact hmax _ (le_swap_apply le_rfl hle hj)
  · exact ⟨⟨h.order, h.orthogonal, h.product, fun i j _ hi => h.upper i j (by omega) hi⟩,
      fun row b j hrow hb hj => h.pivot_le row b j hrow (by omega) hj⟩

/-- **The factorization with column exchanges**: every pivot dominates the columns behind it. -/
theorem dominates_factor (A : Mat ℝ m n) : Dominates A n (factor true A) :=
  foldl_finRange (dominates_start A) fun _ _ h => h.step

/-! ## The diagonal -/

/-- **The diagonal does not increase** in magnitude. -/
theorem Dominates.abs_diagonal_le (h : Dominates A n f) {a b : Fin n} (hab : a ≤ b) :
    |f.diagonal b| ≤ |f.diagonal a| := by
  unfold diagonal
  rw [Vec.ofFn_apply, Vec.ofFn_apply]
  by_cases hb : b.val < m
  · have ha : a.val < m := lt_of_le_of_lt (Fin.le_def.mp hab) hb
    rw [dif_pos hb, dif_pos ha]
    refine sq_le_sq.mp ?_
    calc f.r ⟨b, hb⟩ b ^ 2
        ≤ f.tailSquare a.val b := sq_le_tailSquare (l := a.val) f (Fin.le_def.mp hab) b
      _ ≤ f.r ⟨a, ha⟩ a ^ 2 := h.pivot_le ⟨a, ha⟩ a b rfl a.isLt hab
  · rw [dif_neg hb, abs_zero]
    exact abs_nonneg _

/-- The factors keep the lengths of the columns. -/
theorem Triangulates.sum_sq (h : Triangulates A k f) (j : Fin n) :
    ∑ i, f.r i j * f.r i j = ∑ i, A i (f.order j) * A i (f.order j) := by
  have hgram : f.r.toMatrixᵀ * f.r.toMatrix =
      (A.toMatrix.submatrix id f.order)ᵀ * A.toMatrix.submatrix id f.order := by
    rw [← h.product, transpose_mul, Matrix.mul_assoc, ← Matrix.mul_assoc f.q.toMatrixᵀ,
      h.orthogonal, Matrix.one_mul]
  exact congrFun (congrFun hgram j) j

/-- **The first pivot** is at least as long as every column. -/
theorem Dominates.column_sq_le (h : Dominates A n f) {row : Fin m} {c : Fin n}
    (hrow : row.val = 0) (hc : c.val = 0) (j : Fin n) : ∑ i, A i j * A i j ≤ f.diagonal c ^ 2 := by
  obtain ⟨b, rfl⟩ := Finite.surjective_of_injective h.order j
  have hdiagonal : f.diagonal c = f.r row c := by
    unfold diagonal
    rw [Vec.ofFn_apply, dif_pos (hc.trans hrow.symm ▸ row.isLt)]
    exact congrArg (f.r · c) (Fin.ext (hc.trans hrow.symm))
  have htail : f.tailSquare row b = ∑ i, A i (f.order b) * A i (f.order b) := by
    rw [← h.toTriangulates.sum_sq b]
    exact Finset.sum_congr rfl fun i _ => if_pos (hrow.trans_le (Nat.zero_le _))
  rw [hdiagonal, ← htail]
  exact h.pivot_le row c b (hrow.trans hc.symm) c.isLt (Fin.le_def.mpr (hc.trans_le (Nat.zero_le _)))

/-- A column of zeros stays one. -/
theorem Triangulates.r_of_null (h : Triangulates A k f) {j : Fin n}
    (hj : ∀ i, A i (f.order j) = 0) (i : Fin m) : f.r i j = 0 := by
  have hr : f.r.toMatrix = f.q.toMatrixᵀ * A.toMatrix.submatrix id f.order := by
    rw [← h.product, ← Matrix.mul_assoc, h.orthogonal, Matrix.one_mul]
  refine (congrFun (congrFun hr i) j).trans ?_
  rw [Matrix.mul_apply]
  refine Finset.sum_eq_zero fun l _ => ?_
  exact mul_eq_zero_of_right _ (hj l)

/-- The numeric rank as the size of a set. -/
theorem numericRank_eq_card (d : Vec ℝ n) : Method.numericRank d =
    (Finset.univ.filter fun k => Method.negligible < Scalar.abs (d k)).card := rfl

/-- **The entries that count come first** in a diagonal that does not increase: the numeric rank is
the size of a leading block. -/
theorem lt_numericRank_iff {d : Vec ℝ n} (hd : ∀ a b : Fin n, a ≤ b → |d b| ≤ |d a|) (k : Fin n) :
    k.val < Method.numericRank d ↔ Method.negligible < |d k| := by
  rw [numericRank_eq_card]
  constructor
  · intro hlt
    by_contra hk
    have hbefore : (Finset.univ.filter fun k => Method.negligible < Scalar.abs (d k)) ⊆
        Finset.Iio k := by
      intro j hj
      refine Finset.mem_Iio.mpr (lt_of_not_ge fun hle => hk ?_)
      exact lt_of_lt_of_le (Finset.mem_filter.mp hj).2 (hd k j hle)
    have hcard := Finset.card_le_card hbefore
    rw [Fin.card_Iio] at hcard
    omega
  · intro hk
    have hblock : Finset.Iic k ⊆
        Finset.univ.filter fun k => Method.negligible < Scalar.abs (d k) := by
      intro j hj
      refine Finset.mem_filter.mpr ⟨Finset.mem_univ j, ?_⟩
      exact lt_of_lt_of_le hk (hd j k (Finset.mem_Iic.mp hj))
    have hcard := Finset.card_le_card hblock
    rw [Fin.card_Iic] at hcard
    omega

/-- **A column of zeros stands behind the numeric rank.** -/
theorem Dominates.numericRank_le (h : Dominates A n f) {j : Fin n}
    (hj : ∀ i, A i (f.order j) = 0) : Method.numericRank f.diagonal ≤ j.val := by
  have hzero : f.diagonal j = 0 := by
    unfold diagonal
    rw [Vec.ofFn_apply]
    split_ifs
    · exact h.r_of_null hj _
    · rfl
  refine not_lt.mp fun hlt => ?_
  have hcounts := (lt_numericRank_iff (fun a b hab => h.abs_diagonal_le hab) j).mp hlt
  rw [hzero, abs_zero] at hcounts
  exact hcounts.not_gt Method.negligible_pos

end LeastSquares.Orthogonal
