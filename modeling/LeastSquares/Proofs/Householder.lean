import Mathlib.Analysis.Real.Sqrt
import LeastSquares.Linear.Orthogonal
import LeastSquares.Proofs.Elimination
import LeastSquares.Proofs.Factorization
import LeastSquares.Proofs.RowExchanges

/-!
# The orthogonal factorization

The factorization `A P = Q R` in exact arithmetic. Neither dividing by the largest entry nor
enlarging a short column changes anything there: norms are the norms of mathematics, and every
reflection takes its column to a multiple of one axis. What stands in the factors after the columns
before `k` is `Triangulates A k`.

Results:
* `normOver_eq`, `hypotenuse_eq`: the lengths;
* `Reflection.ofTail_mul_self`, `Reflection.ofTail_mulVec`: the reflection of a column is its own
  inverse, and clears the column below its row;
* `Orthogonal.triangulates_factor`: the factorization, with or without column exchanges, of a matrix
  of any shape.
-/

namespace LeastSquares

open Matrix

variable {m n : Nat}

/-! ## Lengths -/

theorem abs_le_largestOver (p : Fin m → Prop) [DecidablePred p] (f : Fin m → ℝ) {i : Fin m}
    (hi : p i) : |f i| ≤ largestOver p f := by
  unfold largestOver
  simp only [Exact.larger_eq]
  exact (Exact.le_foldl_max p (fun i => |f i|) 0).2 i hi

theorem largestOver_nonneg (p : Fin m → Prop) [DecidablePred p] (f : Fin m → ℝ) :
    0 ≤ largestOver p f := by
  unfold largestOver
  simp only [Exact.larger_eq]
  exact (Exact.le_foldl_max p (fun i => |f i|) 0).1

theorem normOver_eq (p : Fin m → Prop) [DecidablePred p] (f : Fin m → ℝ) :
    normOver p f = √(∑ i, if p i then f i * f i else 0) := by
  unfold normOver
  simp only [Exact.beq_zero_iff, Exact.sumOver_eq]
  set scale := largestOver p f
  have hnonneg : 0 ≤ scale := largestOver_nonneg p f
  split_ifs with h0
  · have hzero (i : Fin m) : (if p i then f i * f i else 0) = 0 := by
      split_ifs with hi
      · have hle : |f i| ≤ 0 := h0 ▸ abs_le_largestOver p f hi
        rw [abs_eq_zero.mp (le_antisymm hle (abs_nonneg _)), zero_mul]
      · rfl
    rw [Finset.sum_congr rfl fun i _ => hzero i, Finset.sum_const_zero, Real.sqrt_zero]
  · have hterm (i : Fin m) : (if p i then f i * f i else 0) =
        scale ^ 2 * if p i then f i / scale * (f i / scale) else 0 := by
      split_ifs
      · field_simp
      · rw [mul_zero]
    rw [Finset.sum_congr rfl fun i _ => hterm i, ← Finset.mul_sum,
      Real.sqrt_mul (sq_nonneg scale), Real.sqrt_sq hnonneg]
    rfl

theorem hypotenuse_eq (a b : ℝ) : hypotenuse a b = √(a ^ 2 + b ^ 2) := by
  unfold hypotenuse
  simp only [Exact.larger_eq, Exact.smaller_eq, Exact.beq_zero_iff]
  change (if min |a| |b| = 0 then max |a| |b| else
    max |a| |b| * √(1 + min |a| |b| / max |a| |b| * (min |a| |b| / max |a| |b|))) = _
  have hsum : a ^ 2 + b ^ 2 = max |a| |b| ^ 2 + min |a| |b| ^ 2 := by
    rw [← sq_abs a, ← sq_abs b]
    rcases le_total |a| |b| with h | h
    · rw [max_eq_right h, min_eq_left h, add_comm]
    · rw [max_eq_left h, min_eq_right h]
  have hlong : 0 ≤ max |a| |b| := le_max_of_le_left (abs_nonneg a)
  rw [hsum]
  split_ifs with h0
  · rw [h0, zero_pow two_ne_zero, add_zero, Real.sqrt_sq hlong]
  · have hpos : 0 < max |a| |b| :=
      lt_of_lt_of_le (lt_of_le_of_ne (le_min (abs_nonneg a) (abs_nonneg b)) (Ne.symm h0))
        min_le_max
    have hsquare : max |a| |b| ^ 2 + min |a| |b| ^ 2 = max |a| |b| ^ 2 *
        (1 + min |a| |b| / max |a| |b| * (min |a| |b| / max |a| |b|)) := by
      field_simp
    rw [hsquare, Real.sqrt_mul (sq_nonneg _), Real.sqrt_sq hlong]

/-! ## One reflection -/

namespace Reflection

theorem tiny_pos : (0 : ℝ) < tiny := by
  unfold tiny
  generalize 969 = k
  exact Exact.one_div_two_pow_pos k

/-- A reflection as a matrix. -/
noncomputable def toMatrix (h : Reflection ℝ m) : Matrix (Fin m) (Fin m) ℝ :=
  householder h.factor h.vector

theorem apply_eq (h : Reflection ℝ m) (y : Vec ℝ m) (i : Fin m) :
    h.apply y i = (h.toMatrix *ᵥ y.get) i := by
  unfold toMatrix apply
  rw [householder_mulVec_apply, Vec.ofFn_apply, Exact.dot_eq]

/-- The square of the length of a vector below its `k`-th entry. -/
noncomputable def tailSquare (x : Vec ℝ m) (k : Fin m) : ℝ := ∑ i, if k < i then x i * x i else 0

theorem tailSquare_nonneg (x : Vec ℝ m) (k : Fin m) : 0 ≤ tailSquare x k :=
  Finset.sum_nonneg fun i _ => by split_ifs; exacts [mul_self_nonneg _, le_rfl]

theorem eq_zero_of_tailSquare {x : Vec ℝ m} {k : Fin m} (h : tailSquare x k = 0) {i : Fin m}
    (hi : k < i) : x i = 0 := by
  have hterm := (Finset.sum_eq_zero_iff_of_nonneg fun i _ => by
    split_ifs; exacts [mul_self_nonneg _, le_rfl]).mp h i (Finset.mem_univ i)
  rw [if_pos hi] at hterm
  exact mul_self_eq_zero.mp hterm

/-- **What a reflection is formed from**: the entries from `k` down times `scale`, their length,
with the sign that the first of them has not, and the vector, whose first entry is one. -/
structure Forms (x : Vec ℝ m) (k : Fin m) (scale length : ℝ) (h : Reflection ℝ m) : Prop where
  scale_pos : 0 < scale
  length_ne : length ≠ 0
  square : length ^ 2 = scale ^ 2 * (x k ^ 2 + tailSquare x k)
  denominator_ne : x k * scale - length ≠ 0
  vector : ∀ i, h.vector i =
    if i < k then 0 else if i = k then 1 else x i * scale * (1 / (x k * scale - length))
  factor : h.factor = (length - x k * scale) / length
  image : h.image = length / scale

/-- The length of the entries from `k` down, times a scale. -/
theorem hypotenuse_scaled (x : Vec ℝ m) (k : Fin m) (scale : ℝ) :
    hypotenuse (x k * scale) (normOver (k < ·) fun i => x i * scale) =
      √(scale ^ 2 * (x k ^ 2 + tailSquare x k)) := by
  have hnorm : normOver (k < ·) (fun i => x i * scale) = √(scale ^ 2 * tailSquare x k) := by
    rw [normOver_eq, tailSquare, Finset.mul_sum]
    congr 1
    refine Finset.sum_congr rfl fun i _ => ?_
    split_ifs
    · ring
    · rw [mul_zero]
  rw [hypotenuse_eq, hnorm, Real.sq_sqrt (mul_nonneg (sq_nonneg _) (tailSquare_nonneg x k))]
  congr 1
  ring

/-- A length with the sign that `y` has not is not cancelled by it. -/
theorem sub_signed_ne_zero {y size : ℝ} (h : 0 < size) :
    y - (if y < 0 then size else -size) ≠ 0 := by
  split_ifs with hneg
  · exact (sub_neg_of_lt (hneg.trans h)).ne
  · rw [sub_neg_eq_add]
    exact (add_pos_of_nonneg_of_pos (not_lt.mp hneg) h).ne'

theorem forms_ofTail {x : Vec ℝ m} {k : Fin m} (h : tailSquare x k ≠ 0) :
    ∃ scale length, Forms x k scale length (ofTail x k) := by
  have htail : 0 < tailSquare x k := lt_of_le_of_ne (tailSquare_nonneg x k) (Ne.symm h)
  have hne : √(tailSquare x k) ≠ 0 := (Real.sqrt_pos.mpr htail).ne'
  set scale : ℝ := if hypotenuse (x k) √(tailSquare x k) < tiny then 1 / tiny else 1 with hscale
  have hpos : 0 < scale := by
    rw [hscale]
    split_ifs
    · exact one_div_pos.mpr tiny_pos
    · exact one_pos
  have hsum : 0 < scale ^ 2 * (x k ^ 2 + tailSquare x k) :=
    mul_pos (pow_pos hpos 2) (add_pos_of_nonneg_of_pos (sq_nonneg _) htail)
  have hlength := hypotenuse_scaled x k scale
  set size := √(scale ^ 2 * (x k ^ 2 + tailSquare x k))
  have hsize : 0 < size := Real.sqrt_pos.mpr hsum
  set length := if x k * scale < 0 then size else -size with hsign
  have hform : ofTail x k =
      { vector := Vec.ofFn fun i =>
          if i < k then 0 else if i = k then 1 else x i * scale * (1 / (x k * scale - length))
        factor := (length - x k * scale) / length
        image := length / scale } := by
    have htest : normOver (k < ·) x = √(tailSquare x k) := normOver_eq _ _
    unfold ofTail
    simp only [htest, Exact.beq_zero_iff, if_neg hne, ← hscale, hlength, ← hsign]
  have hlength_sq : length ^ 2 = size ^ 2 := by
    rw [hsign]
    split_ifs
    · rfl
    · exact neg_sq size
  refine ⟨scale, length, hpos, ?_, ?_, sub_signed_ne_zero hsize, fun i => ?_, ?_, ?_⟩
  · refine pow_ne_zero_iff two_ne_zero |>.mp ?_
    rw [hlength_sq]
    exact (pow_pos hsize 2).ne'
  · rw [hlength_sq]
    exact Real.sq_sqrt hsum.le
  · rw [hform, Vec.ofFn_apply]
  · rw [hform]
  · rw [hform]

theorem ofTail_of_zero {x : Vec ℝ m} {k : Fin m} (h : tailSquare x k = 0) :
    ofTail x k = ⟨Vec.replicate m 0, 0, x k⟩ := by
  have htest : normOver (k < ·) x = √(tailSquare x k) := normOver_eq _ _
  unfold ofTail
  rw [htest, h, Real.sqrt_zero]
  exact if_pos ((Exact.beq_zero_iff 0).mpr rfl)

variable {x : Vec ℝ m} {k : Fin m} {scale length : ℝ} {h : Reflection ℝ m}

/-- The product of its vector with another one. -/
theorem Forms.sum_vector (hf : Forms x k scale length h) (f : Fin m → ℝ) :
    (∑ i, h.vector i * f i) =
      f k + scale / (x k * scale - length) * ∑ i, if k < i then x i * f i else 0 := by
  have hterm (i : Fin m) : h.vector i * f i = (if i = k then f k else 0) +
      scale / (x k * scale - length) * if k < i then x i * f i else 0 := by
    rw [hf.vector]
    rcases lt_trichotomy i k with hi | rfl | hi
    · rw [if_pos hi, if_neg hi.ne, if_neg hi.not_gt, zero_mul, mul_zero, add_zero]
    · simp
    · rw [if_neg hi.not_gt, if_neg hi.ne', if_neg hi.ne', if_pos hi]
      ring
  rw [Finset.sum_congr rfl fun i _ => hterm i, Finset.sum_add_distrib, Finset.sum_ite_eq',
    if_pos (Finset.mem_univ k), ← Finset.mul_sum]

theorem Forms.sum_vector_column (hf : Forms x k scale length h) :
    (∑ i, h.vector i * x i) = -(length / scale) := by
  rw [hf.sum_vector]
  change x k + scale / (x k * scale - length) * tailSquare x k = _
  have hs := hf.scale_pos.ne'
  have hd := hf.denominator_ne
  have hsq := hf.square
  field_simp
  linear_combination -hsq

theorem Forms.sum_vector_sq (hf : Forms x k scale length h) :
    h.factor * (∑ i, h.vector i * h.vector i) = 2 := by
  have hterm (i : Fin m) : (if k < i then x i * h.vector i else 0) =
      scale / (x k * scale - length) * if k < i then x i * x i else 0 := by
    split_ifs with hi
    · rw [hf.vector, if_neg hi.not_gt, if_neg hi.ne']
      ring
    · rw [mul_zero]
  rw [hf.sum_vector, hf.vector k, if_neg (lt_irrefl k), if_pos rfl,
    Finset.sum_congr rfl fun i _ => hterm i, ← Finset.mul_sum, hf.factor]
  change _ * (1 + scale / (x k * scale - length) *
    (scale / (x k * scale - length) * tailSquare x k)) = _
  have hl := hf.length_ne
  have hd := hf.denominator_ne
  have hsq := hf.square
  field_simp
  linear_combination -(length - x k * scale) * hsq

/-- **A reflection is its own inverse.** -/
theorem ofTail_mul_self (x : Vec ℝ m) (k : Fin m) :
    (ofTail x k).toMatrix * (ofTail x k).toMatrix = 1 := by
  by_cases h0 : tailSquare x k = 0
  · rw [ofTail_of_zero h0, toMatrix, householder, zero_smul, sub_zero, Matrix.one_mul]
  · obtain ⟨scale, length, hf⟩ := forms_ofTail h0
    exact householder_mul_self hf.sum_vector_sq

/-- Its vector is zero before the row. -/
theorem ofTail_vector_of_lt (x : Vec ℝ m) {i k : Fin m} (hi : i < k) :
    (ofTail x k).vector i = 0 := by
  by_cases h0 : tailSquare x k = 0
  · rw [ofTail_of_zero h0]
    exact Vec.replicate_apply 0 i
  · obtain ⟨scale, length, hf⟩ := forms_ofTail h0
    rw [hf.vector, if_pos hi]

/-- **A reflection clears its column** below the row. -/
theorem ofTail_mulVec (x : Vec ℝ m) (k i : Fin m) :
    ((ofTail x k).toMatrix *ᵥ x.get) i =
      if i < k then x i else if i = k then (ofTail x k).image else 0 := by
  unfold toMatrix
  rw [householder_mulVec_apply]
  by_cases h0 : tailSquare x k = 0
  · rw [ofTail_of_zero h0, zero_mul, zero_mul, sub_zero]
    rcases lt_trichotomy i k with hi | rfl | hi
    · rw [if_pos hi]
    · rw [if_neg (lt_irrefl i), if_pos rfl]
    · rw [if_neg hi.not_gt, if_neg hi.ne', eq_zero_of_tailSquare h0 hi]
  · obtain ⟨scale, length, hf⟩ := forms_ofTail h0
    have hs := hf.scale_pos.ne'
    have hl := hf.length_ne
    have hd := hf.denominator_ne
    rw [hf.sum_vector_column, hf.factor, hf.vector, hf.image]
    rcases lt_trichotomy i k with hi | rfl | hi
    · rw [if_pos hi, if_pos hi, mul_zero, sub_zero]
    · rw [if_neg (lt_irrefl i), if_neg (lt_irrefl i), if_pos rfl, if_pos rfl]
      field_simp
      ring
    · rw [if_neg hi.not_gt, if_neg hi.not_gt, if_neg hi.ne', if_neg hi.ne']
      field_simp
      ring

end Reflection

/-! ## The invariant -/

namespace Orthogonal

variable {A : Mat ℝ m n} {f : Orthogonal ℝ m n} {k : Nat}

/-- **The columns before `k` are triangular**, and the factors multiply out to the matrix. -/
structure Triangulates (A : Mat ℝ m n) (k : Nat) (f : Orthogonal ℝ m n) : Prop where
  order : Function.Injective f.order
  orthogonal : f.q.toMatrixᵀ * f.q.toMatrix = 1
  product : f.q.toMatrix * f.r.toMatrix = A.toMatrix.submatrix id f.order
  upper : ∀ (i : Fin m) (j : Fin n), j.val < k → j.val < i.val → f.r i j = 0

theorem triangulates_start (A : Mat ℝ m n) : Triangulates A 0 (start A) := by
  have hq : (start A).q.toMatrix = 1 := by
    ext i j
    exact Mat.ofFn_apply _ i j
  refine ⟨fun i j h => by simpa [start] using h, ?_, ?_, fun _ _ h => absurd h (Nat.not_lt_zero _)⟩
  · rw [hq, transpose_one, Matrix.one_mul]
  · rw [hq, Matrix.one_mul]
    ext i j
    simp [start, Mat.toMatrix]

/-! ## One step -/

theorem swap_r (f : Orthogonal ℝ m n) (k j : Fin n) (i : Fin m) (c : Fin n) :
    (f.swap k j).r i c = f.r i (Equiv.swap k j c) := Mat.ofFn_apply _ i c

theorem swap_order (f : Orthogonal ℝ m n) (k j c : Fin n) :
    (f.swap k j).order c = f.order (Equiv.swap k j c) := Vec.ofFn_apply _ c

/-- **An exchange** of columns from `k` on. -/
theorem Triangulates.swap {k p : Fin n} (hkp : k ≤ p) (h : Triangulates A k f) :
    Triangulates A k (f.swap k p) := by
  refine ⟨fun i j hij => ?_, h.orthogonal, ?_, fun i j hj hi => ?_⟩
  · rw [swap_order, swap_order] at hij
    exact (Equiv.swap k p).injective (h.order hij)
  · ext i j
    have hproduct := congrFun (congrFun h.product i) (Equiv.swap k p j)
    rw [submatrix_apply] at hproduct ⊢
    rw [swap_order, ← hproduct, Matrix.mul_apply, Matrix.mul_apply]
    exact Finset.sum_congr rfl fun l _ => congrArg (f.q i l * ·) (swap_r f k p l j)
  · rw [swap_r, Decomposition.swap_apply_of_lt hkp hj]
    exact h.upper i j hj hi

/-- The column that a step reflects. -/
noncomputable def reflection (f : Orthogonal ℝ m n) (row : Fin m) (k : Fin n) : Reflection ℝ m :=
  Reflection.ofTail (Vec.ofFn fun i => f.r i k) row

theorem reflect_q (f : Orthogonal ℝ m n) (row : Fin m) (k : Fin n) :
    (f.reflect row k).q.toMatrix = f.q.toMatrix * (f.reflection row k).toMatrix := by
  ext i j
  have hrow : (f.reflect row k).q i j = (f.reflection row k).apply (f.q.rows i) j :=
    congrArg (fun v : Vec ℝ m => v j) (Vec.ofFn_apply _ i)
  refine hrow.trans ?_
  rw [Reflection.apply_eq, ← vecMul_transpose, Reflection.toMatrix, householder_transpose]
  rfl

/-- A step multiplies the whole of `R` by its reflection: above its row and in the columns before it
there is nothing to reflect. -/
theorem Triangulates.reflect_r {row : Fin m} {k : Fin n} (hrow : row.val = k.val)
    (h : Triangulates A k f) :
    (f.reflect row k).r.toMatrix = (f.reflection row k).toMatrix * f.r.toMatrix := by
  ext i j
  have hmul : ((f.reflection row k).toMatrix * f.r.toMatrix) i j =
      f.r i j - (f.reflection row k).factor *
        (∑ l, (f.reflection row k).vector l * f.r l j) * (f.reflection row k).vector i :=
    householder_mul_apply _ _ _ i j
  have hvector (l : Fin m) (hl : l < row) : (f.reflection row k).vector l = 0 :=
    Reflection.ofTail_vector_of_lt _ hl
  have hcolumn (j : Fin n) : ((f.reflection row k).toMatrix * f.r.toMatrix) i j =
      ((f.reflection row k).toMatrix *ᵥ (Vec.ofFn fun l => f.r l j).get) i := by
    rw [show (Vec.ofFn fun l => f.r l j).get = fun l => f.r l j from funext (Vec.ofFn_apply _)]
    rfl
  change (f.reflect row k).r i j = _
  simp only [reflect, Mat.ofFn_apply, Vec.ofFn_apply]
  split_ifs with hkeep hk hi
  · rw [hmul]
    rcases hkeep with hj | hi
    · have hdot : (∑ l, (f.reflection row k).vector l * f.r l j) = 0 := by
        refine Finset.sum_eq_zero fun l _ => ?_
        rcases lt_or_ge l row with hl | hl
        · rw [hvector l hl, zero_mul]
        · rw [h.upper l j hj (lt_of_lt_of_le (hrow ▸ hj) hl), mul_zero]
      rw [hdot, mul_zero, zero_mul, sub_zero]
    · rw [hvector i hi, mul_zero, sub_zero]
  · subst hk
    rw [hcolumn, reflection, Reflection.ofTail_mulVec, hi, if_neg (lt_irrefl row), if_pos rfl]
  · subst hk
    rw [hcolumn, reflection, Reflection.ofTail_mulVec, if_neg fun h => hkeep (Or.inr h), if_neg hi]
  · rw [hcolumn, ← Reflection.apply_eq]
    rfl

theorem Triangulates.reflect {row : Fin m} {k : Fin n} (hrow : row.val = k.val)
    (h : Triangulates A k f) : Triangulates A (k + 1) (f.reflect row k) := by
  set H := (f.reflection row k).toMatrix with hH
  have hself : H * H = 1 := Reflection.ofTail_mul_self _ _
  have hsymm : Hᵀ = H := householder_transpose _ _
  have hq : (f.reflect row k).q.toMatrix = f.q.toMatrix * H := reflect_q f row k
  have hr : (f.reflect row k).r.toMatrix = H * f.r.toMatrix := h.reflect_r hrow
  refine ⟨h.order, ?_, ?_, fun i j hj hi => ?_⟩
  · calc (f.reflect row k).q.toMatrixᵀ * (f.reflect row k).q.toMatrix
        = H * (f.q.toMatrixᵀ * f.q.toMatrix) * H := by
          rw [hq, transpose_mul, hsymm]
          simp only [Matrix.mul_assoc]
      _ = 1 := by rw [h.orthogonal, Matrix.mul_one, hself]
  · calc (f.reflect row k).q.toMatrix * (f.reflect row k).r.toMatrix
        = f.q.toMatrix * (H * H) * f.r.toMatrix := by
          rw [hq, hr]
          simp only [Matrix.mul_assoc]
      _ = f.q.toMatrix * f.r.toMatrix := by rw [hself, Matrix.mul_one]
      _ = A.toMatrix.submatrix id f.order := h.product
  · simp only [Orthogonal.reflect, Mat.ofFn_apply, Vec.ofFn_apply]
    rcases Nat.lt_succ_iff_lt_or_eq.mp hj with hlt | heq
    · rw [if_pos (Or.inl (Fin.lt_def.mpr hlt)), h.upper i j hlt hi]
    · obtain rfl := Fin.ext heq
      have hrowi : row < i := by
        rw [Fin.lt_def, hrow]
        exact hi
      rw [if_neg fun h => h.elim (lt_irrefl j) hrowi.not_gt, if_pos rfl, if_neg hrowi.ne']

/-- **One step**, with or without an exchange. A column behind the last row is left alone. -/
theorem Triangulates.step (pivoted : Bool) {k : Fin n} (h : Triangulates A k f) :
    Triangulates A (k + 1) (if hk : k.val < m then
      (if pivoted then f.swap k (f.pivotColumn ⟨k, hk⟩ k) else f).reflect ⟨k, hk⟩ k else f) := by
  split_ifs with hk hpivoted
  · refine Triangulates.reflect rfl (h.swap ?_)
    exact (Decomposition.firstLargest_spec
      (Vec.ofFn fun j => normOver ((⟨k, hk⟩ : Fin m) ≤ ·) fun i => f.r i j) k).1
  · exact h.reflect rfl
  · exact ⟨h.order, h.orthogonal, h.product, fun i j _ hi => h.upper i j (by omega) hi⟩

/-- **The factorization** makes all columns triangular. -/
theorem triangulates_factor (pivoted : Bool) (A : Mat ℝ m n) :
    Triangulates A n (factor pivoted A) :=
  foldl_finRange (triangulates_start A) fun _ _ h => h.step pivoted

end Orthogonal

end LeastSquares
