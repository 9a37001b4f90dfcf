import Mathlib.Analysis.Real.Sqrt
import Mathlib.Data.List.GetD
import Mathlib.LinearAlgebra.UnitaryGroup
import Mathlib.Tactic.FieldSimp
import Mathlib.Tactic.LinearCombination
import Mathlib.Tactic.Module
import LeastSquares.Decomposition
import LeastSquares.Proofs.Exact

/-!
# Reflections of the decomposition

A step of `Decomposition.ofJacobian` in exact arithmetic. R, the vectors of the reflections and
the columns that are still to be reflected share one buffer. `Reduces J t k d` says of every column
of it which part is what after `k` steps: `reduced d k` is the matrix `Qᵀ(-J P)` read off the
buffer, `reflection d i` the reflection whose vector stands in column `i`, and `orthogonal d k` the
product `Q` of the first `k` of them.

Results:
* `householder_transpose`, `householder_mul_self`: a reflection is symmetric, and its own inverse if
  its factor fits its vector;
* `sum_tail_mulVec_sq`: an orthogonal matrix keeps the length of a vector below entries that it
  keeps;
* `reduces_swap`: exchanging two columns that are still to be processed keeps `Reduces J t k`;
* `reflection_mul_reduced`: the new reflection takes the matrix in the buffer to the next one;
* `reduces_reflect`: a step leads from `Reduces J t k` to `Reduces J t (k + 1)`.
-/

namespace LeastSquares

open Matrix

variable {m n : Nat}

/-! ## Reflections -/

/-- An orthogonal matrix keeps squares of lengths. -/
theorem sum_mulVec_sq {H : Matrix (Fin m) (Fin m) ℝ} (hH : Hᵀ * H = 1) (y : Fin m → ℝ) :
    ∑ i, (H *ᵥ y) i * (H *ᵥ y) i = ∑ i, y i * y i := by
  calc ∑ i, (H *ᵥ y) i * (H *ᵥ y) i = (H *ᵥ y) ⬝ᵥ (H *ᵥ y) := rfl
    _ = y ⬝ᵥ (Hᵀ * H) *ᵥ y := by
      rw [dotProduct_mulVec, ← mulVec_transpose, mulVec_mulVec, dotProduct_comm]
    _ = ∑ i, y i * y i := by rw [hH, one_mulVec]; rfl

/-- No entry from row `l` down is longer than all of them. -/
theorem mul_self_le_sum_tail (y : Fin m → ℝ) {l : Nat} {i : Fin m} (hi : l ≤ i.val) :
    y i * y i ≤ ∑ i : Fin m, if l ≤ i.val then y i * y i else 0 := by
  have hterm := Finset.single_le_sum (f := fun i : Fin m => if l ≤ i.val then y i * y i else 0)
    (fun i _ => by split_ifs; exacts [mul_self_nonneg _, le_rfl]) (Finset.mem_univ i)
  rwa [if_pos hi] at hterm

/-- If it keeps the entries of a vector before row `l`, it keeps the length from there on. -/
theorem sum_tail_mulVec_sq {H : Matrix (Fin m) (Fin m) ℝ} (hH : Hᵀ * H = 1) {y : Fin m → ℝ}
    {l : Nat} (habove : ∀ i : Fin m, i.val < l → (H *ᵥ y) i = y i) :
    (∑ i : Fin m, if l ≤ i.val then (H *ᵥ y) i * (H *ᵥ y) i else 0) =
      ∑ i : Fin m, if l ≤ i.val then y i * y i else 0 := by
  have hsplit (z : Fin m → ℝ) : (∑ i : Fin m, if l ≤ i.val then z i * z i else 0) =
      (∑ i, z i * z i) - ∑ i : Fin m, if l ≤ i.val then 0 else z i * z i := by
    rw [← Finset.sum_sub_distrib]
    refine Finset.sum_congr rfl fun i _ => ?_
    split_ifs
    · rw [sub_zero]
    · rw [sub_self]
  have hsame : (∑ i : Fin m, if l ≤ i.val then 0 else (H *ᵥ y) i * (H *ᵥ y) i) =
      ∑ i : Fin m, if l ≤ i.val then 0 else y i * y i := by
    refine Finset.sum_congr rfl fun i _ => ?_
    split_ifs with hi
    · rfl
    · rw [habove i (not_le.mp hi)]
  rw [hsplit, sum_mulVec_sq hH, hsame, ← hsplit]

section Householder

variable (c : ℝ) (v : Fin m → ℝ)

/-- The reflection `1 - c v vᵀ`. -/
noncomputable def householder : Matrix (Fin m) (Fin m) ℝ := 1 - c • vecMulVec v v

theorem householder_transpose : (householder c v)ᵀ = householder c v := by
  unfold householder
  rw [transpose_sub, transpose_one, transpose_smul, transpose_vecMulVec]

theorem householder_mulVec_apply (y : Fin m → ℝ) (i : Fin m) :
    (householder c v *ᵥ y) i = y i - c * (∑ l, v l * y l) * v i := by
  unfold householder
  rw [Matrix.sub_mulVec, Matrix.one_mulVec, Matrix.smul_mulVec, Pi.sub_apply, Pi.smul_apply,
    mulVec]
  simp only [dotProduct, vecMulVec_apply, smul_eq_mul, mul_assoc, ← Finset.mul_sum]
  ring

theorem householder_mul_apply (A : Matrix (Fin m) (Fin n) ℝ) (i : Fin m) (j : Fin n) :
    (householder c v * A) i j = A i j - c * (∑ l, v l * A l j) * v i :=
  householder_mulVec_apply c v (fun l => A l j) i

variable {c v}

/-- A reflection whose factor fits its vector is its own inverse. -/
theorem householder_mul_self (h : c * (∑ l, v l * v l) = 2) :
    householder c v * householder c v = 1 := by
  unfold householder
  set V := vecMulVec v v
  have hV : V * V = (∑ l, v l * v l) • V := by
    ext i j
    simp only [V, Matrix.mul_apply, vecMulVec_apply, Matrix.smul_apply, smul_eq_mul,
      Finset.sum_mul]
    exact Finset.sum_congr rfl fun l _ => by ring
  calc (1 - c • V) * (1 - c • V)
      = 1 - (2 - c * ∑ l, v l * v l) • (c • V) := by
        rw [Matrix.sub_mul, Matrix.one_mul, Matrix.mul_sub, Matrix.mul_one, Matrix.smul_mul,
          Matrix.mul_smul, hV]
        module
    _ = 1 := by rw [h, sub_self, zero_smul, sub_zero]

end Householder

namespace Decomposition

/-- The vector of the `k`-th reflection, filled up with zeros from above. -/
def reflectionVector (d : Decomposition ℝ m n) (k : Fin n) : Fin m → ℝ :=
  fun i => (List.replicate k.val 0 ++ d.householderVector k).getD i 0

/-- The `k`-th reflection, `1 - β v vᵀ`. -/
noncomputable def reflection (d : Decomposition ℝ m n) (k : Fin n) : Matrix (Fin m) (Fin m) ℝ :=
  1 - d.beta k • vecMulVec (d.reflectionVector k) (d.reflectionVector k)

/-- The product of the first `k` reflections. -/
noncomputable def orthogonal (d : Decomposition ℝ m n) (k : Nat) : Matrix (Fin m) (Fin m) ℝ :=
  (((List.finRange n).take k).map d.reflection).prod

/-- The negated Jacobian with its columns in pivot order, `-J P`. -/
def permuted (d : Decomposition ℝ m n) (J : Mat ℝ m n) : Matrix (Fin m) (Fin n) ℝ :=
  fun i k => -J i (d.order k)

/-- The matrix that the first `k` reflections leave, as it stands in the buffer. -/
def reduced (d : Decomposition ℝ m n) (k : Nat) : Matrix (Fin m) (Fin n) ℝ := fun i j =>
  if j.val < k then
    if i.val < j.val then d.buffer i j else if i.val = j.val then d.diagonal j else 0
  else d.buffer i j

variable {d : Decomposition ℝ m n} {J : Mat ℝ m n} {t : ℝ} {k : Nat}

theorem reflectionVector_apply (d : Decomposition ℝ m n) (k : Fin n) (i : Fin m) :
    d.reflectionVector k i = if k.val ≤ i.val then d.buffer i k else 0 := by
  unfold reflectionVector householderVector
  split_ifs with h
  · rw [List.getD_append_right _ _ _ _ (by rwa [List.length_replicate]), List.length_replicate,
      List.getD_eq_getElem?_getD, List.getElem?_drop, Nat.add_sub_cancel' h]
    simp [Vec.toList, Vec.ofFn]
  · rw [List.getD_append _ _ _ _ (by rw [List.length_replicate]; exact not_le.mp h),
      List.getD_replicate _ (not_le.mp h)]

theorem reflection_transpose (d : Decomposition ℝ m n) (k : Fin n) :
    (d.reflection k)ᵀ = d.reflection k := householder_transpose _ _

theorem reflection_of_beta_eq_zero {k : Fin n} (h : d.beta k = 0) : d.reflection k = 1 := by
  unfold reflection
  rw [h, zero_smul, sub_zero]

theorem reflection_mul_apply (d : Decomposition ℝ m n) (k : Fin n)
    (A : Matrix (Fin m) (Fin n) ℝ) (i : Fin m) (j : Fin n) :
    (d.reflection k * A) i j =
      A i j - d.beta k * (∑ l, d.reflectionVector k l * A l j) * d.reflectionVector k i :=
  householder_mul_apply _ _ A i j

theorem reflection_mulVec_apply (d : Decomposition ℝ m n) (k : Fin n) (y : Fin m → ℝ)
    (i : Fin m) :
    (d.reflection k *ᵥ y) i =
      y i - d.beta k * (∑ l, d.reflectionVector k l * y l) * d.reflectionVector k i :=
  householder_mulVec_apply _ _ y i

/-- A reflection whose factor fits its vector is orthogonal. -/
theorem reflection_mem_orthogonalGroup {k : Fin n}
    (h : d.beta k * (∑ l, d.reflectionVector k l * d.reflectionVector k l) = 2) :
    d.reflection k ∈ orthogonalGroup (Fin m) ℝ := by
  rw [mem_orthogonalGroup_iff, reflection_transpose]
  exact householder_mul_self h

theorem orthogonal_zero (d : Decomposition ℝ m n) : d.orthogonal 0 = 1 := rfl

theorem orthogonal_succ (d : Decomposition ℝ m n) (k : Fin n) :
    d.orthogonal (k + 1) = d.orthogonal k * d.reflection k := by
  unfold orthogonal
  rw [List.take_add_one, List.getElem?_eq_getElem (by rw [List.length_finRange]; exact k.isLt),
    List.map_append, List.prod_append, Option.toList_some, List.map_singleton,
    List.prod_singleton, List.getElem_finRange]
  rfl

theorem reduced_of_lt (d : Decomposition ℝ m n) (i : Fin m) {j : Fin n} (h : j.val < k) :
    d.reduced k i j =
      if i.val < j.val then d.buffer i j else if i.val = j.val then d.diagonal j else 0 := if_pos h

theorem reduced_of_le (d : Decomposition ℝ m n) (i : Fin m) {j : Fin n} (h : k ≤ j.val) :
    d.reduced k i j = d.buffer i j := if_neg (not_lt.mpr h)

/-! ## One step -/

/-- What holds after `k` steps: they were made by orthogonal reflections, which take `-J P` to the
matrix in the buffer, and left diagonal entries beyond the threshold. -/
structure Reduces (J : Mat ℝ m n) (t : ℝ) (k : Nat) (d : Decomposition ℝ m n) : Prop where
  le_rows : k ≤ m
  le_columns : k ≤ n
  order : Function.Injective d.order
  reflections : ∀ i : Fin n, i.val < k → d.reflection i ∈ orthogonalGroup (Fin m) ℝ
  factors : (d.orthogonal k)ᵀ * d.permuted J = d.reduced k
  beyond : ∀ i : Fin n, i.val < k → t < d.diagonal i * d.diagonal i
  untouched : ∀ i : Fin n, k ≤ i.val → d.diagonal i = 0 ∧ d.beta i = 0

theorem reduces_start (J : Mat ℝ m n) (t : ℝ) : Reduces J t 0 (start J) where
  le_rows := Nat.zero_le m
  le_columns := Nat.zero_le n
  order i j h := by simpa [start] using h
  reflections i hi := absurd hi (Nat.not_lt_zero _)
  factors := by
    rw [orthogonal_zero, transpose_one, Matrix.one_mul]
    ext i j
    simp [permuted, reduced, start, Mat.map_apply]
  beyond i hi := absurd hi (Nat.not_lt_zero _)
  untouched i _ := by simp [start, Vec.replicate_apply]

theorem swap_buffer (d : Decomposition ℝ m n) (k j : Fin n) (i : Fin m) (c : Fin n) :
    (d.swap k j).buffer i c = d.buffer i (Equiv.swap k j c) := Mat.ofFn_apply _ i c

theorem swap_order (d : Decomposition ℝ m n) (k j c : Fin n) :
    (d.swap k j).order c = d.order (Equiv.swap k j c) := Vec.ofFn_apply _ c

/-- An exchange of two columns from `k` on leaves the columns before `k` where they are. -/
theorem swap_apply_of_lt {k j c : Fin n} (hkj : k ≤ j) (hc : c < k) : Equiv.swap k j c = c :=
  Equiv.swap_apply_of_ne_of_ne hc.ne (hc.trans_le hkj).ne

theorem le_swap_apply {k j c : Fin n} (hkj : k ≤ j) (hc : k ≤ c) : k ≤ Equiv.swap k j c := by
  rw [Equiv.swap_apply_def]
  split_ifs
  · exact hkj
  · exact le_rfl
  · exact hc

theorem orthogonal_congr {d d' : Decomposition ℝ m n}
    (h : ∀ i : Fin n, i.val < k → d'.reflection i = d.reflection i) :
    d'.orthogonal k = d.orthogonal k := by
  unfold orthogonal
  congr 1
  refine List.map_congr_left fun i hi => h i ?_
  obtain ⟨l, hl, rfl⟩ := List.mem_take_iff_getElem.mp hi
  simp only [List.getElem_finRange, Fin.val_cast]
  omega

theorem reflection_congr {d d' : Decomposition ℝ m n} {k : Fin n}
    (hb : ∀ i, d'.buffer i k = d.buffer i k) (hβ : d'.beta k = d.beta k) :
    d'.reflection k = d.reflection k := by
  have hv : d'.reflectionVector k = d.reflectionVector k := by
    funext i
    rw [reflectionVector_apply, reflectionVector_apply, hb i]
  unfold reflection
  rw [hv, hβ]

/-- Two columns that are still to be processed are exchanged in the matrix in the buffer. -/
theorem reduced_swap {k j : Fin n} (hkj : k ≤ j) (i : Fin m) (c : Fin n) :
    (d.swap k j).reduced k i c = d.reduced k i (Equiv.swap k j c) := by
  rcases lt_or_ge c k with hc | hc
  · rw [swap_apply_of_lt hkj hc, reduced_of_lt _ _ hc, reduced_of_lt _ _ hc, swap_buffer,
      swap_apply_of_lt hkj hc]
    rfl
  · rw [reduced_of_le _ _ (le_swap_apply hkj hc), reduced_of_le _ _ hc, swap_buffer]

/-- Exchanging two columns that are still to be processed keeps all that was done. -/
theorem reduces_swap {k j : Fin n} (hkj : k ≤ j) (h : Reduces J t k d) :
    Reduces J t k (d.swap k j) := by
  have hr (i : Fin n) (hi : i < k) : (d.swap k j).reflection i = d.reflection i :=
    reflection_congr (fun l => by rw [swap_buffer, swap_apply_of_lt hkj hi]) rfl
  refine ⟨h.le_rows, h.le_columns, ?_, ?_, ?_, h.beyond, h.untouched⟩
  · intro a b hab
    rw [swap_order, swap_order] at hab
    exact (Equiv.swap k j).injective (h.order hab)
  · intro i hi
    rw [hr i hi]
    exact h.reflections i hi
  · rw [orthogonal_congr hr]
    ext i c
    have hf := congrFun (congrFun h.factors i) (Equiv.swap k j c)
    have hp : ((d.orthogonal k)ᵀ * (d.swap k j).permuted J) i c =
        ((d.orthogonal k)ᵀ * d.permuted J) i (Equiv.swap k j c) := by
      simp only [Matrix.mul_apply, permuted, swap_order]
    rw [hp, hf, reduced_swap hkj]

/-! ### The reflection -/

section Reflect

variable (d) (k : Fin n) {row : Fin m} (square : ℝ)

theorem reflect_diagonal (row : Fin m) (c : Fin n) :
    (d.reflect k row square).diagonal c = if c = k then
      (if 0 < d.buffer row k then -√square else √square) else d.diagonal c :=
  Vec.set_apply _ k c _

theorem reflect_beta (row : Fin m) (c : Fin n) :
    (d.reflect k row square).beta c = if c = k then
      1 / (square - d.buffer row k * (d.reflect k row square).diagonal k) else d.beta c := by
  rw [reflect_diagonal, if_pos rfl]
  exact Vec.set_apply _ k c _

theorem reflect_buffer_of_lt {i : Fin m} {j : Fin n} (h : i < row ∨ j < k) :
    (d.reflect k row square).buffer i j = d.buffer i j := by
  simp only [reflect, Mat.ofFn_apply, if_pos h]

theorem reflect_buffer_self {i : Fin m} (h : row ≤ i) :
    (d.reflect k row square).buffer i k = if i = row then
      d.buffer row k - (d.reflect k row square).diagonal k else d.buffer i k := by
  rw [reflect_diagonal, if_pos rfl]
  simp only [reflect, Mat.ofFn_apply, Vec.ofFn_apply, not_lt.mpr h, lt_irrefl, or_self, if_false,
    if_true]
  rfl

variable {k}

/-- The vector of the reflection is the part of the column from its row on, with the new diagonal
entry taken off its first entry. -/
theorem reflect_vector (hrow : row.val = k.val) (i : Fin m) :
    (d.reflect k row square).reflectionVector k i = if row ≤ i then
      d.buffer i k - (if i = row then (d.reflect k row square).diagonal k else 0) else 0 := by
  rw [reflectionVector_apply, ← hrow]
  by_cases h : row ≤ i
  · rw [if_pos h, if_pos (by exact h), reflect_buffer_self _ _ _ h]
    split_ifs with hi
    · rw [hi]
    · rw [sub_zero]
  · rw [if_neg h, if_neg (by exact h)]

theorem reflect_buffer_behind (hrow : row.val = k.val) {i : Fin m} {j : Fin n} (hi : row ≤ i)
    (hj : k < j) :
    (d.reflect k row square).buffer i j = d.buffer i j -
      (d.reflect k row square).beta k *
        (∑ l, (d.reflect k row square).reflectionVector k l * d.buffer l j) *
        (d.reflect k row square).reflectionVector k i := by
  have hv (l : Fin m) (hl : row ≤ l) : (d.reflect k row square).reflectionVector k l =
      if l = row then d.buffer row k - (d.reflect k row square).diagonal k else d.buffer l k := by
    rw [reflectionVector_apply, ← hrow, if_pos (by exact hl), reflect_buffer_self _ _ _ hl]
  have hs : (∑ l, (d.reflect k row square).reflectionVector k l * d.buffer l j) =
      sumOver (fun l : Fin m => row ≤ l) fun l =>
        (if l = row then d.buffer row k - (d.reflect k row square).diagonal k else d.buffer l k) *
          d.buffer l j := by
    rw [Exact.sumOver_eq]
    refine Finset.sum_congr rfl fun l _ => ?_
    split_ifs with hl h
    · rw [hv l hl, if_pos h]
    · rw [hv l hl, if_neg h]
    · rw [reflectionVector_apply, ← hrow, if_neg (by exact hl), zero_mul]
  rw [hs, hv i hi, reflect_beta, if_pos rfl, reflect_diagonal, if_pos rfl]
  simp only [reflect, Mat.ofFn_apply, Vec.ofFn_apply, not_lt.mpr hi, hj.not_gt, hj.ne', hj,
    or_self, if_false, if_true]
  exact congrArg (d.buffer i j - ·) (mul_comm _ _)

theorem reflect_diagonal_mul_self (row : Fin m) (h : 0 ≤ square) :
    (d.reflect k row square).diagonal k * (d.reflect k row square).diagonal k = square := by
  rw [reflect_diagonal, if_pos rfl]
  split_ifs
  · rw [neg_mul_neg, Real.mul_self_sqrt h]
  · exact Real.mul_self_sqrt h

/-- The new diagonal entry has the sign that the old one has not, so nothing is cancelled. -/
theorem reflect_denominator_pos (row : Fin m) (h : 0 < square) :
    0 < square - d.buffer row k * (d.reflect k row square).diagonal k := by
  rw [reflect_diagonal, if_pos rfl]
  have hs := Real.sqrt_nonneg square
  split_ifs with hp
  · have := mul_nonneg hp.le hs
    linarith
  · have := mul_nonpos_of_nonpos_of_nonneg (not_lt.mp hp) hs
    linarith

theorem sum_reflect_vector_mul (hrow : row.val = k.val) (w : Fin m → ℝ) :
    (∑ l, (d.reflect k row square).reflectionVector k l * w l) =
      (∑ l, if row ≤ l then d.buffer l k * w l else 0) -
        (d.reflect k row square).diagonal k * w row := by
  have h : (d.reflect k row square).diagonal k * w row =
      ∑ l, if l = row then (d.reflect k row square).diagonal k * w l else 0 := by
    rw [Finset.sum_ite_eq' Finset.univ row, if_pos (Finset.mem_univ row)]
  rw [h, ← Finset.sum_sub_distrib]
  refine Finset.sum_congr rfl fun l _ => ?_
  rw [reflect_vector d square hrow]
  by_cases hl : row ≤ l
  · rw [if_pos hl, if_pos hl]
    split_ifs <;> ring
  · rw [if_neg hl, if_neg hl, if_neg fun e => hl e.ge]
    ring

end Reflect

theorem tailSquare_eq (d : Decomposition ℝ m n) (k : Nat) (j : Fin n) :
    d.tailSquare k j = ∑ i : Fin m, if k ≤ i.val then d.buffer i j * d.buffer i j else 0 :=
  Exact.sumOver_eq _ _

theorem tailSquare_swap (d : Decomposition ℝ m n) (a b : Fin n) (k : Nat) (j : Fin n) :
    (d.swap a b).tailSquare k j = d.tailSquare k (Equiv.swap a b j) := by
  simp only [tailSquare_eq, swap_buffer]

section Step

variable {k : Fin n} {row : Fin m} {square : ℝ}

/-- The product of the vector with its column is the denominator of the reflection's factor. -/
theorem sum_reflect_vector_mul_column (hrow : row.val = k.val) (hs : square = d.tailSquare k k) :
    (∑ l, (d.reflect k row square).reflectionVector k l * d.buffer l k) =
      square - d.buffer row k * (d.reflect k row square).diagonal k := by
  have e : d.tailSquare k k = ∑ l, if row ≤ l then d.buffer l k * d.buffer l k else 0 := by
    rw [tailSquare_eq, ← hrow]
    rfl
  rw [sum_reflect_vector_mul d square hrow, ← e, ← hs, mul_comm]

/-- The square of the vector is twice the denominator of the reflection's factor. -/
theorem sum_reflect_vector_mul_self (hrow : row.val = k.val) (hs : square = d.tailSquare k k)
    (h0 : 0 ≤ square) :
    (∑ l, (d.reflect k row square).reflectionVector k l *
      (d.reflect k row square).reflectionVector k l) =
      2 * (square - d.buffer row k * (d.reflect k row square).diagonal k) := by
  have e : (∑ l, if row ≤ l then d.buffer l k * (d.reflect k row square).reflectionVector k l
      else 0) = ∑ l, (d.reflect k row square).reflectionVector k l * d.buffer l k := by
    refine Finset.sum_congr rfl fun l _ => ?_
    rw [reflect_vector d square hrow]
    split_ifs <;> ring
  rw [sum_reflect_vector_mul d square hrow, e, sum_reflect_vector_mul_column hrow hs,
    reflect_vector d square hrow, if_pos le_rfl, if_pos rfl]
  linear_combination reflect_diagonal_mul_self d square row h0

/-- The new reflection is orthogonal. -/
theorem reflect_mem_orthogonalGroup (hrow : row.val = k.val) (hs : square = d.tailSquare k k)
    (h0 : 0 < square) :
    (d.reflect k row square).reflection k ∈ orthogonalGroup (Fin m) ℝ := by
  refine reflection_mem_orthogonalGroup ?_
  rw [sum_reflect_vector_mul_self hrow hs h0.le, reflect_beta, if_pos rfl]
  have := (reflect_denominator_pos d (k := k) square row h0).ne'
  field_simp

/-- Only the columns behind and the new one see the reflection. -/
theorem reflect_reflection_of_lt {c : Fin n} (hc : c < k) :
    (d.reflect k row square).reflection c = d.reflection c :=
  reflection_congr (fun _ => reflect_buffer_of_lt d k square (Or.inr hc))
    (by rw [reflect_beta, if_neg hc.ne])

/-- The reflection takes the matrix in the buffer to the next one. -/
theorem reflection_mul_reduced (hrow : row.val = k.val) (hs : square = d.tailSquare k k)
    (h0 : 0 < square) :
    (d.reflect k row square).reflection k * d.reduced k =
      (d.reflect k row square).reduced (k + 1) := by
  set d' := d.reflect k row square with hd'
  have hpos := reflect_denominator_pos d (k := k) square row h0
  ext i c
  rw [reflection_mul_apply]
  rcases lt_trichotomy c k with hc | rfl | hc
  -- a finished column has no entry where the vector has one
  · have hz : (∑ l, d'.reflectionVector k l * d.reduced k l c) = 0 := by
      refine Finset.sum_eq_zero fun l _ => ?_
      rw [reflectionVector_apply, reduced_of_lt _ _ hc]
      split_ifs with hk h1 h2
      · exact absurd (hk.trans_lt (h1.trans hc)) (lt_irrefl _)
      · exact absurd (hk.trans_lt (h2.trans_lt hc)) (lt_irrefl _)
      · exact mul_zero _
      all_goals exact zero_mul _
    rw [hz, mul_zero, zero_mul, sub_zero, reduced_of_lt _ _ hc,
      reduced_of_lt _ _ (Nat.lt_succ_of_lt (show c.val < k.val from hc)), hd',
      reflect_buffer_of_lt d k square (Or.inr hc), reflect_diagonal, if_neg hc.ne]
  -- the new column keeps its diagonal entry and loses what is below
  · have hone : d'.beta c * (∑ l, d'.reflectionVector c l * d.reduced c l c) = 1 := by
      simp only [reduced_of_le d _ (le_refl c.val)]
      rw [sum_reflect_vector_mul_column hrow hs, hd', reflect_beta, if_pos rfl]
      exact one_div_mul_cancel hpos.ne'
    rw [hone, one_mul, reduced_of_le _ _ le_rfl, reduced_of_lt _ _ (Nat.lt_succ_self _), hd',
      reflect_vector d square hrow, ← hrow]
    rcases lt_trichotomy i row with hi | rfl | hi
    · rw [if_neg hi.not_ge, sub_zero, if_pos (by exact hi),
        reflect_buffer_of_lt d c square (Or.inl hi)]
    · rw [if_pos le_rfl, if_pos rfl, if_neg (lt_irrefl _), if_pos rfl, sub_sub_cancel]
    · rw [if_pos hi.le, if_neg hi.ne', sub_zero, sub_self, if_neg (by exact hi.not_gt),
        if_neg fun e => hi.ne' (Fin.ext e)]
  -- the columns behind are reflected
  · simp only [reduced_of_le d _ (le_of_lt (show k.val < c.val from hc))]
    rw [reduced_of_le _ _ (show k.val + 1 ≤ c.val from hc)]
    rcases lt_or_ge i row with hi | hi
    · rw [hd', reflect_vector d square hrow, if_neg hi.not_ge, mul_zero, sub_zero,
        reflect_buffer_of_lt d k square (Or.inl hi)]
    · rw [hd', reflect_buffer_behind d square hrow hi hc]

/-- **One step**: a reflection of a column whose tail is beyond the threshold. -/
theorem reduces_reflect (ht : 0 ≤ t) (hrow : row.val = k.val) (hs : square = d.tailSquare k k)
    (hlt : t < square) (h : Reduces J t k d) :
    Reduces J t (k + 1) (d.reflect k row square) := by
  have h0 : 0 < square := ht.trans_lt hlt
  have hr (i : Fin n) (hi : i.val < k.val) :
      (d.reflect k row square).reflection i = d.reflection i := reflect_reflection_of_lt hi
  refine ⟨hrow ▸ row.isLt, k.isLt, h.order, ?_, ?_, ?_, ?_⟩
  · intro i hi
    rcases Nat.lt_succ_iff_lt_or_eq.mp hi with hi | hi
    · rw [hr i hi]
      exact h.reflections i hi
    · obtain rfl := Fin.ext hi
      exact reflect_mem_orthogonalGroup hrow hs h0
  · rw [orthogonal_succ, orthogonal_congr hr, transpose_mul, reflection_transpose,
      Matrix.mul_assoc]
    have hf : (d.orthogonal k)ᵀ * (d.reflect k row square).permuted J = d.reduced k := h.factors
    rw [hf, reflection_mul_reduced hrow hs h0]
  · intro i hi
    rcases Nat.lt_succ_iff_lt_or_eq.mp hi with hi | hi
    · rw [reflect_diagonal, if_neg (Fin.ne_of_lt hi)]
      exact h.beyond i hi
    · obtain rfl := Fin.ext hi
      rw [reflect_diagonal_mul_self d square row h0.le]
      exact hlt
  · intro i hi
    have hne : i ≠ k := fun e => absurd (e ▸ hi) (Nat.not_succ_le_self _)
    rw [reflect_diagonal, if_neg hne, reflect_beta, if_neg hne]
    exact h.untouched i (Nat.le_of_succ_le hi)

end Step

end Decomposition

end LeastSquares
