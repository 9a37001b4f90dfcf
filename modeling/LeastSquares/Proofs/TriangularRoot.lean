import Mathlib.Analysis.Real.Sqrt
import LeastSquares.Linear.Cholesky
import LeastSquares.Proofs.Elimination

/-!
# The triangular root solves its system

The triangular root of a symmetric matrix in exact arithmetic. Row `k` is formed from the rows
before it, so that the products of its column with the columns behind are the entries of the matrix;
the rows that follow do not touch it again (`Rooted`).

Results:
* `rooted_factor`: a root that is found is upper triangular, with a positive diagonal, and
  multiplies out to the matrix;
* `mulVec_solve`: it solves every system of the matrix.
-/

namespace LeastSquares.Cholesky

variable {n : Nat} {A T : Mat ℝ n n} {k : Nat}

/-- **The rows before `k` are those of the root**, and no others are there yet. -/
structure Rooted (A : Mat ℝ n n) (k : Nat) (T : Mat ℝ n n) : Prop where
  upper : T.IsUpper
  beyond : ∀ i j : Fin n, k ≤ i.val → T i j = 0
  pos : ∀ i : Fin n, i.val < k → 0 < T i i
  product : ∀ i j : Fin n, i.val < k → i ≤ j → A j i = ∑ l, T l i * T l j

theorem rooted_start (A : Mat ℝ n n) : Rooted A 0 (Mat.ofFn fun _ _ => 0) where
  upper i j _ := Mat.ofFn_apply _ i j
  beyond i j _ := Mat.ofFn_apply _ i j
  pos _ hi := absurd hi (Nat.not_lt_zero _)
  product _ _ hi := absurd hi (Nat.not_lt_zero _)

theorem set_apply (T : Mat ℝ n n) (k : Fin n) (v : Vec ℝ n) (i j : Fin n) :
    (⟨T.rows.set k v⟩ : Mat ℝ n n) i j = if i = k then v j else T i j := by
  change (T.rows.set k v i).get j = _
  rw [Vec.set_apply]
  split_ifs <;> rfl

/-- Before row `k` is there, the products of two columns end above it. -/
theorem Rooted.sum_eq {k : Fin n} (h : Rooted A k T) (i j : Fin n) :
    (sumOver (· < k) fun l => T l i * T l j) = ∑ l, T l i * T l j := by
  rw [Exact.sumOver_eq]
  refine Finset.sum_congr rfl fun l _ => ?_
  split_ifs with hl
  · rfl
  · rw [h.beyond l i (not_lt.mp hl), zero_mul]

/-- A row that was not there yet adds one product to those of two columns. -/
theorem Rooted.sum_set {k : Fin n} (h : Rooted A k T) (v : Vec ℝ n) (i j : Fin n) :
    (∑ l, (⟨T.rows.set k v⟩ : Mat ℝ n n) l i * (⟨T.rows.set k v⟩ : Mat ℝ n n) l j) =
      (∑ l, T l i * T l j) + v i * v j := by
  have hterm (l : Fin n) :
      (⟨T.rows.set k v⟩ : Mat ℝ n n) l i * (⟨T.rows.set k v⟩ : Mat ℝ n n) l j =
        T l i * T l j + if l = k then v i * v j else 0 := by
    rw [set_apply, set_apply]
    split_ifs with hl
    · rw [hl, h.beyond k i le_rfl, zero_mul, zero_add]
    · exact (add_zero _).symm
  simp only [hterm, Finset.sum_add_distrib, Finset.sum_ite_eq', Finset.mem_univ, if_true]

/-- **One row more**. -/
theorem Rooted.next {k : Fin n} (h : Rooted A k T)
    (hpos : 0 < A k k - sumOver (· < k) fun l => T l k * T l k) :
    Rooted A (k + 1) ⟨T.rows.set k
      (row A T k (sqrt (A k k - sumOver (· < k) fun l => T l k * T l k)))⟩ := by
  set pivot := sqrt (A k k - sumOver (· < k) fun l => T l k * T l k)
  set v := row A T k pivot
  have hroot : 0 < pivot := Real.sqrt_pos.mpr hpos
  have hsquare : pivot * pivot = A k k - ∑ l, T l k * T l k := by
    rw [← h.sum_eq]
    exact Real.mul_self_sqrt hpos.le
  have hv (j : Fin n) : v j =
      if j = k then pivot else if k < j then (A j k - ∑ l, T l k * T l j) / pivot else 0 := by
    rw [← h.sum_eq]
    exact Vec.ofFn_apply _ j
  refine ⟨fun i j hij => ?_, fun i j hi => ?_, fun i hi => ?_, fun i j hi hij => ?_⟩
  · rw [set_apply]
    split_ifs with hik
    · rw [hv, if_neg (hik ▸ hij).ne, if_neg (hik ▸ hij).not_gt]
    · exact h.upper i j hij
  · rw [set_apply, if_neg (Fin.ne_of_gt (Nat.lt_of_succ_le hi)),
      h.beyond i j (Nat.le_of_succ_le hi)]
  · rw [set_apply]
    split_ifs with hik
    · rw [hv, if_pos hik]
      exact hroot
    · exact h.pos i (by have := Fin.val_ne_of_ne hik; omega)
  · rw [h.sum_set]
    rcases (Nat.lt_succ_iff_lt_or_eq.mp hi) with hlt | heq
    · have hik : i < k := hlt
      rw [hv i, if_neg hik.ne, if_neg hik.not_gt, zero_mul, add_zero, h.product i j hlt hij]
    · obtain rfl := Fin.ext heq
      rw [hv i, if_pos rfl, hv j]
      rcases hij.eq_or_lt with rfl | hlt
      · rw [if_pos rfl, hsquare, add_sub_cancel]
      · rw [if_neg hlt.ne', if_pos hlt, mul_div_cancel₀ _ hroot.ne', add_sub_cancel]

/-- The rows of the indices from `k` on. -/
theorem Rooted.rows (h : Rooted A k T) {T' : Mat ℝ n n} (hk : k ≤ n)
    (hr : rows A ((List.finRange n).drop k) T = some T') : Rooted A n T' := by
  induction hj : n - k generalizing k T with
  | zero =>
    obtain rfl : k = n := le_antisymm hk (Nat.sub_eq_zero_iff_le.mp hj)
    rw [List.drop_of_length_le (by rw [List.length_finRange])] at hr
    obtain rfl := Option.some.inj hr
    exact h
  | succ l ih =>
    have hk' : k < n := by omega
    rw [drop_finRange hk', Cholesky.rows] at hr
    split_ifs at hr with hpos
    have hl : n - (k + 1) = l := by omega
    exact ih (Rooted.next (k := ⟨k, hk'⟩) h hpos) hk' hr hl

/-- **The root**, if there is one. -/
theorem rooted_factor (h : factor A = some T) : Rooted A n T := by
  refine (rooted_start A).rows (Nat.zero_le n) ?_
  rw [List.drop_zero]
  exact h

/-- A symmetric matrix is the product of its root with itself. -/
theorem Rooted.gram_eq (h : Rooted A n T) (hA : ∀ i j, A i j = A j i) (i j : Fin n) :
    A i j = ∑ l, T l i * T l j := by
  rcases le_total i j with hij | hij
  · rw [hA, h.product i j i.isLt hij]
  · rw [h.product j i j.isLt hij]
    simp only [mul_comm]

theorem diagonal_apply (T : Mat ℝ n n) (i : Fin n) : diagonal T i = T i i := Vec.ofFn_apply _ i

/-- **The root solves every system** of its matrix. -/
theorem mulVec_solve (hA : ∀ i j, A i j = A j i) (h : factor A = some T) (b : Vec ℝ n) :
    A.mulVec (solve T b) = b := by
  have hT := rooted_factor h
  have hd (i : Fin n) : diagonal T i ≠ 0 := by
    rw [diagonal_apply]
    exact (hT.pos i i.isLt).ne'
  set y := Triangular.solveTransposed T (diagonal T) b
  have hx (l : Fin n) : (∑ j, T l j * solve T b j) = y l := by
    rw [Triangular.sum_eq_add (p := (l < ·)) (lt_irrefl l) fun j hne hle => by
      rw [hT.upper l j (lt_of_le_of_ne (not_lt.mp hle) hne), zero_mul], ← diagonal_apply]
    exact Triangular.solveUpper_row n T (diagonal T) y l.isLt (hd l)
  have hy (i : Fin n) : (∑ l, T l i * y l) = b i := by
    rw [Triangular.sum_eq_add (p := (· < i)) (lt_irrefl i) fun l hne hle => by
      rw [hT.upper l i (lt_of_le_of_ne (not_lt.mp hle) hne.symm), zero_mul], ← diagonal_apply]
    exact Triangular.solveTransposed_row T (diagonal T) b (hd i)
  refine Vec.ext fun i => ?_
  rw [Mat.mulVec_apply, Exact.sum_eq]
  calc ∑ j, A i j * solve T b j
      = ∑ j, ∑ l, T l i * (T l j * solve T b j) := by
        simp only [hT.gram_eq hA, Finset.sum_mul, mul_assoc]
    _ = ∑ l, T l i * y l := by
        rw [Finset.sum_comm]
        simp only [← Finset.mul_sum, hx]
    _ = b i := hy i

end LeastSquares.Cholesky
