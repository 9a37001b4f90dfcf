import LeastSquares.Proofs.Columns

/-!
# The pivots depend on the products of the columns only

Two Jacobians with the same products `Jᵀ J`, also of different numbers of rows, are decomposed with
the same pivots and the same rank. Their triangles may differ in the signs of the rows, so it is the
products of two entries of a row that agree: those in a pivot's column follow from `Jᵀ J` and the
rows above, and the others from them, since the pivot is not zero. What is left of a column is then
of the same length in both, so the same columns are moved to the front, ties included.

Results:
* `Reduces.row_congr`: the products of two entries of a row;
* `Reduces.tailSquare_congr`: what is left of a column;
* `ofJacobian_congr`: the pivots and the rank.
-/

namespace LeastSquares.Decomposition

open Matrix

variable {m m' n : Nat} {J : Mat ℝ m n} {J' : Mat ℝ m' n} {d : Decomposition ℝ m n}
  {d' : Decomposition ℝ m' n} {t : ℝ} {k : Nat}

/-! ## The products of the columns from the triangle -/

theorem Reduces.gram_order (h : Reduces J t k d) (j l : Fin n) :
    J.gram (d.order j) (d.order l) = ∑ i, d.reduced k i j * d.reduced k i l := by
  have hgram : (d.permuted J)ᵀ * d.permuted J = (d.reduced k)ᵀ * d.reduced k := by
    rw [← h.orthogonal_mul_reduced, transpose_mul, Matrix.mul_assoc,
      ← Matrix.mul_assoc (d.orthogonal k)ᵀ,
      (mem_orthogonalGroup_iff' (Fin m) ℝ).mp h.orthogonal_mem, Matrix.one_mul]
  have hjl := congrFun (congrFun hgram j) l
  simp only [Matrix.mul_apply, transpose_apply, permuted, neg_mul_neg] at hjl
  rw [Mat.gram_eq, hjl]

/-- A processed column is zero below its pivot. -/
theorem reduced_below {i : Fin m} {j : Fin n} (hj : j.val < k) (hij : j.val < i.val) :
    d.reduced k i j = 0 := by
  rw [reduced_of_lt d i hj, if_neg hij.not_gt, if_neg hij.ne']

/-- Row `a` of the triangle. -/
def Reduces.row (h : Reduces J t k d) (a : Nat) (ha : a < k) (j : Fin n) : ℝ :=
  d.reduced k ⟨a, ha.trans_le h.le_rows⟩ j

section Rows

variable (h : Reduces J t k d)

include h

/-- **A row against its pivot**, from the products of the columns and the rows above. -/
theorem Reduces.row_pivot {a : Nat} (ha : a < k) (l : Fin n) :
    h.row a ha ⟨a, ha.trans_le h.le_columns⟩ * h.row a ha l =
      J.gram (d.order ⟨a, ha.trans_le h.le_columns⟩) (d.order l) -
        ∑ b : Fin a, h.row b (b.isLt.trans ha) ⟨a, ha.trans_le h.le_columns⟩ *
          h.row b (b.isLt.trans ha) l := by
  have hle : a + 1 ≤ m := ha.trans_le h.le_rows
  rw [h.gram_order, sum_castLE hle fun i hi => by
    rw [reduced_below (k := k) ha (Nat.lt_of_succ_le hi), zero_mul], Fin.sum_univ_castSucc]
  exact (add_sub_cancel_left _ _).symm

/-- A pivot is not zero. -/
theorem Reduces.pivot_ne (ht : 0 ≤ t) {a : Nat} (ha : a < k) :
    h.row a ha ⟨a, ha.trans_le h.le_columns⟩ ≠ 0 := by
  intro h0
  have hdiagonal : h.row a ha ⟨a, ha.trans_le h.le_columns⟩ =
      d.diagonal ⟨a, ha.trans_le h.le_columns⟩ := by
    unfold row
    rw [reduced_of_lt d _ ha, if_neg (lt_irrefl _), if_pos rfl]
  have hbeyond := h.beyond ⟨a, ha.trans_le h.le_columns⟩ ha
  rw [← hdiagonal, h0, mul_zero] at hbeyond
  exact ht.not_gt hbeyond

variable (h' : Reduces J' t k d') (ho : d'.order = d.order) (hG : J'.gram = J.gram)

include ho hG

/-- **The products of two entries of a row**, from the first row down. -/
theorem Reduces.row_congr (ht : 0 ≤ t) {a : Nat} (ha : a < k) (j l : Fin n) :
    h'.row a ha j * h'.row a ha l = h.row a ha j * h.row a ha l := by
  induction a using Nat.strong_induction_on generalizing j l with
  | _ a ih =>
    set c : Fin n := ⟨a, ha.trans_le h.le_columns⟩
    have hpivot (l : Fin n) : h'.row a ha c * h'.row a ha l = h.row a ha c * h.row a ha l := by
      rw [h'.row_pivot ha l, h.row_pivot ha l, ho, hG]
      congr 1
      exact Finset.sum_congr rfl fun b _ => ih b b.isLt (b.isLt.trans ha) c l
    have hne : h.row a ha c * h.row a ha c ≠ 0 := mul_self_ne_zero.mpr (h.pivot_ne ht ha)
    refine mul_right_cancel₀ hne ?_
    calc h'.row a ha j * h'.row a ha l * (h.row a ha c * h.row a ha c)
        = (h'.row a ha c * h'.row a ha j) * (h'.row a ha c * h'.row a ha l) := by
          rw [← hpivot c]
          ring
      _ = h.row a ha j * h.row a ha l * (h.row a ha c * h.row a ha c) := by
          rw [hpivot j, hpivot l]
          ring

omit ho hG h' in
/-- What is left of a column, from its length and its entries in the triangle. -/
theorem Reduces.tailSquare_eq {j : Fin n} (hj : k ≤ j.val) :
    d.tailSquare k j = J.gram (d.order j) (d.order j) -
      ∑ a : Fin k, h.row a a.isLt j * h.row a a.isLt j := by
  have hrows : (∑ i : Fin m, if i.val < k then d.reduced k i j * d.reduced k i j else 0) =
      ∑ a : Fin k, h.row a a.isLt j * h.row a a.isLt j := by
    rw [sum_castLE h.le_rows fun i hi => if_neg (not_lt.mpr hi)]
    exact Finset.sum_congr rfl fun a _ => if_pos a.isLt
  rw [h.gram_order, ← hrows, Decomposition.tailSquare_eq, ← Finset.sum_sub_distrib]
  refine Finset.sum_congr rfl fun i _ => ?_
  rw [reduced_of_le d i hj]
  rcases lt_or_ge i.val k with hi | hi
  · rw [if_neg hi.not_ge, if_pos hi, sub_self]
  · rw [if_pos hi, if_neg hi.not_gt, sub_zero]

include h' in
/-- **What is left of a column** is as long in both. -/
theorem Reduces.tailSquare_congr (ht : 0 ≤ t) {j : Fin n} (hj : k ≤ j.val) :
    d'.tailSquare k j = d.tailSquare k j := by
  rw [h'.tailSquare_eq hj, h.tailSquare_eq hj, ho, hG]
  congr 1
  exact Finset.sum_congr rfl fun a _ => h.row_congr h' ho hG ht a.isLt j j

end Rows

/-! ## The steps -/

/-- Only the numbers from `k` on are compared. -/
theorem firstLargest_congr {f g : Fin n → ℝ} {k : Fin n} (h : ∀ j, k ≤ j → f j = g j) :
    firstLargest f k = firstLargest g k := by
  have hfold (l : List (Fin n)) (b : Fin n) (hb : k ≤ b) :
      l.foldl (fun b j => if k < j ∧ f b < f j then j else b) b =
        l.foldl (fun b j => if k < j ∧ g b < g j then j else b) b := by
    induction l generalizing b with
    | nil => rfl
    | cons a l ih =>
      rw [List.foldl_cons, List.foldl_cons]
      have hiff : k < a ∧ f b < f a ↔ k < a ∧ g b < g a := by
        refine and_congr_right fun ha => ?_
        rw [h b hb, h a ha.le]
      by_cases hlt : k < a ∧ f b < f a
      · rw [if_pos hlt, if_pos (hiff.mp hlt)]
        exact ih a hlt.1.le
      · rw [if_neg hlt, if_neg (hiff.not.mp hlt)]
        exact ih b hb
  unfold firstLargest
  rw [Fin.foldl_eq_finRange_foldl, Fin.foldl_eq_finRange_foldl]
  exact hfold _ k le_rfl

/-- **The steps of both** take the same columns, and equally many. -/
theorem steps_congr (ht : 0 ≤ t) (h : Reduces J t k d) (h' : Reduces J' t k d')
    (ho : d'.order = d.order) (hG : J'.gram = J.gram) {e : Decomposition ℝ m n}
    {e' : Decomposition ℝ m' n} (he : steps t ((List.finRange n).drop k) d = .ok e)
    (he' : steps t ((List.finRange n).drop k) d' = .ok e') :
    e'.order = e.order ∧ e'.rank = e.rank := by
  induction hl : n - k generalizing k d d' with
  | zero =>
    obtain rfl : k = n := le_antisymm h.le_columns (Nat.sub_eq_zero_iff_le.mp hl)
    rw [List.drop_of_length_le (by rw [List.length_finRange])] at he he'
    cases he
    cases he'
    exact ⟨ho, rfl⟩
  | succ l ih =>
    have hk : k < n := by omega
    have hsquares (j : Fin n) (hj : k ≤ j.val) : d'.tailSquare k j = d.tailSquare k j :=
      h.tailSquare_congr h' ho hG ht hj
    have hpivot : firstLargest (d'.tailSquare k) ⟨k, hk⟩ =
        firstLargest (d.tailSquare k) ⟨k, hk⟩ := firstLargest_congr hsquares
    have hsquare := hsquares _ (firstLargest_spec (d.tailSquare k) ⟨k, hk⟩).1
    have hstep := steps_drop ht h hk
    have hstep' := steps_drop ht h' hk
    simp only [hpivot, hsquare] at hstep'
    rcases hstep with ⟨hstop, heq⟩ | ⟨hlt, hm, heq, hreduces⟩
    · rcases hstep' with ⟨-, heq'⟩ | ⟨hlt', -⟩
      · cases heq.symm.trans he
        cases heq'.symm.trans he'
        exact ⟨ho, rfl⟩
      · exact absurd hstop hlt'.not_ge
    · rcases hstep' with ⟨hstop', -⟩ | ⟨-, hm', heq', hreduces'⟩
      · exact absurd hstop' hlt.not_ge
      · refine ih hreduces hreduces' ?_ (heq.symm.trans he) (heq'.symm.trans he') (by omega)
        refine Vec.ext fun c => ?_
        change (d'.swap _ _).order c = (d.swap _ _).order c
        rw [swap_order, swap_order, ho]

/-- **The pivots and the rank** depend on the products of the columns only. -/
theorem ofJacobian_congr (ht : 0 ≤ t) (hG : J'.gram = J.gram) (hd : ofJacobian J t = .ok d)
    (hd' : ofJacobian J' t = .ok d') : d'.order = d.order ∧ d'.rank = d.rank :=
  steps_congr ht (reduces_start J t) (reduces_start J' t) rfl hG hd hd'

end LeastSquares.Decomposition
