import Mathlib.LinearAlgebra.Matrix.Rank
import LeastSquares.Proofs.Elimination
import LeastSquares.Proofs.Extended
import LeastSquares.Proofs.Factorization
import LeastSquares.Proofs.Scratch

/-!
# The rank of a decomposition

Each step of `Decomposition.ofJacobian` brings the longest column to the front, measured from its
row down. The reflections after it change no length from there on, since their vectors are zero
before their own rows. So a pivot stays at least as long as all that stands behind it
(`Dominates k`, after `k` steps), although the columns behind are reflected again at every step.

Whatever the arithmetic, the columns stand in some order, and the rank that is reported is the
number of steps that were taken. At the threshold zero nothing is left behind them, and the pivots
themselves are not zero: the number of steps is the rank of the Jacobian.

Results:
* `ofJacobian_ranked`: the decomposition in any arithmetic, found or refused;
* `Dominates.swap`, `Dominates.reflect`: a step keeps that the pivots dominate;
* `Factored.rank_eq_rank`: the rank at the threshold zero;
* `ofJacobian_revealsRank`: all of it, in terms of what the decomposition shows of itself.
-/

namespace LeastSquares.Decomposition

open Matrix

variable {m n : Nat}

/-! ## Any arithmetic -/

section Arithmetic

variable {α : Type} [Scalar α] {d : Decomposition α m n} {t : α} {k : Nat}

/-- What a decomposition shows in any arithmetic: an order of the columns, and one rank, whether it
is asked for by itself or for all columns that can be solved for. -/
structure IsRanked (d : Decomposition α m n) : Prop where
  order_bijective : Function.Bijective d.order
  rank_le : d.rank ≤ min m n
  rankFor_eq : d.rankFor (min m n : Nat) = d.rank

omit [Scalar α] in
theorem isRanked_of_le (ho : Function.Injective d.order) (hr : d.rank ≤ min m n) :
    IsRanked d where
  order_bijective := Finite.injective_iff_bijective.mp ho
  rank_le := hr
  rankFor_eq := by
    unfold rankFor
    split_ifs with h
    · omega
    · rfl

/-- **All steps in any arithmetic**: they come to an end before the last row, or a column has no
finite length. -/
theorem steps_ranked (ht : 0 ≤ t) (ho : Function.Injective d.order) (hm : k ≤ m) (hn : k ≤ n) :
    (∃ d', steps t ((List.finRange n).drop k) d = .ok d' ∧ IsRanked d') ∨
      steps t ((List.finRange n).drop k) d = .error (.decomposition m n) := by
  induction hj : n - k generalizing k d with
  | zero =>
    obtain rfl : k = n := le_antisymm hn (Nat.sub_eq_zero_iff_le.mp hj)
    rw [List.drop_of_length_le (by rw [List.length_finRange])]
    exact .inl ⟨_, rfl, isRanked_of_le ho (le_min hm le_rfl)⟩
  | succ l ih =>
    have hk : k < n := by omega
    rw [drop_finRange hk, steps]
    simp only
    split_ifs with hfinite hle hrow
    · exact .inr rfl
    · exact .inl ⟨_, rfl, isRanked_of_le ho (le_min hm hn)⟩
    · exact ih (swap_order_injective ho _ _) hrow hk (by omega)
    · -- below the last row every column is empty
      refine absurd ?_ hle
      rw [Vec.ofFn_apply, tailSquare_of_le d (not_lt.mp hrow)]
      exact ht

/-- **The decomposition in any arithmetic** is found, or a column has no finite length. -/
theorem ofJacobian_ranked (J : Mat α m n) (ht : 0 ≤ t) :
    (∃ d, ofJacobian J t = .ok d ∧ IsRanked d) ∨
      ofJacobian J t = .error (.decomposition m n) :=
  steps_ranked ht (fun i j h => by simpa [start] using h) (Nat.zero_le m) (Nat.zero_le n)

end Arithmetic

/-! ## Pivots -/

section Pivots

variable {d : Decomposition ℝ m n} {J : Mat ℝ m n} {t : ℝ} {k : Nat}

/-- **Every pivot before `k` is at least as long as the columns behind it**, from its row down. -/
def Dominates (k : Nat) (d : Decomposition ℝ m n) : Prop :=
  ∀ a j : Fin n, a.val < k → a ≤ j →
    (∑ i : Fin m, if a.val ≤ i.val then d.reduced k i j * d.reduced k i j else 0) ≤
      d.diagonal a * d.diagonal a

/-- An exchange of columns behind the pivots. -/
theorem Dominates.swap {k j : Fin n} (hkj : k ≤ j) (h : Dominates k d) :
    Dominates k (d.swap k j) := by
  intro a c ha hac
  simp only [reduced_swap hkj]
  refine h a _ ha ?_
  rcases lt_or_ge c k with hc | hc
  · rwa [swap_apply_of_lt hkj hc]
  · exact (Fin.lt_def.mpr ha).le.trans (le_swap_apply hkj hc)

/-- **A reflection of the longest column** behind the pivots makes it another pivot. -/
theorem Dominates.reflect {k : Fin n} {row : Fin m} {square : ℝ} (hrow : row.val = k.val)
    (hs : square = d.tailSquare k k) (h0 : 0 < square)
    (hlongest : ∀ j, k ≤ j → d.tailSquare k j ≤ square) (h : Dominates k d) :
    Dominates (k + 1) (d.reflect k row square) := by
  set d' := d.reflect k row square with hd'
  have hH : (d'.reflection k)ᵀ * d'.reflection k = 1 :=
    (mem_orthogonalGroup_iff' (Fin m) ℝ).mp (reflect_mem_orthogonalGroup hrow hs h0)
  -- the vector of the new reflection is zero before its row
  have hkept (a j : Fin n) (ha : a ≤ k) :
      (∑ i : Fin m, if a.val ≤ i.val then d'.reduced (k + 1) i j * d'.reduced (k + 1) i j else 0) =
        ∑ i : Fin m, if a.val ≤ i.val then d.reduced k i j * d.reduced k i j else 0 := by
    rw [← reflection_mul_reduced hrow hs h0]
    refine sum_tail_mulVec_sq (y := fun i => d.reduced k i j) hH fun i hi => ?_
    rw [reflection_mulVec_apply, reflectionVector_apply, if_neg (by omega), mul_zero, sub_zero]
  intro a j ha haj
  rcases Nat.lt_succ_iff_lt_or_eq.mp ha with hlt | heq
  · rw [hkept a j (Fin.le_def.mpr hlt.le), hd', reflect_diagonal, if_neg (Fin.ne_of_lt hlt)]
    exact h a j hlt haj
  · obtain rfl := Fin.ext heq
    rw [hkept a j le_rfl, hd', reflect_diagonal_mul_self d square row h0.le]
    refine le_trans (le_of_eq ?_) (hlongest j haj)
    simp only [reduced_of_le d _ (Fin.le_def.mp haj)]
    exact (tailSquare_eq d a j).symm

/-- **The decomposition is found**, and its pivots dominate. -/
theorem exists_dominates (J : Mat ℝ m n) (ht : 0 ≤ t) :
    ∃ d, ofJacobian J t = .ok d ∧ Factored J t d ∧ Dominates d.rank d := by
  refine exists_steps ht (fun _ h => h) (fun {k d} hk hm => ?_) (reduces_start J t)
    fun a _ ha => absurd ha (Nat.not_lt_zero _)
  intro j hlt h
  obtain ⟨hle, hmax⟩ := firstLargest_spec (d.tailSquare k) ⟨k, hk⟩
  refine Dominates.reflect (k := ⟨k, hk⟩) rfl ?_ (ht.trans_lt hlt) (fun c hc => ?_) (h.swap hle)
  · rw [tailSquare_swap, Equiv.swap_apply_left]
  · rw [tailSquare_swap]
    exact hmax _ (le_swap_apply hle hc)

/-- The pivots do not increase in magnitude. -/
theorem Dominates.abs_diagonal_le (h : Dominates k d) (hm : k ≤ m) {a b : Fin n} (hab : a ≤ b)
    (hb : b.val < k) : |d.diagonal b| ≤ |d.diagonal a| := by
  have hrow : d.reduced k ⟨b, hb.trans_le hm⟩ b = d.diagonal b := by
    rw [reduced_of_lt d _ hb, if_neg (lt_irrefl _), if_pos rfl]
  refine sq_le_sq.mp ?_
  rw [sq, sq]
  calc d.diagonal b * d.diagonal b
      ≤ ∑ i : Fin m, if a.val ≤ i.val then d.reduced k i b * d.reduced k i b else 0 := by
        rw [← hrow]
        exact mul_self_le_sum_tail (fun i => d.reduced k i b) (Fin.le_def.mp hab)
    _ ≤ d.diagonal a * d.diagonal a := h a b (lt_of_le_of_lt (Fin.le_def.mp hab) hb) hab

end Pivots

/-! ## The rank -/

section Rank

variable {d : Decomposition ℝ m n} {J : Mat ℝ m n}

/-- Neither the order of the columns nor their sign changes the rank. -/
theorem rank_permuted (J : Mat ℝ m n) (h : Function.Bijective d.order) :
    (d.permuted J).rank = J.toMatrix.rank := by
  have hpermuted : d.permuted J =
      (-1 : ℝ) • J.toMatrix.submatrix (Equiv.refl _) (Equiv.ofBijective d.order h) := by
    ext i k
    exact (neg_one_mul _).symm
  rw [hpermuted, rank_smul_of_mem_nonZeroDivisors _
    (mem_nonZeroDivisors_of_ne_zero (neg_ne_zero.mpr one_ne_zero)), rank_submatrix]

/-- The pivots are independent: their leading block is a triangle without a zero on its
diagonal. -/
theorem Factored.le_rank_reduced {t : ℝ} (h : Factored J t d) (ht : 0 ≤ t) :
    d.rank ≤ (d.reduced d.rank).rank := by
  set S := (d.reduced d.rank).submatrix (Fin.castLE h.le_rows) (Fin.castLE h.le_columns)
  have hentry (i k : Fin d.rank) : S i k =
      if i.val < k.val then d.buffer (i.castLE h.le_rows) (k.castLE h.le_columns)
      else if i.val = k.val then d.diagonal (k.castLE h.le_columns) else 0 :=
    reduced_of_lt d _ (j := k.castLE h.le_columns) k.isLt
  have hupper : S.IsUpperTriangular := by
    intro i k hik
    have hlt : k.val < i.val := hik
    rw [hentry, if_neg hlt.not_gt, if_neg hlt.ne']
  have hdet : S.det ≠ 0 := by
    rw [det_of_isUpperTriangular hupper]
    refine Finset.prod_ne_zero_iff.mpr fun k _ => ?_
    rw [hentry, if_neg (lt_irrefl _), if_pos rfl]
    exact h.diagonal_ne ht _ k.isLt
  calc d.rank = S.rank := by rw [rank_of_det_ne_zero hdet, Fintype.card_fin]
    _ ≤ (d.reduced d.rank).rank := rank_submatrix_le _ _ _

/-- Where nothing is left, no row but the first ones counts. -/
theorem Factored.rank_reduced_le {t : ℝ} (h : Factored J t d) (h0 : d.LeavesNothing) :
    (d.reduced d.rank).rank ≤ d.rank := by
  have hrows : Function.support (d.reduced d.rank).row ⊆
      ((Finset.univ.filter fun i : Fin m => i.val < d.rank : Finset (Fin m)) : Set (Fin m)) := by
    intro i hi
    rw [Finset.coe_filter]
    refine ⟨Finset.mem_univ i, not_le.mp fun hle => hi ?_⟩
    funext j
    exact h0.reduced_eq_zero hle j
  refine (rank_le_card_of_support_subset _ _ hrows).trans_eq ?_
  rw [Fin.card_filter_val_lt, min_eq_right h.le_rows]

/-- **The number of steps is the rank of the Jacobian** where nothing is left. -/
theorem Factored.rank_eq_rank {t : ℝ} (h : Factored J t d) (ht : 0 ≤ t)
    (h0 : d.LeavesNothing) : d.rank = J.toMatrix.rank := by
  have hdet : IsUnit (d.orthogonal d.rank).det :=
    isUnit_det_of_left_inverse ((mem_orthogonalGroup_iff' (Fin m) ℝ).mp h.orthogonal_mem)
  calc d.rank = (d.reduced d.rank).rank :=
        le_antisymm (h.le_rank_reduced ht) (h.rank_reduced_le h0)
    _ = (d.permuted J).rank := by
        rw [← h.orthogonal_mul_reduced, rank_mul_eq_right_of_isUnit_det _ _ hdet]
    _ = J.toMatrix.rank := rank_permuted J (Finite.injective_iff_bijective.mp h.order)

end Rank

/-! ## The decomposition -/

/-- **What the decomposition reveals of the rank**, in the order of the Jacobian's columns, for the
threshold `t` in exact arithmetic. -/
structure RevealsRank (J : Mat ℝ m n) (t : ℝ) (d : Decomposition ℝ m n) : Prop
    extends IsRanked d where
  /-- A pivot before the rank is beyond the threshold. -/
  beyond : ∀ k : Fin n, k.val < d.rank → t < d.toColumns d.diagonal (d.order k) ^ 2
  decreasing : ∀ k l : Fin n, k ≤ l → l.val < d.rank →
    |d.toColumns d.diagonal (d.order l)| ≤ |d.toColumns d.diagonal (d.order k)|
  /-- A pivot is as long as any column of `Qᵀ(-J P)` from its own on, from its row down. -/
  dominates : ∀ k j : Fin n, k.val < d.rank → k ≤ j →
    (∑ i : Fin m with k.val ≤ i.val, ((d.orthogonal d.rank)ᵀ * d.permuted J) i j ^ 2) ≤
      d.toColumns d.diagonal (d.order k) ^ 2
  untouched : ∀ k : Fin n, d.rank ≤ k.val →
    d.toColumns d.diagonal (d.order k) = 0 ∧ d.toColumns d.beta (d.order k) = 0
  rank_eq : t = 0 → d.rank = J.toMatrix.rank

variable {d : Decomposition ℝ m n} {J : Mat ℝ m n} {t : ℝ}

theorem Factored.revealsRank (h : Factored J t d) (ht : 0 ≤ t) (hd : Dominates d.rank d) :
    RevealsRank J t d where
  toIsRanked := isRanked_of_le h.order h.rank_le
  beyond k hk := by
    rw [toColumns_order h.order, sq]
    exact h.beyond k hk
  decreasing k l hkl hl := by
    rw [toColumns_order h.order, toColumns_order h.order]
    exact hd.abs_diagonal_le h.le_rows hkl hl
  dominates k j hk hkj := by
    rw [toColumns_order h.order, h.factors, Finset.sum_filter]
    simp only [sq]
    exact hd k j hk hkj
  untouched k hk := by
    rw [toColumns_order h.order, toColumns_order h.order]
    exact h.untouched k hk
  rank_eq h0 := by
    subst h0
    exact h.rank_eq_rank le_rfl h.leavesNothing

/-- **Headline.** For every matrix, of any shape, and every threshold that is not negative: in any
arithmetic the decomposition orders the columns and reports one rank, and is refused only where a
column has no finite length. In exact arithmetic it is found and its pivots reveal the rank. -/
theorem ofJacobian_revealsRank :
    (∀ {α : Type} [Scalar α] {m n : Nat} (J : Mat α m n) {t : α}, 0 ≤ t →
      (∃ d, ofJacobian J t = .ok d ∧ IsRanked d) ∨
        ofJacobian J t = .error (.decomposition m n)) ∧
    ∀ {m n : Nat} (J : Mat ℝ m n) {t : ℝ}, 0 ≤ t →
      ∃ d, ofJacobian J t = .ok d ∧ RevealsRank J t d := by
  constructor
  · intro α _ m n J t ht
    exact ofJacobian_ranked J ht
  · intro m n J t ht
    obtain ⟨d, hd, h, hdominates⟩ := exists_dominates J ht
    exact ⟨d, hd, h.revealsRank ht hdominates⟩

theorem ofJacobian_revealsRank_wideMatrix :
    ((0 : Extended) ≤ 0 ∧
      ((∃ d, ofJacobian (wideMatrix.map Extended.finite) 0 = .ok d ∧ IsRanked d) ∨
        ofJacobian (wideMatrix.map Extended.finite) 0 = .error (.decomposition 2 3))) ∧
    (0 : ℝ) ≤ 0 ∧ ∃ d, ofJacobian wideMatrix 0 = .ok d ∧ RevealsRank wideMatrix 0 d := by
  have hzero : Extended.AtMost (.finite 0) (.finite 0) := le_refl (0 : ℝ)
  exact ⟨⟨hzero, ofJacobian_revealsRank.1 _ hzero⟩, le_rfl, ofJacobian_revealsRank.2 _ le_rfl⟩

end LeastSquares.Decomposition
