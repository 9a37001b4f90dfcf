import LeastSquares.Proofs.Reflection

/-!
# The decomposition factorizes the Jacobian

In exact arithmetic `Decomposition.ofJacobian J t` finds, for every matrix and every `t ≥ 0`, a
pivot order and orthogonal reflections whose product `Q` takes `-J P` to the triangle that stands
in the buffer (`Factored`).

Results:
* `exists_ofJacobian`: the decomposition is found and is `Factored`;
* `ofJacobian_isQR`: the same in terms of what the decomposition shows of itself, in the order of
  the Jacobian's columns; for `t = 0`, `Q R` is `-J P` whatever the shape and the rank;
* `Factored.transposeApply_eq`: the loop over all columns applies `Qᵀ`.
-/

namespace LeastSquares.Decomposition

open Matrix

variable {m n : Nat} {d : Decomposition ℝ m n} {J : Mat ℝ m n} {t : ℝ} {k : Nat}

/-! ## All steps -/

/-- The column that is moved to the front stands at or behind it, and its number is the largest
of those there. -/
theorem firstLargest_spec (f : Fin n → ℝ) (k : Fin n) :
    k ≤ firstLargest f k ∧ ∀ j, k ≤ j → f j ≤ f (firstLargest f k) := by
  have h (l : List (Fin n)) (b : Fin n) (hb : k ≤ b) :
      k ≤ l.foldl (fun b j => if k < j ∧ f b < f j then j else b) b ∧
        f b ≤ f (l.foldl (fun b j => if k < j ∧ f b < f j then j else b) b) ∧
        ∀ j ∈ l, k < j → f j ≤ f (l.foldl (fun b j => if k < j ∧ f b < f j then j else b) b) := by
    induction l generalizing b with
    | nil => exact ⟨hb, le_rfl, fun j hj => absurd hj List.not_mem_nil⟩
    | cons a l ih =>
      rw [List.foldl_cons]
      by_cases ha : k < a ∧ f b < f a
      · rw [if_pos ha]
        obtain ⟨h1, h2, h3⟩ := ih a ha.1.le
        refine ⟨h1, ha.2.le.trans h2, fun j hj hkj => ?_⟩
        rcases List.mem_cons.mp hj with rfl | hj
        · exact h2
        · exact h3 j hj hkj
      · rw [if_neg ha]
        obtain ⟨h1, h2, h3⟩ := ih b hb
        refine ⟨h1, h2, fun j hj hkj => ?_⟩
        rcases List.mem_cons.mp hj with rfl | hj
        · exact (not_lt.mp fun hlt => ha ⟨hkj, hlt⟩).trans h2
        · exact h3 j hj hkj
  unfold firstLargest
  rw [Fin.foldl_eq_finRange_foldl]
  obtain ⟨h1, h2, h3⟩ := h (List.finRange n) k le_rfl
  refine ⟨h1, fun j hj => ?_⟩
  rcases hj.eq_or_lt with rfl | hj
  · exact h2
  · exact h3 j (List.mem_finRange j) hj

/-- **A finished decomposition**: its steps were made, and the columns that are left are
negligible. -/
structure Factored (J : Mat ℝ m n) (t : ℝ) (d : Decomposition ℝ m n) : Prop
    extends Reduces J t d.rank d where
  negligible : ∀ j : Fin n, d.rank ≤ j.val → d.tailSquare d.rank j ≤ t

theorem Reduces.withRank (h : Reduces J t k d) (r : Nat) : Reduces J t k { d with rank := r } :=
  ⟨h.le_rows, h.le_columns, h.order, h.reflections, h.factors, h.beyond, h.untouched⟩

/-- Whatever the arithmetic, every column is empty below the last row. -/
theorem tailSquare_of_le {α : Type} [Scalar α] (d : Decomposition α m n) (hk : m ≤ k)
    (j : Fin n) : d.tailSquare k j = 0 := by
  have hnone (i : Fin m) : ¬ k ≤ i.val := not_le.mpr (i.isLt.trans_le hk)
  unfold tailSquare sumOver
  simp only [hnone, if_false]
  rw [Fin.foldl_eq_finRange_foldl]
  exact List.foldl_fixed _

/-- **What a step does**: it stops where the largest column behind the pivots is negligible, or it
makes that column the next pivot. -/
theorem steps_drop (ht : 0 ≤ t) (h : Reduces J t k d) (hk : k < n) :
    let j := firstLargest (d.tailSquare k) ⟨k, hk⟩
    (d.tailSquare k j ≤ t ∧ steps t ((List.finRange n).drop k) d = .ok { d with rank := k }) ∨
      (t < d.tailSquare k j ∧ ∃ hm : k < m,
        steps t ((List.finRange n).drop k) d = steps t ((List.finRange n).drop (k + 1))
          ((d.swap ⟨k, hk⟩ j).reflect ⟨k, hk⟩ ⟨k, hm⟩ (d.tailSquare k j)) ∧
        Reduces J t (k + 1)
          ((d.swap ⟨k, hk⟩ j).reflect ⟨k, hk⟩ ⟨k, hm⟩ (d.tailSquare k j))) := by
  intro j
  have hsq : (Vec.ofFn (d.tailSquare k)).get = d.tailSquare k := funext (Vec.ofFn_apply _)
  have hle : (⟨k, hk⟩ : Fin n) ≤ j := (firstLargest_spec (d.tailSquare k) ⟨k, hk⟩).1
  have hunfold : steps t ((List.finRange n).drop k) d =
      if d.tailSquare k j ≤ t then .ok { d with rank := k }
      else if h : k < m then steps t ((List.finRange n).drop (k + 1))
        ((d.swap ⟨k, hk⟩ j).reflect ⟨k, hk⟩ ⟨k, h⟩ (d.tailSquare k j))
      else .error .outOfRange := by
    rw [drop_finRange hk, steps]
    simp only [hsq]
    rw [if_neg (by rintro ⟨_, -, h⟩; exact Bool.noConfusion h)]
  rcases le_or_gt (d.tailSquare k j) t with hstop | hlt
  · exact .inl ⟨hstop, hunfold.trans (if_pos hstop)⟩
  · have hm : k < m := not_le.mp fun hmk =>
      (tailSquare_of_le d hmk j ▸ hlt).not_ge ht
    have hswap : (d.swap ⟨k, hk⟩ j).tailSquare k ⟨k, hk⟩ = d.tailSquare k j := by
      rw [tailSquare_swap, Equiv.swap_apply_left]
    have hrow : (⟨k, hm⟩ : Fin m).val = (⟨k, hk⟩ : Fin n).val := rfl
    refine .inr ⟨hlt, hm, ?_, reduces_reflect ht hrow hswap.symm hlt (reduces_swap hle h)⟩
    rw [hunfold, if_neg hlt.not_ge, dif_pos hm]

/-- **All steps**: the decomposition is found, and it has what every step keeps and the number of
steps taken does not change. -/
theorem exists_steps {I : Nat → Decomposition ℝ m n → Prop} (ht : 0 ≤ t)
    (hrank : ∀ {k d} (r : Nat), I k d → I k { d with rank := r })
    (hstep : ∀ {k : Nat} {d : Decomposition ℝ m n} (hk : k < n) (hm : k < m),
      let j := firstLargest (d.tailSquare k) ⟨k, hk⟩
      t < d.tailSquare k j → I k d →
        I (k + 1) ((d.swap ⟨k, hk⟩ j).reflect ⟨k, hk⟩ ⟨k, hm⟩ (d.tailSquare k j)))
    (h : Reduces J t k d) (hI : I k d) :
    ∃ d', steps t ((List.finRange n).drop k) d = .ok d' ∧ Factored J t d' ∧ I d'.rank d' := by
  induction hj : n - k generalizing k d with
  | zero =>
    obtain rfl : k = n := le_antisymm h.le_columns (Nat.sub_eq_zero_iff_le.mp hj)
    refine ⟨{ d with rank := k }, ?_,
      ⟨h.withRank k, fun j hj => absurd j.isLt (not_lt.mpr hj)⟩, hrank k hI⟩
    rw [List.drop_of_length_le (by rw [List.length_finRange])]
    rfl
  | succ l ih =>
    have hk : k < n := by omega
    obtain ⟨hstop, hsteps⟩ | ⟨hlt, hm, hsteps, hnext⟩ := steps_drop ht h hk
    · have hmax := (firstLargest_spec (d.tailSquare k) ⟨k, hk⟩).2
      exact ⟨_, hsteps, ⟨h.withRank k, fun i hi => (hmax i hi).trans hstop⟩, hrank k hI⟩
    · rw [hsteps]
      exact ih hnext (hstep hk hm hlt hI) (by omega)

/-- **The decomposition is found**, for every matrix and every threshold that is not negative. -/
theorem exists_ofJacobian (J : Mat ℝ m n) (ht : 0 ≤ t) :
    ∃ d, ofJacobian J t = .ok d ∧ Factored J t d := by
  obtain ⟨d, hd, hf, -⟩ := exists_steps (I := fun _ _ => True) ht (fun _ _ => trivial)
    (fun _ _ _ _ => trivial) (reduces_start J t) trivial
  exact ⟨d, hd, hf⟩

theorem factored_ofJacobian (ht : 0 ≤ t) (h : ofJacobian J t = .ok d) : Factored J t d := by
  obtain ⟨d', hd', hf⟩ := exists_ofJacobian J ht
  obtain rfl := Except.ok.inj (hd'.symm.trans h)
  exact hf

/-- The steps leave the column norms as they were at the start. -/
theorem steps_columnNorm {ks : List (Fin n)} {d' : Decomposition ℝ m n}
    (h : steps t ks d = .ok d') : d'.columnNorm = d.columnNorm := by
  induction ks generalizing d with
  | nil =>
    obtain rfl := Except.ok.inj h
    rfl
  | cons k ks ih =>
    rw [steps] at h
    simp only at h
    rw [if_neg (by rintro ⟨_, -, h⟩; exact Bool.noConfusion h)] at h
    split_ifs at h
    · obtain rfl := Except.ok.inj h
      rfl
    · exact (ih h).trans rfl

theorem ofJacobian_columnNorm (h : ofJacobian J t = .ok d) (c : Fin n) :
    d.columnNorm c = √(∑ i, J i c ^ 2) := by
  rw [steps_columnNorm h, start, Vec.ofFn_apply, Exact.sum_eq]
  simp only [neg_mul_neg, sq]
  rfl

/-! ## The factors -/

/-- Each column stands at one position, where it is found. -/
theorem find?_order {order : Vec (Fin n) n} (h : Function.Injective order) (k : Fin n) :
    (List.finRange n).find? (fun l => order l == order k) = some k := by
  cases hf : (List.finRange n).find? fun l => order l == order k with
  | none => exact absurd (beq_self_eq_true _) (List.find?_eq_none.mp hf k (List.mem_finRange k))
  | some l =>
    have hl := List.find?_some hf
    rw [h (beq_iff_eq.mp hl)]

/-- Where the columns of the Jacobian are looked up, each is found at its pivot. -/
theorem pivotOf_order (h : Function.Injective d.order) (k : Fin n) :
    d.pivotOf (d.order k) = k := by
  unfold pivotOf
  rw [find?_order h, Option.getD_some]

theorem toColumns_order (h : Function.Injective d.order) (v : Vec ℝ n) (k : Fin n) :
    d.toColumns v (d.order k) = v k := by
  rw [toColumns, Vec.ofFn_apply, pivotOf_order h]

theorem order_pivotOf (h : Function.Injective d.order) (c : Fin n) :
    d.order (d.pivotOf c) = c := by
  obtain ⟨k, rfl⟩ := Finite.surjective_of_injective h c
  rw [pivotOf_order h]

theorem Reduces.orthogonal_mem (h : Reduces J t k d) :
    d.orthogonal k ∈ orthogonalGroup (Fin m) ℝ := by
  refine Submonoid.list_prod_mem _ fun H hH => ?_
  obtain ⟨i, hi, rfl⟩ := List.mem_map.mp hH
  obtain ⟨l, hl, rfl⟩ := List.mem_take_iff_getElem.mp hi
  refine h.reflections _ ?_
  simp only [List.getElem_finRange, Fin.val_cast]
  omega

/-- The Jacobian as the product of its factors. -/
theorem Reduces.orthogonal_mul_reduced (h : Reduces J t k d) :
    d.orthogonal k * d.reduced k = d.permuted J := by
  rw [← h.factors, ← Matrix.mul_assoc, (mem_orthogonalGroup_iff (Fin m) ℝ).mp h.orthogonal_mem,
    Matrix.one_mul]

theorem Factored.rank_le (h : Factored J t d) : d.rank ≤ min m n :=
  le_min h.le_rows h.le_columns

/-- A column that was processed was not negligible. -/
theorem Factored.diagonal_ne (h : Factored J t d) (ht : 0 ≤ t) (k : Fin n) (hk : k.val < d.rank) :
    d.diagonal k ≠ 0 := by
  intro h0
  have hb := h.beyond k hk
  rw [h0, mul_zero] at hb
  exact ht.not_gt hb

/-- Reflections that were not made change nothing. -/
theorem Factored.orthogonal_eq (h : Factored J t d) : d.orthogonal n = d.orthogonal d.rank := by
  have hk (k : Nat) (hk : k ≤ n) (hr : d.rank ≤ k) : d.orthogonal k = d.orthogonal d.rank := by
    induction k, hr using Nat.le_induction with
    | base => rfl
    | succ k hr ih =>
      rw [orthogonal_succ d ⟨k, hk⟩, ih (Nat.le_of_succ_le hk),
        reflection_of_beta_eq_zero (h.untouched ⟨k, hk⟩ hr).2, Matrix.mul_one]
  exact hk n le_rfl h.le_columns

/-- The loop over the columns applies the transposes of their reflections, the first one first. -/
theorem transposeApply_eq_mulVec (d : Decomposition ℝ m n) (y : Vec ℝ m) (i : Fin m) :
    d.transposeApply y i = ((d.orthogonal n)ᵀ *ᵥ y) i := by
  have hstep (k : Fin n) (y : Vec ℝ m) : (Vec.ofFn fun i : Fin m => if k.val ≤ i.val then
      y i - (sumOver (fun l : Fin m => k.val ≤ l.val) fun l => d.buffer l k * y l) * d.beta k *
        d.buffer i k else y i).get = d.reflection k *ᵥ y := by
    funext i
    have hs : (∑ l, d.reflectionVector k l * y l) =
        ∑ l : Fin m, if k.val ≤ l.val then d.buffer l k * y l else 0 := by
      refine Finset.sum_congr rfl fun l _ => ?_
      rw [reflectionVector_apply]
      split_ifs
      · rfl
      · exact zero_mul _
    rw [Vec.ofFn_apply, reflection_mulVec_apply, Exact.sumOver_eq, hs, reflectionVector_apply]
    split_ifs <;> ring
  have hfold (l : List (Fin n)) (y : Vec ℝ m) :
      (l.foldl (fun y k =>
        let gamma := (sumOver (fun i : Fin m => k.val ≤ i.val) fun i => d.buffer i k * y i) *
          d.beta k
        Vec.ofFn fun i => if k.val ≤ i.val then y i - gamma * d.buffer i k else y i) y).get =
        ((l.map d.reflection).prod)ᵀ *ᵥ y := by
    induction l generalizing y with
    | nil => rw [List.map_nil, List.prod_nil, transpose_one, one_mulVec]; rfl
    | cons k l ih =>
      rw [List.foldl_cons, ih, List.map_cons, List.prod_cons, transpose_mul, reflection_transpose,
        ← mulVec_mulVec, hstep]
  unfold transposeApply orthogonal
  rw [List.take_of_length_le (by rw [List.length_finRange])]
  exact congrFun (hfold _ y) i

/-- `transposeApply` is `Qᵀ`. -/
theorem Factored.transposeApply_eq (h : Factored J t d) (y : Vec ℝ m) (i : Fin m) :
    d.transposeApply y i = ((d.orthogonal d.rank)ᵀ *ᵥ y) i := by
  rw [transposeApply_eq_mulVec, h.orthogonal_eq]

/-- `Qᵀ` keeps the square of the length. -/
theorem Factored.sum_transposeApply_sq (h : Factored J t d) (y : Vec ℝ m) :
    ∑ i, d.transposeApply y i ^ 2 = ∑ i, y i ^ 2 := by
  have hQ : ((d.orthogonal d.rank)ᵀ)ᵀ * (d.orthogonal d.rank)ᵀ = 1 := by
    rw [transpose_transpose]
    exact (mem_orthogonalGroup_iff (Fin m) ℝ).mp h.orthogonal_mem
  simp only [h.transposeApply_eq, sq]
  exact sum_mulVec_sq hQ y.get

/-- Nothing is left behind the pivots: the trailing block is zero. -/
def LeavesNothing (d : Decomposition ℝ m n) : Prop :=
  ∀ (i : Fin m) (k : Fin n), d.rank ≤ i.val → d.rank ≤ k.val → d.buffer i k = 0

/-- At the threshold zero nothing is left. -/
theorem Factored.leavesNothing (h : Factored J 0 d) : d.LeavesNothing := by
  intro i k hi hk
  have hn := h.negligible k hk
  rw [tailSquare_eq] at hn
  have hterm := mul_self_le_sum_tail (fun i => d.buffer i k) hi
  exact mul_self_eq_zero.mp (le_antisymm (hterm.trans hn) (mul_self_nonneg _))

/-- Where nothing is left, all rows from the rank on are zero. -/
theorem LeavesNothing.reduced_eq_zero (h0 : d.LeavesNothing) {i : Fin m} (hi : d.rank ≤ i.val)
    (j : Fin n) : d.reduced d.rank i j = 0 := by
  rcases lt_or_ge j.val d.rank with hj | hj
  · rw [reduced_of_lt d i hj, if_neg (by omega), if_neg (by omega)]
  · rw [reduced_of_le d i hj]
    exact h0 i j hi hj

/-- The entries of the triangle where nothing is left: those of the buffer above the diagonal, the
diagonal, and zeros. -/
theorem Factored.reduced_apply (h : Factored J t d) (h0 : d.LeavesNothing) (i : Fin m)
    (j : Fin n) : d.reduced d.rank i j =
      if i.val < j.val then d.buffer i j else if i.val = j.val then d.diagonal j else 0 := by
  rcases lt_or_ge j.val d.rank with hj | hj
  · exact reduced_of_lt d i hj
  · split_ifs with h1 h2
    · exact reduced_of_le d i hj
    · rw [h0.reduced_eq_zero (h2 ▸ hj), (h.untouched j hj).1]
    · exact h0.reduced_eq_zero (by omega) j

/-- The upper trapezoidal factor, filled up with zero rows. -/
noncomputable def filledR (d : Decomposition ℝ m n) : Matrix (Fin m) (Fin n) ℝ := fun i k =>
  if h : i.val < min m n then d.rMatrix ⟨i.val, h⟩ k else 0

/-- Where nothing is left the trapezoidal factor is all of `Qᵀ(-J P)`, whatever the shape. -/
theorem Factored.filledR_eq (h : Factored J t d) (h0 : d.LeavesNothing) :
    d.filledR = d.reduced d.rank := by
  ext i k
  rw [h.reduced_apply h0]
  unfold filledR rMatrix
  split_ifs with hi h1 h2 h1 h2
  · rw [Mat.ofFn_apply, if_pos h1]
    rfl
  · rw [Mat.ofFn_apply, if_neg h1, if_pos h2]
  · rw [Mat.ofFn_apply, if_neg h1, if_neg h2]
  all_goals first | rfl | omega

/-- **The decomposition as it shows itself**, in the order of the Jacobian's columns: `d` is the
factorization `-J P = Q R` up to columns that the threshold `t` makes negligible. -/
structure IsQR (J : Mat ℝ m n) (t : ℝ) (d : Decomposition ℝ m n) : Prop where
  rank_le : d.rank ≤ min m n
  order_bijective : Function.Bijective d.order
  /-- What is laid out by columns is found at the column of its pivot. -/
  at_pivot : ∀ k, d.pivotOf (d.order k) = k
  symmetric : ∀ k : Fin n, k.val < d.rank → (d.reflection k)ᵀ = d.reflection k
  orthogonal_reflection : ∀ k : Fin n, k.val < d.rank →
    (d.reflection k)ᵀ * d.reflection k = 1 ∧ d.reflection k * (d.reflection k)ᵀ = 1
  /-- A processed column of `Qᵀ(-J P)`: a column of `R` with its diagonal entry. -/
  column : ∀ (i : Fin m) (k : Fin n), k.val < d.rank →
    ((d.orthogonal d.rank)ᵀ * d.permuted J) i k =
      if i.val < k.val then d.inColumnOrder i (d.order k)
      else if i.val = k.val then d.toColumns d.diagonal (d.order k) else 0
  /-- A column that is left: the column of the buffer. -/
  left_column : ∀ (i : Fin m) (k : Fin n), d.rank ≤ k.val →
    ((d.orthogonal d.rank)ᵀ * d.permuted J) i k = d.inColumnOrder i (d.order k)
  negligible : ∀ k : Fin n, d.rank ≤ k.val →
    (∑ i : Fin m with d.rank ≤ i.val, d.inColumnOrder i (d.order k) ^ 2) ≤ t
  exact : t = 0 → d.orthogonal d.rank * d.filledR = d.permuted J

theorem Factored.isQR (h : Factored J t d) : IsQR J t d where
  rank_le := h.rank_le
  order_bijective := Finite.injective_iff_bijective.mp h.order
  at_pivot := pivotOf_order h.order
  symmetric k _ := reflection_transpose d k
  orthogonal_reflection k hk :=
    ⟨(mem_orthogonalGroup_iff' (Fin m) ℝ).mp (h.reflections k hk),
      (mem_orthogonalGroup_iff (Fin m) ℝ).mp (h.reflections k hk)⟩
  column i k hk := by
    rw [h.factors, reduced_of_lt d i hk, inColumnOrder, Mat.ofFn_apply, toColumns, Vec.ofFn_apply,
      pivotOf_order h.order]
  left_column i k hk := by
    rw [h.factors, reduced_of_le d i hk, inColumnOrder, Mat.ofFn_apply, pivotOf_order h.order]
  negligible k hk := by
    have e := h.negligible k hk
    rw [tailSquare_eq, ← Finset.sum_filter] at e
    simpa only [inColumnOrder, Mat.ofFn_apply, pivotOf_order h.order, sq] using e
  exact ht := by
    subst ht
    rw [h.filledR_eq h.leavesNothing, h.orthogonal_mul_reduced]

/-- **Headline.** For every matrix, tall, square or wide and of any rank, and every threshold that
is not negative, the decomposition is found and is a factorization of `-J P`. -/
theorem ofJacobian_isQR (J : Mat ℝ m n) (ht : 0 ≤ t) :
    ∃ d, ofJacobian J t = .ok d ∧ IsQR J t d := by
  obtain ⟨d, hd, h⟩ := exists_ofJacobian J ht
  exact ⟨d, hd, h.isQR⟩

/-- The rows `(1, 2, 3)` and `(2, 4, 6)`: a wide matrix of rank one. -/
def wideMatrix : Mat ℝ 2 3 := Mat.ofFn fun i j => ((i.val + 1) * (j.val + 1) : Nat)

theorem ofJacobian_isQR_wideMatrix :
    (0 : ℝ) ≤ 0 ∧ ∃ d, ofJacobian wideMatrix 0 = .ok d ∧ IsQR wideMatrix 0 d :=
  ⟨le_rfl, ofJacobian_isQR wideMatrix le_rfl⟩

end LeastSquares.Decomposition
