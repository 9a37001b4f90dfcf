import LeastSquares.Proofs.Elimination
import LeastSquares.Proofs.Factorization
import LeastSquares.Proofs.Signs

/-!
# Steps of the trust region

The damping parameter and its direction in exact arithmetic. `Represents J r qy d` says what the
search for the parameter needs of a decomposition: on the first `p` pivots its triangle `R` and the
projected residuals `qy` have the products `Rᵀ R = JₛᵀJₛ` and `Rᵀ qy = -Jₛᵀ r`, where `s` are the
columns at these pivots, and below the rank `R` is zero. A damped solve writes into the buffer what
`Represents` does not read.

Results:
* `represents_writeDiagonal`: a decomposition at the threshold zero, with its diagonal written into
  the buffer, represents its Jacobian;
* `isStep_undamped`, `isStep_direction`: the undamped and the damped direction, with their signs
  changed, solve the normal equations on `s`, at every rank;
* `parameter_spec`: so does the direction that the search for the parameter ends with, and its
  parameter is zero exactly if the undamped direction fits into the region.
-/

namespace LeastSquares

/-- The sign rule of exact arithmetic. -/
theorem Exact.signRule : SignRule (α := ℝ) (0 ≤ ·) where
  natCast k := Nat.cast_nonneg k
  zero := le_rfl
  one := zero_le_one
  scientific _ _ _ := NNRat.cast_nonneg _
  add := add_nonneg
  mul := mul_nonneg
  div := div_nonneg
  mul_self := mul_self_nonneg
  sqrt := Real.sqrt_nonneg
  of_lt ha hab := ha.trans hab.le
  excess hδ hne := by linarith [not_le.mp hne]
  of_not_lt_tenth hne := by linarith [not_lt.mp hne]

open Matrix

variable {m n p : Nat}

/-- A sum of terms that vanish from `p` on. -/
theorem sum_castLE (h : p ≤ n) {f : Fin n → ℝ} (hf : ∀ l : Fin n, p ≤ l.val → f l = 0) :
    ∑ l, f l = ∑ k : Fin p, f (k.castLE h) := by
  refine Eq.trans ?_ (Finset.sum_map Finset.univ (Fin.castLEEmb h) f)
  refine (Finset.sum_subset (Finset.subset_univ _) fun l _ hl =>
    hf l (not_lt.mp fun hlt => ?_)).symm
  exact hl (Finset.mem_map.mpr ⟨⟨l.val, hlt⟩, Finset.mem_univ _, rfl⟩)

/-- **A step on the columns `s`**: it solves the damped normal equations
`(JₛᵀJₛ + λ Dₛ²) xₛ = Jₛᵀ r` and is zero on all other columns. -/
structure IsStep (J : Mat ℝ m n) (r : Vec ℝ m) (D : Vec ℝ n) (lambda : ℝ) (s : Finset (Fin n))
    (x : Vec ℝ n) : Prop where
  outside : ∀ c, c ∉ s → x c = 0
  normal : ∀ c ∈ s, (∑ b ∈ s, (∑ i, J i c * J i b) * x b) + lambda * D c ^ 2 * x c =
    ∑ i, J i c * r i

/-- **The undamped step on the columns `s`**: it solves the normal equations `JₛᵀJₛ xₛ = Jₛᵀ r` and
is zero outside of `basic`, a part of them. -/
structure IsUndamped (J : Mat ℝ m n) (r : Vec ℝ m) (s basic : Finset (Fin n)) (x : Vec ℝ n) :
    Prop where
  outside : ∀ c, c ∉ basic → x c = 0
  normal : ∀ c ∈ s, (∑ b ∈ s, (∑ i, J i c * J i b) * x b) = ∑ i, J i c * r i

theorem IsStep.isUndamped {J : Mat ℝ m n} {r : Vec ℝ m} {D x : Vec ℝ n} {s basic : Finset (Fin n)}
    (h : IsStep J r D 0 s x) (hx : ∀ c, c ∉ basic → x c = 0) : IsUndamped J r s basic x where
  outside := hx
  normal c hc := by
    have hn := h.normal c hc
    rwa [zero_mul, zero_mul, add_zero] at hn

namespace Decomposition

/-- The columns at the first `k` pivots. -/
def pivotColumns (d : Decomposition ℝ m n) (k : Nat) : Finset (Fin n) :=
  (Finset.univ.filter fun l : Fin n => l.val < k).image d.order

/-- What the search for the damping parameter needs of a decomposition of `J` and of the projected
residuals `qy`. -/
structure Represents (hm : p ≤ m) (hn : p ≤ n) (J : Mat ℝ m n) (r qy : Vec ℝ m)
    (d : Decomposition ℝ m n) : Prop where
  order : Function.Injective d.order
  rank_le : d.rank ≤ p
  diagonal_eq : ∀ k : Fin p, d.block hm hn k k = d.diagonal (k.castLE hn)
  diagonal_ne : ∀ k : Fin n, k.val < d.rank → d.diagonal k ≠ 0
  row_eq_zero : ∀ i k : Fin p, d.rank ≤ i.val → d.block hm hn i k = 0
  gram : ∀ a b : Fin p,
    (∑ i, J i (d.order (a.castLE hn)) * J i (d.order (b.castLE hn))) =
      ∑ i, d.block hm hn i a * d.block hm hn i b
  moment : ∀ a : Fin p,
    (∑ i, J i (d.order (a.castLE hn)) * r i) = -∑ i, d.block hm hn i a * qy (i.castLE hm)

variable {d : Decomposition ℝ m n} {J : Mat ℝ m n} {r qy : Vec ℝ m} {hm : p ≤ m} {hn : p ≤ n}

theorem block_isUpper (d : Decomposition ℝ m n) (hm : p ≤ m) (hn : p ≤ n) :
    (d.block hm hn).IsUpper := fun i j hij => by
  rw [block, Mat.ofFn_apply, if_neg (not_le.mpr hij)]

/-! ## The decomposition at the start -/

theorem block_writeDiagonal {t : Decomposition ℝ m n} (h : Factored J 0 t) (hm : p ≤ m)
    (hn : p ≤ n) (i k : Fin p) :
    (t.writeDiagonal p).block hm hn i k = t.reduced t.rank (i.castLE hm) (k.castLE hn) := by
  rw [h.reduced_apply h.leavesNothing, block, Mat.ofFn_apply, writeDiagonal]
  simp only [Mat.ofFn_apply, Fin.val_castLE, k.isLt, and_true]
  rcases lt_trichotomy i k with hik | rfl | hik
  · rw [if_pos hik.le, if_neg (Fin.val_ne_of_ne hik.ne), if_pos (Fin.lt_def.mp hik)]
  · rw [if_pos le_rfl, if_pos rfl, if_neg (lt_irrefl _), if_pos rfl]
  · rw [if_neg hik.not_ge, if_neg (by omega), if_neg (by omega)]

/-- The product of a column with a vector, from the factors. -/
theorem Factored.moment {t : Decomposition ℝ m n} {threshold : ℝ} (h : Factored J threshold t)
    (r : Vec ℝ m) (c : Fin n) :
    (∑ i, J i (t.order c) * r i) = -∑ i, t.reduced t.rank i c * t.transposeApply r i := by
  have hmoment : (t.permuted J)ᵀ *ᵥ r.get = (t.reduced t.rank)ᵀ *ᵥ (t.transposeApply r).get := by
    rw [← h.orthogonal_mul_reduced, transpose_mul, ← mulVec_mulVec]
    congr 1
    exact (funext (h.transposeApply_eq r)).symm
  have hc := congrFun hmoment c
  simp only [mulVec, dotProduct, transpose_apply, permuted, neg_mul, Finset.sum_neg_distrib] at hc
  exact neg_eq_iff_eq_neg.mp hc

theorem represents_writeDiagonal {t : Decomposition ℝ m n} (h : Factored J 0 t)
    (hp : t.rank ≤ p) (hm : p ≤ m) (hn : p ≤ n) (r : Vec ℝ m) :
    Represents hm hn J r (t.transposeApply r) (t.writeDiagonal p) := by
  have hQ := (mem_orthogonalGroup_iff' (Fin m) ℝ).mp h.orthogonal_mem
  have hQR := h.orthogonal_mul_reduced
  have hbelow (i : Fin m) (hi : p ≤ i.val) (a : Fin n) : t.reduced t.rank i a = 0 :=
    h.leavesNothing.reduced_eq_zero (hp.trans hi) a
  refine ⟨h.order, hp, ?_, h.diagonal_ne le_rfl, ?_, ?_, ?_⟩
  · intro k
    rw [block_writeDiagonal h, h.reduced_apply h.leavesNothing]
    exact (if_neg (lt_irrefl _)).trans (if_pos rfl)
  · intro i k hi
    rw [block_writeDiagonal h]
    exact h.leavesNothing.reduced_eq_zero (i := i.castLE hm) hi _
  · intro a b
    have hgram : (t.permuted J)ᵀ * t.permuted J = (t.reduced t.rank)ᵀ * t.reduced t.rank := by
      rw [← hQR, transpose_mul, Matrix.mul_assoc, ← Matrix.mul_assoc (t.orthogonal t.rank)ᵀ, hQ,
        Matrix.one_mul]
    have hab := congrFun (congrFun hgram (a.castLE hn)) (b.castLE hn)
    simp only [Matrix.mul_apply, transpose_apply, permuted, neg_mul_neg] at hab
    refine hab.trans ?_
    rw [sum_castLE hm fun i hi => by rw [hbelow i hi, zero_mul]]
    simp only [block_writeDiagonal h]
  · intro a
    refine (h.moment r (a.castLE hn)).trans ?_
    rw [sum_castLE hm fun i hi => by rw [hbelow i hi, zero_mul]]
    simp only [block_writeDiagonal h]

/-- A damped solve uses the buffer where it is not read. -/
theorem block_withScratch (h : Represents hm hn J r qy d) (S : Mat ℝ p p) :
    (d.withScratch S).block hm hn = d.block hm hn := by
  refine Mat.ext fun i k => ?_
  rcases lt_trichotomy i k with hik | rfl | hik
  · simp only [block, withScratch, Mat.ofFn_apply, Fin.val_castLE, i.isLt, k.isLt, and_self,
      dite_true]
    rw [if_pos hik.le, if_pos hik.le, if_neg (by omega), if_neg (by omega)]
  · rw [h.diagonal_eq]
    simp only [block, withScratch, Mat.ofFn_apply, Fin.val_castLE, i.isLt, and_self, dite_true]
    rw [if_pos le_rfl, if_neg (lt_irrefl _), if_pos trivial]
  · rw [block_isUpper _ _ _ i k hik, block_isUpper _ _ _ i k hik]

theorem Represents.withScratch (h : Represents hm hn J r qy d) (S : Mat ℝ p p) :
    Represents hm hn J r qy (d.withScratch S) := by
  have hb := block_withScratch h S
  refine ⟨h.order, h.rank_le, ?_, h.diagonal_ne, ?_, ?_, ?_⟩
  · exact fun k => hb ▸ h.diagonal_eq k
  · exact fun i k hi => hb ▸ h.row_eq_zero i k hi
  · exact fun a b => hb ▸ h.gram a b
  · exact fun a => hb ▸ h.moment a

theorem gradient_apply (d : Decomposition ℝ m n) (hm : p ≤ m) (hn : p ≤ n) (qy : Vec ℝ m)
    (a : Fin p) :
    d.gradient hm hn qy a = ∑ i, d.block hm hn i a * qy (i.castLE hm) := by
  rw [gradient_eq, Vec.ofFn_apply, Exact.sumOver_eq]
  refine Finset.sum_congr rfl fun i _ => ?_
  split_ifs with hia
  · rfl
  · rw [block_isUpper d hm hn i a (not_le.mp hia), zero_mul]

/-- A row of the linear model over all pivots: the triangle has nothing before its diagonal. -/
theorem linearModel_apply (t : LevenbergMarquardt.Proposal ℝ m n) (i : Fin (min m n)) :
    LevenbergMarquardt.Search.linearModel t i =
      ∑ c, t.decomposition.block (Nat.min_le_left m n) (Nat.min_le_right m n) i c *
        t.decomposition.gather (Nat.min_le_right m n) t.step c := by
  rw [LevenbergMarquardt.Search.linearModel_eq, Vec.ofFn_apply, Exact.sumOver_eq]
  refine Finset.sum_congr rfl fun c _ => ?_
  split_ifs with hic
  · rfl
  · rw [block_isUpper _ _ _ i c (not_le.mp hic), zero_mul]

/-- The gradient of the projected problem is that of the problem itself, up to its sign. -/
theorem Represents.gradient_eq (h : Represents hm hn J r qy d) (a : Fin p) :
    d.gradient hm hn qy a = -∑ i, J i (d.order (a.castLE hn)) * r i := by
  rw [h.moment, neg_neg, gradient_apply]

/-! ## Directions -/

theorem mem_pivotColumns (hd : Function.Injective d.order) {k : Nat} {c : Fin n} :
    c ∈ d.pivotColumns k ↔ (d.pivotOf c).val < k := by
  unfold pivotColumns
  rw [Finset.mem_image]
  constructor
  · rintro ⟨l, hl, rfl⟩
    rw [pivotOf_order hd]
    exact (Finset.mem_filter.mp hl).2
  · exact fun h => ⟨d.pivotOf c, Finset.mem_filter.mpr ⟨Finset.mem_univ _, h⟩, order_pivotOf hd c⟩

theorem sum_pivotColumns (hd : Function.Injective d.order) (hn : p ≤ n) (f : Fin n → ℝ) :
    ∑ c ∈ d.pivotColumns p, f c = ∑ k : Fin p, f (d.order (k.castLE hn)) := by
  unfold pivotColumns
  rw [Finset.sum_image hd.injOn, Finset.sum_filter]
  rw [sum_castLE hn fun l hl => if_neg (not_lt.mpr hl)]
  exact Finset.sum_congr rfl fun k _ => if_pos k.isLt

/-- A solution of the damped equations of the triangle is a step on the columns of its pivots, with
its sign changed. -/
theorem Represents.isStep (h : Represents hm hn J r qy d) {D x : Vec ℝ n} {lambda : ℝ}
    {y : Fin p → ℝ} (hout : ∀ c, p ≤ (d.pivotOf c).val → x c = 0)
    (hx : ∀ k : Fin p, x (d.order (k.castLE hn)) = -y k)
    (hy : ∀ a, (∑ c, (∑ i, d.block hm hn i a * d.block hm hn i c) * y c) +
      lambda * D (d.order (a.castLE hn)) ^ 2 * y a = ∑ i, d.block hm hn i a * qy (i.castLE hm)) :
    IsStep J r D lambda (d.pivotColumns p) x := by
  constructor
  · intro c hc
    exact hout c (not_lt.mp fun hlt => hc ((mem_pivotColumns h.order).mpr hlt))
  · intro c hc
    have hlt := (mem_pivotColumns h.order).mp hc
    obtain ⟨a, rfl⟩ : ∃ a : Fin p, d.order (a.castLE hn) = c :=
      ⟨⟨(d.pivotOf c).val, hlt⟩, order_pivotOf h.order c⟩
    rw [sum_pivotColumns h.order hn, h.moment, ← hy a, hx a, neg_add]
    congr 1
    · rw [← Finset.sum_neg_distrib]
      refine Finset.sum_congr rfl fun b _ => ?_
      rw [h.gram, hx b, mul_neg]
    · ring

theorem undamped_of_le {k : Fin n} (hk : d.rank ≤ k.val) : d.undamped qy k = 0 := by
  unfold undamped
  rw [Triangular.solveUpperByColumns_eq]
  exact Triangular.solveUpper_of_le _ _ _ _ hk

/-- The undamped system can be solved: up to the rank the diagonal of `R` has no zero. -/
structure Solvable (hm : p ≤ m) (hn : p ≤ n) (d : Decomposition ℝ m n) : Prop where
  rank_le : d.rank ≤ p
  diagonal_eq : ∀ k : Fin p, d.block hm hn k k = d.diagonal (k.castLE hn)
  diagonal_ne : ∀ k : Fin n, k.val < d.rank → d.diagonal k ≠ 0

theorem Represents.solvable (h : Represents hm hn J r qy d) : Solvable hm hn d :=
  ⟨h.rank_le, h.diagonal_eq, h.diagonal_ne⟩

/-- A row of the triangle above the rank holds for the undamped direction. -/
theorem Solvable.undamped_row (h : Solvable hm hn d) (qy : Vec ℝ m) (i : Fin p)
    (hi : i.val < d.rank) :
    (∑ c, d.block hm hn i c * d.undamped qy (c.castLE hn)) = qy (i.castLE hm) := by
  have hrow := Triangular.solveUpper_row d.rank
    (Mat.ofFn fun i j => if h : i.val < m then d.buffer ⟨i.val, h⟩ j else 0) d.diagonal
    (Vec.ofFn fun i => if h : i.val < m then qy ⟨i.val, h⟩ else 0) (j := i.castLE hn) hi
    (h.diagonal_ne _ hi)
  rw [← Triangular.solveUpperByColumns_eq] at hrow
  change d.diagonal (i.castLE hn) * d.undamped qy (i.castLE hn) +
    (∑ l : Fin n, if i.castLE hn < l then _ * d.undamped qy l else 0) = _ at hrow
  have him : i.val < m := i.isLt.trans_le hm
  simp only [Mat.ofFn_apply, Vec.ofFn_apply, Fin.val_castLE, him, dite_true] at hrow
  rw [sum_castLE hn fun l hl => by
    rw [undamped_of_le (h.rank_le.trans hl), mul_zero, ite_self]] at hrow
  refine Eq.trans ?_ hrow
  rw [Damped.Elimination.sum_change i (g := fun c => if i < c then
    d.block hm hn i c * d.undamped qy (c.castLE hn) else 0)]
  · rw [if_neg (lt_irrefl i), sub_zero, h.diagonal_eq, add_comm]
    congr 1
    refine Finset.sum_congr rfl fun c _ => ?_
    by_cases hc : i < c
    · rw [if_pos hc, if_pos (show i.castLE hn < c.castLE hn from hc), block, Mat.ofFn_apply,
        if_pos hc.le]
      rfl
    · rw [if_neg hc, if_neg (show ¬ i.castLE hn < c.castLE hn from hc)]
  · intro c hc
    split_ifs with hlt
    · rfl
    · rw [block_isUpper _ _ _ i c (lt_of_le_of_ne (not_lt.mp hlt) hc), zero_mul]

/-- A vector that the triangle takes to zero and that is zero from the rank on is zero. -/
theorem Solvable.eq_zero_of_rows (h : Solvable hm hn d) {z : Fin p → ℝ}
    (hz : ∀ k : Fin p, d.rank ≤ k.val → z k = 0)
    (hR : ∀ i, (∑ c, d.block hm hn i c * z c) = 0) (k : Fin p) : z k = 0 := by
  -- from the last entry before the rank to the first one
  have hj (j : Nat) : ∀ k : Fin p, d.rank ≤ k.val + j → z k = 0 := by
    induction j with
    | zero => exact hz
    | succ j ih =>
      intro k hk
      rcases Nat.lt_or_ge (k.val + j) d.rank with hlt | hge
      · have hrow := hR k
        rw [Finset.sum_eq_single k (fun c _ hc => ?_) fun hk => absurd (Finset.mem_univ k) hk,
          h.diagonal_eq] at hrow
        · refine (mul_eq_zero.mp hrow).resolve_left (h.diagonal_ne _ ?_)
          simp only [Fin.val_castLE]
          omega
        · rcases lt_or_gt_of_ne hc with hck | hkc
          · rw [block_isUpper _ _ _ k c hck, zero_mul]
          · rw [ih c (by omega), mul_zero]
      · exact ih k hge
  exact hj d.rank k (Nat.le_add_left _ _)

section Undamped

variable (h : Represents hm hn J r qy d)

include h

/-- **The undamped direction**, with its sign changed, solves the normal equations without damping,
also if the triangle is singular. -/
theorem isStep_undamped (D : Vec ℝ n) :
    IsStep J r D 0 (d.pivotColumns p) ((d.toColumns (d.undamped qy)).map fun x => -x) := by
  refine h.isStep (y := fun k => d.undamped qy (k.castLE hn)) ?_ ?_ ?_
  · intro c hc
    rw [Vec.map_apply, toColumns, Vec.ofFn_apply, undamped_of_le (h.rank_le.trans hc), neg_zero]
  · intro k
    rw [Vec.map_apply, toColumns_order h.order]
  · intro a
    rw [zero_mul, zero_mul, add_zero]
    rw [Mat.sum_gram_mul]
    refine Finset.sum_congr rfl fun i _ => ?_
    rcases lt_or_ge i.val d.rank with hi | hi
    · rw [h.solvable.undamped_row qy i hi]
    · rw [h.row_eq_zero i a hi, zero_mul, zero_mul]

theorem isUndamped :
    IsUndamped J r (d.pivotColumns p) (d.pivotColumns d.rank)
      ((d.toColumns (d.undamped qy)).map fun x => -x) := by
  refine (isStep_undamped h (Vec.replicate n 0)).isUndamped fun c hc => ?_
  rw [Vec.map_apply, toColumns, Vec.ofFn_apply, undamped_of_le, neg_zero]
  exact not_lt.mp fun hlt => hc ((mem_pivotColumns h.order).mpr hlt)

/-- **There is no other undamped step**. -/
theorem isUndamped_unique {x x' : Vec ℝ n}
    (hx : IsUndamped J r (d.pivotColumns p) (d.pivotColumns d.rank) x)
    (hx' : IsUndamped J r (d.pivotColumns p) (d.pivotColumns d.rank) x') : x = x' := by
  set z : Fin p → ℝ := fun k => x (d.order (k.castLE hn)) - x' (d.order (k.castLE hn)) with hz
  have hnormal (a : Fin p) : (∑ c, (∑ i, d.block hm hn i a * d.block hm hn i c) * z c) = 0 := by
    have ha : d.order (a.castLE hn) ∈ d.pivotColumns p :=
      (mem_pivotColumns h.order).mpr (by rw [pivotOf_order h.order]; exact a.isLt)
    have e := (hx.normal _ ha).trans (hx'.normal _ ha).symm
    rw [sum_pivotColumns h.order hn, sum_pivotColumns h.order hn] at e
    simp only [h.gram] at e
    simp only [hz, mul_sub, Finset.sum_sub_distrib]
    exact sub_eq_zero.mpr e
  have hsquares : ∑ i, (∑ c, d.block hm hn i c * z c) * (∑ c, d.block hm hn i c * z c) = 0 := by
    calc ∑ i, (∑ c, d.block hm hn i c * z c) * (∑ c, d.block hm hn i c * z c)
        = ∑ a, z a * ∑ c, (∑ i, d.block hm hn i a * d.block hm hn i c) * z c := by
          simp only [Finset.sum_mul, Finset.mul_sum]
          rw [Finset.sum_comm]
          refine Finset.sum_congr rfl fun a _ => ?_
          rw [Finset.sum_comm]
          exact Finset.sum_congr rfl fun c _ => Finset.sum_congr rfl fun i _ => by ring
      _ = 0 := Finset.sum_eq_zero fun a _ => by rw [hnormal, mul_zero]
  have hrows (i : Fin p) : (∑ c, d.block hm hn i c * z c) = 0 :=
    mul_self_eq_zero.mp ((Finset.sum_eq_zero_iff_of_nonneg fun i _ => mul_self_nonneg _).mp hsquares
      i (Finset.mem_univ i))
  have hout (k : Fin n) (hk : d.rank ≤ k.val) : x (d.order k) = x' (d.order k) := by
    have hc : d.order k ∉ d.pivotColumns d.rank := fun hmem =>
      absurd ((mem_pivotColumns h.order).mp hmem) (by rw [pivotOf_order h.order]; omega)
    rw [hx.outside _ hc, hx'.outside _ hc]
  refine Vec.ext fun c => ?_
  obtain ⟨k, rfl⟩ := Finite.surjective_of_injective h.order c
  rcases Nat.lt_or_ge k.val p with hk | hk
  · exact sub_eq_zero.mp (h.solvable.eq_zero_of_rows (z := z)
      (fun k hk => sub_eq_zero.mpr (hout _ hk)) hrows ⟨k.val, hk⟩)
  · exact hout k (h.rank_le.trans hk)

/-- **The damped direction**, with its sign changed, solves the damped normal equations. -/
theorem isStep_direction {D : Vec ℝ n} (hD : ∀ c, 0 < D c) {lambda : ℝ} (hl : 0 < lambda) :
    IsStep J r D lambda (d.pivotColumns p)
      ((d.direction hm hn (qy.take hm) (D.map (√lambda * ·))).direction.map fun x => -x) := by
  have hR := block_isUpper d hm hn
  set damping := d.gather hn (D.map (√lambda * ·)) with hdamping
  have hdiag (a : Fin p) : damping a = √lambda * D (d.order (a.castLE hn)) := by
    rw [hdamping, gather, Vec.ofFn_apply, Vec.map_apply]
  have hne (a : Fin p) : damping a ≠ 0 := by
    rw [hdiag]
    exact (mul_pos (Real.sqrt_pos.mpr hl) (hD _)).ne'
  have hfull := Damped.firstZero_solve (qy.take hm) damping hR hne
  refine h.isStep (y := (Damped.solve (d.block hm hn) (qy.take hm) damping).direction)
    ?_ ?_ ?_
  · intro c hc
    rw [Vec.map_apply, direction_direction, scatter, Vec.ofFn_apply, dif_neg (not_lt.mpr hc),
      neg_zero]
  · intro k
    rw [Vec.map_apply, direction_direction, scatter, Vec.ofFn_apply, pivotOf_order h.order]
    exact congrArg (fun x => -x) (dif_pos k.isLt)
  · intro a
    have hnormal := Damped.solve_normal (qy.take hm) damping hR (a := a)
      (by rw [hfull]; exact a.isLt)
    simp only [Vec.take_apply] at hnormal
    rw [← hnormal, hdiag]
    congr 1
    rw [mul_mul_mul_comm, Real.mul_self_sqrt hl.le, sq]

end Undamped

/-! ## The damping parameter -/

/-- What a search for the damping parameter finds: a step for it, in a decomposition that is used
only where it is not read. -/
structure Finds (hm : p ≤ m) (hn : p ≤ n) (J : Mat ℝ m n) (r qy : Vec ℝ m) (D : Vec ℝ n)
    (d : Decomposition ℝ m n) (found : Parameter ℝ m n) : Prop where
  isStep : IsStep J r D found.lambda (d.pivotColumns p) (found.direction.map fun x => -x)
  represents : Represents hm hn J r qy found.decomposition
  order_eq : found.decomposition.order = d.order
  rank_eq : found.decomposition.rank = d.rank

theorem leaveZero_pos {s : Damped.Newton ℝ} (hl : 0 ≤ s.lambda) : 0 < s.leaveZero.lambda := by
  unfold Damped.Newton.leaveZero
  split_ifs with h0
  · rw [Exact.larger_eq]
    exact lt_max_of_lt_left Exact.leastNormal_pos
  · exact lt_of_le_of_ne hl fun h => h0 ((Exact.beq_zero_iff _).mpr h.symm)

variable {D : Vec ℝ n} {δ : ℝ}

/-- **The Newton passes** end with a positive parameter and its damped direction. -/
theorem newton_spec (hD : ∀ c, 0 < D c) {left : Nat} {s : Damped.Newton ℝ}
    {d : Decomposition ℝ m n} (h : Represents hm hn J r qy d) (hl : 0 ≤ s.lambda)
    (hlo : 0 ≤ s.lower) (hu : 0 ≤ s.upper) :
    0 < (newton hm hn qy δ D left s d).lambda ∧
      Finds hm hn J r qy D d (newton hm hn qy δ D left s d) := by
  -- a pass that is the last one
  have last {s : Damped.Newton ℝ} {d : Decomposition ℝ m n} (h : Represents hm hn J r qy d)
      (hl : 0 < s.lambda) (passes : List (Damped.Newton ℝ)) :
      Finds hm hn J r qy D d ⟨s.lambda,
        (d.direction hm hn (qy.take hm) (D.map (√s.lambda * ·))).direction,
        (d.direction hm hn (qy.take hm) (D.map (√s.lambda * ·))).decomposition, passes⟩ := by
    refine ⟨isStep_direction h hD hl, ?_, ?_, ?_⟩
    all_goals rw [direction_decomposition]
    · exact h.withScratch _
    · rfl
    · rfl
  have hpos := leaveZero_pos hl
  induction left generalizing s d with
  | zero =>
    unfold newton
    simp only [ite_self]
    exact ⟨hpos, last h hpos _⟩
  | succ left ih =>
    obtain ⟨elo, eu⟩ := SignRule.leaveZero_bracket s
    unfold newton
    simp only
    split_ifs
    · exact ⟨hpos, last h hpos _⟩
    · obtain ⟨g1, g2, g3⟩ := Exact.signRule.newton_next hpos.le (elo ▸ hlo) (eu ▸ hu) _ _
      rw [direction_decomposition]
      obtain ⟨k1, k2⟩ := ih (h.withScratch _) g1 g2 g3 (leaveZero_pos g1)
      exact ⟨k1, k2.isStep, k2.represents, k2.order_eq, k2.rank_eq⟩

/-- The scaled length of a direction is that of its entries at the pivots. -/
theorem norm_toColumns (hd : Function.Injective d.order) (hn : p ≤ n) (D : Vec ℝ n) {x : Vec ℝ n}
    (hx : ∀ k : Fin n, p ≤ k.val → x k = 0) :
    norm (Damped.scaled D ((d.toColumns x).map fun x => -x)) =
      norm (Damped.scaled (d.gather hn D) (x.take hn)) := by
  rw [Exact.norm_eq, Exact.norm_eq]
  congr 1
  have hbij : Function.Bijective d.order := Finite.injective_iff_bijective.mp hd
  rw [← hbij.sum_comp]
  simp only [Damped.scaled, toColumns, gather, Vec.ofFn_apply, Vec.map_apply, Vec.take_apply,
    pivotOf_order hd]
  rw [sum_castLE hn fun l hl => by rw [hx l hl]; ring]
  exact Finset.sum_congr rfl fun k _ => by ring

/-- **The damping parameter** is not negative, its direction is a step for it, and it is zero
exactly if the undamped direction is not longer than the radius and a tenth of it; then that is the
direction. -/
theorem parameter_spec (h : Represents hm hn J r qy d) (hD : ∀ c, 0 < D c) (hδ : 0 < δ)
    {initial : ℝ} (hi : 0 ≤ initial) :
    let found := d.parameter hm hn qy δ D initial
    let undamped := (d.toColumns (d.undamped qy)).map fun x => -x
    0 ≤ found.lambda ∧ Finds hm hn J r qy D d found ∧
      (found.lambda = 0 ↔ norm (Damped.scaled D undamped) ≤ 11 / 10 * δ) ∧
      (found.lambda = 0 → found.direction = d.toColumns (d.undamped qy)) := by
  have hfit : SignRule.undampedExcess d hn qy δ D ≤ 0.1 * δ ↔
      norm (Damped.scaled D ((d.toColumns (d.undamped qy)).map fun x => -x)) ≤ 11 / 10 * δ := by
    rw [norm_toColumns h.order hn D fun k hk => undamped_of_le (h.rank_le.trans hk)]
    unfold SignRule.undampedExcess
    constructor <;> intro hle
    · linarith
    · linarith
  rcases Exact.signRule.parameter_cases d hm hn qy D hδ.le hi with
    ⟨hle, he⟩ | ⟨hgt, s, hl, hlo, hu, he⟩
  · simp only [he]
    exact ⟨le_rfl, ⟨isStep_undamped h D, h, rfl, rfl⟩, iff_of_true trivial (hfit.mp hle),
      fun _ => trivial⟩
  · have hnewton : 0 < (newton hm hn qy δ D Damped.furtherPasses s d).lambda ∧
        Finds hm hn J r qy D d (newton hm hn qy δ D Damped.furtherPasses s d) :=
      newton_spec hD h hl hlo hu
    obtain ⟨hpos, hfinds⟩ := hnewton
    simp only [he]
    exact ⟨hpos.le, hfinds, iff_of_false hpos.ne' fun hle => hgt (hfit.mpr hle),
      fun h0 => absurd h0 hpos.ne'⟩

end Decomposition

end LeastSquares
