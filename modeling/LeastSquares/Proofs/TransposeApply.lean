import LeastSquares.Damped.Access
import LeastSquares.Proofs.Damping
import LeastSquares.Proofs.NormalEquations

/-!
# Applying the transpose

`Decomposition.transposeApply` runs over all columns, also those behind the rank and, in a wide
matrix, those behind the last row: there the factor of the reflection is zero or the vector is
empty. So in exact arithmetic it applies the transpose of the same `Q` that takes `-J P` to the
triangle, and its results agree with the triangle wherever nothing is left behind the pivots: the
projection of an image `-J x` is `R Pᵀ x`, and the products of the projected vector with `R` are
those of the vector with `-J P`.

Results:
* `Factored.transposeApply_image`: the projection of an image, also where something is left;
* `Factored.rMatrix_moment`: the products with the triangle;
* `ofJacobian_appliesTranspose`: for every matrix and threshold, on a fresh decomposition.
-/

namespace LeastSquares.Decomposition

open Matrix

variable {m n : Nat} {d : Decomposition ℝ m n} {J : Mat ℝ m n} {t : ℝ}

/-- The image of a vector under the negated Jacobian. -/
noncomputable def negImage (J : Mat ℝ m n) (x : Vec ℝ n) : Vec ℝ m := (J.mulVec x).map fun y => -y

/-- The image of a vector by its entries at the pivots. -/
theorem permuted_mulVec (h : Function.Bijective d.order) (x : Vec ℝ n) :
    d.permuted J *ᵥ (d.toPivots x).get = (negImage J x).get := by
  funext i
  simp only [mulVec, dotProduct, permuted, toPivots, negImage, Vec.ofFn_apply, Vec.map_apply,
    Mat.mulVec_apply, Exact.sum_eq, neg_mul, Finset.sum_neg_distrib]
  rw [h.sum_comp fun c => J i c * x c]

/-- **The projection of an image.** -/
theorem Factored.transposeApply_image (h : Factored J t d) (x : Vec ℝ n) :
    (d.transposeApply (negImage J x)).get = d.reduced d.rank *ᵥ (d.toPivots x).get := by
  funext i
  rw [h.transposeApply_eq, ← permuted_mulVec (Finite.injective_iff_bijective.mp h.order),
    mulVec_mulVec, h.factors]

theorem filledR_castLE (d : Decomposition ℝ m n) (i : Fin (min m n)) (k : Fin n) :
    d.filledR (i.castLE (Nat.min_le_left m n)) k = d.rMatrix i k := dif_pos i.isLt

/-- **The products with the triangle** of a projected vector. -/
theorem Factored.rMatrix_moment (h : Factored J t d) (h0 : d.LeavesNothing) (r : Vec ℝ m)
    (k : Fin n) :
    (∑ i, d.rMatrix i k * d.transposeApply r (i.castLE (Nat.min_le_left m n))) =
      -∑ i, J i (d.order k) * r i := by
  have hbelow (i : Fin m) (hi : min m n ≤ i.val) : d.filledR i k * d.transposeApply r i = 0 := by
    unfold filledR
    rw [dif_neg (not_lt.mpr hi), zero_mul]
  rw [h.moment, neg_neg, ← h.filledR_eq h0, sum_castLE (Nat.min_le_left m n) hbelow]
  simp only [filledR_castLE]

/-- **What `Qᵀ` of a decomposition does**: it is the transpose of the product of the reflections,
and where nothing is left behind the pivots it agrees with the triangle. -/
structure AppliesTranspose (J : Mat ℝ m n) (d : Decomposition ℝ m n) : Prop where
  /-- A caller's list of one entry per row is projected. -/
  applied : ∀ y : Vec ℝ m, d.transposeApplyTo y.toList = .ok (d.transposeApply y).toList
  transpose : ∀ (y : Vec ℝ m) (i : Fin m),
    d.transposeApply y i = ((d.orthogonal d.rank)ᵀ *ᵥ y.get) i
  norm_eq : ∀ y : Vec ℝ m, norm (d.transposeApply y) = norm y
  factor : d.LeavesNothing → (d.orthogonal d.rank)ᵀ * d.permuted J = d.filledR
  image : d.LeavesNothing → ∀ (x : Vec ℝ n) (i : Fin (min m n)),
    d.transposeApply (negImage J x) (i.castLE (Nat.min_le_left m n)) =
      ∑ k, d.rMatrix i k * d.toPivots x k
  image_beyond : d.LeavesNothing → ∀ (x : Vec ℝ n) (i : Fin m), d.rank ≤ i.val →
    d.transposeApply (negImage J x) i = 0
  moment : d.LeavesNothing → ∀ (r : Vec ℝ m) (k : Fin n),
    (∑ i, d.rMatrix i k * d.transposeApply r (i.castLE (Nat.min_le_left m n))) =
      -∑ i, J i (d.order k) * r i

theorem Factored.appliesTranspose (h : Factored J t d) : AppliesTranspose J d where
  applied y := by
    unfold transposeApplyTo
    rw [Vec.ofList?_toList]
  transpose := h.transposeApply_eq
  norm_eq y := by
    rw [Exact.norm_eq, Exact.norm_eq]
    simp only [← sq, h.sum_transposeApply_sq]
  factor h0 := h.factors.trans (h.filledR_eq h0).symm
  image h0 x i := by
    rw [h.transposeApply_image, ← h.filledR_eq h0, mulVec, dotProduct]
    simp only [filledR_castLE]
  image_beyond h0 x i hi := by
    rw [h.transposeApply_image, mulVec, dotProduct]
    exact Finset.sum_eq_zero fun k _ => mul_eq_zero_of_left (h0.reduced_eq_zero hi k) _
  moment h0 := h.rMatrix_moment h0

/-- **Headline.** For every matrix, of any shape, and every threshold that is not negative, the
projection by a fresh decomposition is that by the `Q` of its factorization. At the threshold zero
nothing is left behind the pivots. -/
theorem ofJacobian_appliesTranspose (J : Mat ℝ m n) (ht : 0 ≤ t) :
    ∃ d, ofJacobian J t = .ok d ∧ IsQR J t d ∧ AppliesTranspose J d ∧ (t = 0 → d.LeavesNothing) := by
  obtain ⟨d, hd, h⟩ := exists_ofJacobian J ht
  refine ⟨d, hd, h.isQR, h.appliesTranspose, fun h0 => ?_⟩
  subst h0
  exact h.leavesNothing

theorem ofJacobian_appliesTranspose_wideMatrix :
    (0 : ℝ) ≤ 0 ∧ ∃ d, ofJacobian wideMatrix 0 = .ok d ∧ IsQR wideMatrix 0 d ∧
      AppliesTranspose wideMatrix d ∧ ((0 : ℝ) = 0 → d.LeavesNothing) :=
  ⟨le_rfl, ofJacobian_appliesTranspose wideMatrix le_rfl⟩

end LeastSquares.Decomposition
