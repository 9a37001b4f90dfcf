import Mathlib.Algebra.QuadraticDiscriminant
import Mathlib.Analysis.Real.Sqrt
import Mathlib.LinearAlgebra.Matrix.DotProduct
import Mathlib.LinearAlgebra.Matrix.NonsingularInverse
import Mathlib.LinearAlgebra.Matrix.ToLinearEquiv
import Mathlib.Tactic.LinearCombination
import Mathlib.Topology.Instances.Matrix
import Mathlib.Topology.Order.IntermediateValue

/-!
# The secular equation

The scaled direction `y` of the damping parameter `λ` solves `(Bᵀ B + λ) y = g`, where `B` is the
triangle `R` and `g` the gradient, both with their columns divided by the scaling. The search for a
parameter looks for the root of the secular equation `‖y‖ = δ`. Its Newton steps are those on
`δ / ‖y‖ - 1`, which is concave in `λ`.

Results:
* `exists_shifted_eq`, `eq_of_shifted_eq`: every parameter has exactly one scaled direction;
* `tangent`: the tangent of the inverse length lies above it, which is its concavity;
* `newton_le`: so a Newton step never passes the root, from either side;
* `length_lt`: the length falls strictly;
* `exists_root`: there is a root if the undamped direction is too long.
-/

namespace LeastSquares.Secular

open Matrix

variable {p : Nat} {B : Matrix (Fin p) (Fin p) ℝ} {lambda mu delta : ℝ} {g u v w y z : Fin p → ℝ}

/-! ## Lengths -/

/-- The length of a vector. -/
noncomputable def length (y : Fin p → ℝ) : ℝ := √(y ⬝ᵥ y)

theorem dot_self_nonneg (y : Fin p → ℝ) : 0 ≤ y ⬝ᵥ y :=
  Finset.sum_nonneg fun i _ => mul_self_nonneg (y i)

theorem length_nonneg (y : Fin p → ℝ) : 0 ≤ length y := Real.sqrt_nonneg _

theorem length_sq (y : Fin p → ℝ) : length y ^ 2 = y ⬝ᵥ y := Real.sq_sqrt (dot_self_nonneg y)

theorem length_pos (hy : y ≠ 0) : 0 < length y :=
  Real.sqrt_pos.mpr <| lt_of_le_of_ne (dot_self_nonneg y) fun h =>
    hy (dotProduct_self_eq_zero.mp h.symm)

theorem dot_le_length_mul (y z : Fin p → ℝ) : y ⬝ᵥ z ≤ length y * length z := by
  have h := Real.sum_mul_le_sqrt_mul_sqrt Finset.univ y z
  simp only [sq] at h
  exact h

/-! ## The damped equations -/

/-- The left side `(Bᵀ B + λ) y` of the damped equations. -/
def shifted (B : Matrix (Fin p) (Fin p) ℝ) (lambda : ℝ) (y : Fin p → ℝ) : Fin p → ℝ :=
  Bᵀ *ᵥ (B *ᵥ y) + lambda • y

theorem shifted_sub (y z : Fin p → ℝ) :
    shifted B lambda (y - z) = shifted B lambda y - shifted B lambda z := by
  unfold shifted
  rw [mulVec_sub, mulVec_sub, smul_sub]
  abel

theorem shifted_smul (c : ℝ) (y : Fin p → ℝ) :
    shifted B lambda (c • y) = c • shifted B lambda y := by
  unfold shifted
  rw [mulVec_smul, mulVec_smul, smul_add, smul_comm]

theorem shifted_param (lambda mu : ℝ) (y : Fin p → ℝ) :
    shifted B mu y = shifted B lambda y + (mu - lambda) • y := by
  unfold shifted
  rw [sub_smul]
  abel

theorem dot_gram (y z : Fin p → ℝ) : y ⬝ᵥ (Bᵀ *ᵥ (B *ᵥ z)) = (B *ᵥ y) ⬝ᵥ (B *ᵥ z) := by
  rw [dotProduct_mulVec, vecMul_transpose]

theorem dot_shifted (y z : Fin p → ℝ) :
    y ⬝ᵥ shifted B lambda z = (B *ᵥ y) ⬝ᵥ (B *ᵥ z) + lambda * (y ⬝ᵥ z) := by
  unfold shifted
  rw [dotProduct_add, dot_gram, dotProduct_smul, smul_eq_mul]

/-- The matrix is symmetric. -/
theorem dot_shifted_comm (y z : Fin p → ℝ) :
    y ⬝ᵥ shifted B lambda z = shifted B lambda y ⬝ᵥ z := by
  rw [dotProduct_comm (shifted B lambda y), dot_shifted, dot_shifted, dotProduct_comm (B *ᵥ z),
    dotProduct_comm z]

/-- The product of two such matrices takes no vector to the other side. -/
theorem shifted_dot_shifted_nonneg (hl : 0 ≤ lambda) (hm : 0 ≤ mu) (y : Fin p → ℝ) :
    0 ≤ shifted B lambda y ⬝ᵥ shifted B mu y := by
  have h : shifted B lambda y ⬝ᵥ shifted B mu y =
      (Bᵀ *ᵥ (B *ᵥ y)) ⬝ᵥ (Bᵀ *ᵥ (B *ᵥ y)) + (lambda + mu) * ((B *ᵥ y) ⬝ᵥ (B *ᵥ y)) +
        lambda * mu * (y ⬝ᵥ y) := by
    unfold shifted
    simp only [add_dotProduct, dotProduct_add, smul_dotProduct, dotProduct_smul, smul_eq_mul,
      dot_gram, dotProduct_comm _ y]
    ring
  rw [h]
  have h₁ := dot_self_nonneg (Bᵀ *ᵥ (B *ᵥ y))
  have h₂ := mul_nonneg (add_nonneg hl hm) (dot_self_nonneg (B *ᵥ y))
  have h₃ := mul_nonneg (mul_nonneg hl hm) (dot_self_nonneg y)
  linarith

section Regular

variable (hB : ∀ y, B *ᵥ y = 0 → y = 0)

include hB

theorem dot_shifted_self_pos (hl : 0 ≤ lambda) (hy : y ≠ 0) : 0 < y ⬝ᵥ shifted B lambda y := by
  have hne : B *ᵥ y ≠ 0 := fun h => hy (hB y h)
  have hpos : 0 < (B *ᵥ y) ⬝ᵥ (B *ᵥ y) := by
    rw [← length_sq]
    exact pow_pos (length_pos hne) 2
  rw [dot_shifted]
  exact add_pos_of_pos_of_nonneg hpos (mul_nonneg hl (dot_self_nonneg y))

theorem eq_zero_of_shifted (hl : 0 ≤ lambda) (h : shifted B lambda y = 0) : y = 0 := by
  by_contra hy
  have hpos := dot_shifted_self_pos hB hl hy
  rw [h, dotProduct_zero] at hpos
  exact lt_irrefl _ hpos

/-- **There is one solution at most**. -/
theorem eq_of_shifted_eq (hl : 0 ≤ lambda) (h : shifted B lambda y = shifted B lambda z) :
    y = z :=
  sub_eq_zero.mp (eq_zero_of_shifted hB hl (by rw [shifted_sub, h, sub_self]))

theorem det_ne_zero (hl : 0 ≤ lambda) :
    (Bᵀ * B + lambda • (1 : Matrix (Fin p) (Fin p) ℝ)).det ≠ 0 := by
  intro hdet
  obtain ⟨y, hy, h⟩ := exists_mulVec_eq_zero_iff.mpr hdet
  refine hy (eq_zero_of_shifted hB hl ?_)
  rw [← h, add_mulVec, smul_mulVec, one_mulVec, ← mulVec_mulVec]
  rfl

/-- The solution of the damped equations. -/
noncomputable def solution (B : Matrix (Fin p) (Fin p) ℝ) (g : Fin p → ℝ) (lambda : ℝ) :
    Fin p → ℝ :=
  (Bᵀ * B + lambda • (1 : Matrix (Fin p) (Fin p) ℝ))⁻¹ *ᵥ g

theorem shifted_solution (hl : 0 ≤ lambda) (g : Fin p → ℝ) :
    shifted B lambda (solution B g lambda) = g := by
  have hunit := isUnit_iff_ne_zero.mpr (det_ne_zero hB hl)
  have h : shifted B lambda (solution B g lambda) =
      (Bᵀ * B + lambda • (1 : Matrix (Fin p) (Fin p) ℝ)) *ᵥ solution B g lambda := by
    rw [add_mulVec, smul_mulVec, one_mulVec, ← mulVec_mulVec]
    rfl
  rw [h, solution, mulVec_mulVec, mul_nonsing_inv _ hunit, one_mulVec]

/-- **There is a solution**. -/
theorem exists_shifted_eq (hl : 0 ≤ lambda) (g : Fin p → ℝ) : ∃ y, shifted B lambda y = g :=
  ⟨_, shifted_solution hB hl g⟩

theorem continuousOn_solution (g : Fin p → ℝ) : ContinuousOn (solution B g) (Set.Ici 0) := by
  rw [continuousOn_iff_continuous_domRestrict]
  have hM : Continuous fun l : Set.Ici (0 : ℝ) =>
      Bᵀ * B + l.val • (1 : Matrix (Fin p) (Fin p) ℝ) := by fun_prop
  have hinv : Continuous fun l : Set.Ici (0 : ℝ) =>
      (Bᵀ * B + l.val • (1 : Matrix (Fin p) (Fin p) ℝ))⁻¹ := by
    simp only [inv_def, Ring.inverse_eq_inv']
    exact (hM.matrix_det.inv₀ fun l => det_ne_zero hB l.2).smul hM.matrix_adjugate
  exact hinv.matrix_mulVec continuous_const

end Regular

/-! ## The length as a function of the parameter -/

section Tangent

variable (hl : 0 ≤ lambda) (hm : 0 ≤ mu) (hy : shifted B lambda y = g) (hz : shifted B mu z = g)
  (hv : shifted B lambda v = y) (hu : shifted B lambda u = z)

include hl hm hy hz hv hu

/-- The Cauchy-Schwarz inequality of the product of the two matrices, for the vectors `v` and
`u`. -/
theorem tangent_product :
    0 ≤ y ⬝ᵥ y + (mu - lambda) * (y ⬝ᵥ v) ∧
      (y ⬝ᵥ y) ^ 2 ≤ (y ⬝ᵥ y + (mu - lambda) * (y ⬝ᵥ v)) * (y ⬝ᵥ z) := by
  have hyz : shifted B lambda y = shifted B lambda z + (mu - lambda) • z := by
    rw [hy, ← shifted_param lambda mu z, hz]
  have hvz : y ⬝ᵥ y = y ⬝ᵥ z + (mu - lambda) * (v ⬝ᵥ z) := by
    have h := congrArg (v ⬝ᵥ ·) hyz
    simp only [dotProduct_add, dotProduct_smul, dot_shifted_comm, hv, smul_eq_mul] at h
    exact h
  have huz : y ⬝ᵥ z = z ⬝ᵥ z + (mu - lambda) * (u ⬝ᵥ z) := by
    have h := congrArg (u ⬝ᵥ ·) hyz
    simp only [dotProduct_add, dotProduct_smul, dot_shifted_comm, hu, smul_eq_mul] at h
    rw [dotProduct_comm y z]
    exact h
  have hyu : y ⬝ᵥ u = v ⬝ᵥ z := by rw [← hv, ← dot_shifted_comm, hu]
  have hquad (s : ℝ) : 0 ≤ y ⬝ᵥ z * (s * s) + -2 * (y ⬝ᵥ y) * s +
      (y ⬝ᵥ y + (mu - lambda) * (y ⬝ᵥ v)) := by
    have h := shifted_dot_shifted_nonneg (B := B) hl hm (v - s • u)
    have e : shifted B lambda (v - s • u) = y - s • z := by
      rw [shifted_sub, shifted_smul, hv, hu]
    rw [shifted_param lambda mu, e] at h
    simp only [sub_dotProduct, dotProduct_add, dotProduct_sub, dotProduct_smul, smul_dotProduct,
      smul_eq_mul, dotProduct_comm z y, dotProduct_comm z v, dotProduct_comm z u, hyu] at h
    linear_combination h - s * s * huz + 2 * s * hvz
  have hdiscrim := discrim_le_zero hquad
  have hzero := hquad 0
  unfold discrim at hdiscrim
  constructor
  · linarith
  · linarith

/-- **The tangent of the inverse length**: its value at another parameter is not above it. -/
theorem tangent :
    length y ^ 3 ≤ length z * (length y ^ 2 + (mu - lambda) * (y ⬝ᵥ v)) := by
  obtain ⟨hslope, hproduct⟩ := tangent_product hl hm hy hz hv hu
  rw [← length_sq] at hslope hproduct
  rcases (length_nonneg y).eq_or_lt with h0 | hpos
  · rw [← h0] at hslope ⊢
    exact le_trans (by norm_num) (mul_nonneg (length_nonneg z) hslope)
  · have h : length y * length y ^ 3 ≤
        length y * (length z * (length y ^ 2 + (mu - lambda) * (y ⬝ᵥ v))) := by
      calc length y * length y ^ 3 = (length y ^ 2) ^ 2 := by ring
        _ ≤ (length y ^ 2 + (mu - lambda) * (y ⬝ᵥ v)) * (y ⬝ᵥ z) := hproduct
        _ ≤ (length y ^ 2 + (mu - lambda) * (y ⬝ᵥ v)) * (length y * length z) :=
          mul_le_mul_of_nonneg_left (dot_le_length_mul y z) hslope
        _ = _ := by ring
    exact le_of_mul_le_mul_left h hpos

end Tangent

theorem ne_zero_of_shifted (hg : g ≠ 0) (hy : shifted B lambda y = g) : y ≠ 0 := by
  rintro rfl
  refine hg (hy.symm.trans ?_)
  unfold shifted
  rw [mulVec_zero, mulVec_zero, smul_zero, add_zero]

/-- The product of the parameter and the length is bounded by the right-hand side. -/
theorem mul_length_le (hy : shifted B lambda y = g) : lambda * length y ≤ length g := by
  rcases (length_nonneg y).eq_or_lt with h0 | hpos
  · rw [← h0, mul_zero]
    exact length_nonneg g
  · have h : length y * (lambda * length y) ≤ length y * length g := by
      calc length y * (lambda * length y) = lambda * (y ⬝ᵥ y) := by
            rw [← length_sq]
            ring
        _ ≤ y ⬝ᵥ shifted B lambda y := by
            rw [dot_shifted]
            exact le_add_of_nonneg_left (dot_self_nonneg _)
        _ ≤ length y * length g := hy ▸ dot_le_length_mul y _
    exact le_of_mul_le_mul_left h hpos

section Root

variable (hB : ∀ y, B *ᵥ y = 0 → y = 0)

include hB

theorem dot_pos_of_shifted (hl : 0 ≤ lambda) (hy : y ≠ 0) (hv : shifted B lambda v = y) :
    0 < y ⬝ᵥ v := by
  have hpos := dot_shifted_self_pos hB hl (ne_zero_of_shifted hy hv)
  rwa [dot_shifted_comm, hv] at hpos

/-- **The length falls strictly** as the parameter grows. -/
theorem length_lt (hl : 0 ≤ lambda) (hlt : lambda < mu) (hy : shifted B lambda y = g)
    (hz : shifted B mu z = g) (hg : g ≠ 0) : length z < length y := by
  have hm := hl.trans hlt.le
  obtain ⟨v, hv⟩ := exists_shifted_eq hB hm z
  obtain ⟨u, hu⟩ := exists_shifted_eq hB hm y
  have htangent := tangent hm hl hz hy hv hu
  have hzv := dot_pos_of_shifted hB hm (ne_zero_of_shifted hg hz) hv
  have hslope : (lambda - mu) * (z ⬝ᵥ v) < 0 := mul_neg_of_neg_of_pos (sub_neg.mpr hlt) hzv
  have h : length z * length z ^ 2 < length y * length z ^ 2 := by
    calc length z * length z ^ 2 = length z ^ 3 := by ring
      _ ≤ length y * (length z ^ 2 + (lambda - mu) * (z ⬝ᵥ v)) := htangent
      _ < length y * length z ^ 2 :=
        mul_lt_mul_of_pos_left (by linarith) (length_pos (ne_zero_of_shifted hg hy))
  exact lt_of_mul_lt_mul_right h (sq_nonneg _)

/-- **A Newton step does not pass the root**. The number `t` is the slope of the inverse length in
units of the inverse length. -/
theorem newton_le (hl : 0 ≤ lambda) (hm : 0 ≤ mu) (hg : g ≠ 0) (hy : shifted B lambda y = g)
    (hz : shifted B mu z = g) (hd : 0 < delta) (hroot : length z = delta)
    (hv : shifted B lambda v = y) {t : ℝ} (ht : y ⬝ᵥ v = length y ^ 2 * t) :
    0 < t ∧ lambda + (length y - delta) / (delta * t) ≤ mu := by
  obtain ⟨u, hu⟩ := exists_shifted_eq hB hl z
  have htangent := tangent hl hm hy hz hv hu
  have hsq : 0 < length y ^ 2 := pow_pos (length_pos (ne_zero_of_shifted hg hy)) 2
  have htpos : 0 < t := by
    have hpos := dot_pos_of_shifted hB hl (ne_zero_of_shifted hg hy) hv
    rw [ht] at hpos
    exact (mul_pos_iff_of_pos_left hsq).mp hpos
  refine ⟨htpos, ?_⟩
  rw [hroot, ht] at htangent
  have h : length y ≤ delta + (mu - lambda) * (delta * t) := by
    refine le_of_mul_le_mul_right ?_ hsq
    calc length y * length y ^ 2 = length y ^ 3 := by ring
      _ ≤ delta * (length y ^ 2 + (mu - lambda) * (length y ^ 2 * t)) := htangent
      _ = (delta + (mu - lambda) * (delta * t)) * length y ^ 2 := by ring
  have hstep : (length y - delta) / (delta * t) ≤ mu - lambda :=
    (div_le_iff₀ (mul_pos hd htpos)).mpr (by linarith)
  linarith

/-- **The root** of the secular equation. -/
theorem exists_root (hd : 0 < delta) (hy : shifted B 0 y = g) (hlong : delta < length y) :
    ∃ mu, 0 < mu ∧ mu ≤ length g / delta ∧ length (solution B g mu) = delta := by
  have hstart : solution B g 0 = y :=
    eq_of_shifted_eq hB le_rfl ((shifted_solution hB le_rfl g).trans hy.symm)
  have hbound : 0 ≤ length g / delta := div_nonneg (length_nonneg g) hd.le
  have hg : g ≠ 0 := by
    rintro rfl
    obtain rfl := eq_zero_of_shifted hB le_rfl hy
    rw [length, dotProduct_zero, Real.sqrt_zero] at hlong
    exact hd.not_gt hlong
  have hend : length (solution B g (length g / delta)) ≤ delta := by
    have h := mul_length_le (shifted_solution hB hbound g)
    rw [div_mul_eq_mul_div, div_le_iff₀ hd] at h
    exact le_of_mul_le_mul_left h (length_pos hg)
  have hlength : Continuous (length (p := p)) :=
    Real.continuous_sqrt.comp (continuous_id.dotProduct continuous_id)
  have hcont : ContinuousOn (fun l => length (solution B g l)) (Set.Icc 0 (length g / delta)) :=
    hlength.comp_continuousOn ((continuousOn_solution hB g).mono Set.Icc_subset_Ici_self)
  obtain ⟨mu, ⟨hm, hle⟩, hmu⟩ := intermediate_value_Icc' hbound hcont
    ⟨hend, by rw [hstart]; exact hlong.le⟩
  refine ⟨mu, lt_of_le_of_ne hm ?_, hle, hmu⟩
  rintro rfl
  exact hlong.ne' ((congrArg length hstart).symm.trans hmu)

end Root

end LeastSquares.Secular
