import Mathlib.Analysis.Real.Sqrt
import LeastSquares.Linear.Spectral
import LeastSquares.Proofs.Exact

/-!
# Exact spectral factorizations

Eigenvectors and singular vectors come from iterations, so exact arithmetic has none of its own: it
takes them from a class `Exact.Factorizations`, which asks for no law. What a solver relies on is
said of single matrices, by `Eigen.Factors` and `Singular.Factors`.
-/

namespace LeastSquares

variable {m n : Nat}

namespace Exact

/-- Where exact arithmetic has its eigenvectors and its singular vectors from. -/
class Factorizations where
  eigen {n : Nat} : Mat ℝ n n → Eigen ℝ n
  singular {m n : Nat} : Mat ℝ m n → Singular ℝ m n

noncomputable instance spectral [F : Factorizations] : Spectral ℝ where
  toScalar := Exact.scalar
  eigen := F.eigen
  singular := F.singular

end Exact

/-- Columns of length one that are orthogonal to each other. -/
def Mat.Orthonormal (A : Mat ℝ m n) : Prop :=
  ∀ k l, ∑ i, A i k * A i l = if k = l then 1 else 0

/-- Eigenvalues and eigenvectors that multiply out to a matrix. -/
structure Eigen.Factors (e : Eigen ℝ n) (A : Mat ℝ n n) : Prop where
  orthonormal : e.vectors.Orthonormal
  product : ∀ i j, A i j = ∑ k, e.vectors i k * e.values k * e.vectors j k

/-- Singular values and vectors that multiply out to a matrix. -/
structure Singular.Factors (s : Singular ℝ m n) (A : Mat ℝ m n) : Prop where
  scale_ne_zero : s.scale ≠ 0
  left_orthonormal : s.left.Orthonormal
  right_orthonormal : s.right.Orthonormal
  values_nonneg : ∀ k, 0 ≤ s.values k
  product : ∀ i j, A i j = s.scale * ∑ k, s.left i k * s.values k * s.right j k

open Classical in
/-- Exact factorizations of all matrices that have them. -/
noncomputable abbrev Exact.factorizations : Exact.Factorizations where
  eigen A := if h : ∃ e : Eigen ℝ _, e.Factors A then h.choose
    else ⟨Vec.replicate _ 0, Mat.identity⟩
  singular A := if h : ∃ s : Singular ℝ _ _, s.Factors A then h.choose
    else ⟨1, Mat.ofFn fun _ _ => 0, Vec.replicate _ 0, Mat.ofFn fun _ _ => 0⟩

theorem Exact.factorizations_eigen {A : Mat ℝ n n} (h : ∃ e : Eigen ℝ n, e.Factors A) :
    (Exact.factorizations.eigen A).Factors A := by
  have hchosen : Exact.factorizations.eigen A = h.choose := dif_pos h
  exact hchosen ▸ h.choose_spec

theorem Exact.factorizations_singular {A : Mat ℝ m n} (h : ∃ s : Singular ℝ m n, s.Factors A) :
    (Exact.factorizations.singular A).Factors A := by
  have hchosen : Exact.factorizations.singular A = h.choose := dif_pos h
  exact hchosen ▸ h.choose_spec

end LeastSquares
