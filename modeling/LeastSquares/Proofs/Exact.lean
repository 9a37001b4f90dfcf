import Mathlib.Algebra.BigOperators.Fin
import Mathlib.Analysis.Real.Sqrt
import Mathlib.Data.Matrix.Mul
import Mathlib.Tactic.Linarith
import Mathlib.Tactic.Ring
import LeastSquares.Linear.Triangular

/-!
# Exact arithmetic

The real numbers as a `Scalar`: nothing is rounded, every number is finite and a number equals
itself. Division by zero and the root of a negative number have the value zero, as in Mathlib.

The sums and norms of the library are then the sums and norms of mathematics (`sum_eq`,
`sumOver_eq`, `lessUpOver_eq`, `lessDownOver_eq`, `dot_eq`, `norm_eq`), the larger of two numbers
is their `max`, and the substitutions in triangular matrices solve their systems:
* `solveUpper_apply`, `solveTransposed_apply`: entry by entry, the row of the system that the entry
  was found from;
* `solveUpper_row`, `solveTransposed_row`: a row whose diagonal entry is not zero holds;
* `solveUpperByColumns_eq`, `solveTransposedByColumns_eq`: the order of operations does not matter.
-/

namespace LeastSquares

noncomputable instance Exact.scalar : Scalar ℝ where
  sqrt := Real.sqrt
  abs x := |x|
  isFinite _ := true
  truncate x := if 0 ≤ x then ⌊x⌋ else ⌈x⌉
  decLt := inferInstance
  decLe := inferInstance

variable {n : Nat}

namespace Exact

/-! ## Comparisons -/

theorem larger_eq (a b : ℝ) : Scalar.larger a b = max a b := by
  unfold Scalar.larger
  split_ifs with h
  · exact (max_eq_right h.le).symm
  · exact (max_eq_left (not_lt.mp h)).symm

theorem smaller_eq (a b : ℝ) : Scalar.smaller a b = min a b := by
  unfold Scalar.smaller
  split_ifs with h
  · exact (min_eq_right h.le).symm
  · exact (min_eq_left (not_lt.mp h)).symm

theorem beq_iff (a b : ℝ) : (a == b) = true ↔ a = b := decide_eq_true_iff

theorem beq_zero_iff (a : ℝ) : (a == 0) = true ↔ a = 0 := beq_iff a 0

/-- No real number is undefined. -/
theorem isUndefined_eq (a : ℝ) : Scalar.isUndefined a = false := by
  simp only [Scalar.isUndefined, (beq_iff a a).mpr rfl, Bool.not_true]

theorem largest_eq (a b : ℝ) : Scalar.largest a b = max a b := by
  unfold Scalar.largest
  rw [isUndefined_eq, isUndefined_eq]
  exact larger_eq a b

/-- A negative power of two is positive. -/
theorem one_div_two_pow_pos (k : Nat) : (0 : ℝ) < 1 / (Nat.pow 2 k : Nat) :=
  div_pos one_pos (Nat.cast_pos.mpr (Nat.pow_pos Nat.two_pos))

/-- A running maximum is at least where it starts, and at least every term that it takes in. -/
theorem le_foldl_max (p : Fin n → Prop) [DecidablePred p] (f : Fin n → ℝ) (b : ℝ) :
    b ≤ Fin.foldl n (fun c i => if p i then max c (f i) else c) b ∧
      ∀ i, p i → f i ≤ Fin.foldl n (fun c i => if p i then max c (f i) else c) b := by
  have h (l : List (Fin n)) (c : ℝ) :
      c ≤ l.foldl (fun c i => if p i then max c (f i) else c) c ∧
        ∀ i ∈ l, p i → f i ≤ l.foldl (fun c i => if p i then max c (f i) else c) c := by
    induction l generalizing c with
    | nil => exact ⟨le_rfl, fun i hi => absurd hi List.not_mem_nil⟩
    | cons a l ih =>
      rw [List.foldl_cons]
      obtain ⟨h1, h2⟩ := ih (if p a then max c (f a) else c)
      refine ⟨le_trans ?_ h1, fun i hi hp => ?_⟩
      · split_ifs
        · exact le_max_left _ _
        · exact le_rfl
      · rcases List.mem_cons.mp hi with rfl | hi
        · refine le_trans ?_ h1
          rw [if_pos hp]
          exact le_max_right _ _
        · exact h2 i hi hp
  rw [Fin.foldl_eq_finRange_foldl]
  exact ⟨(h _ b).1, fun i hp => (h _ b).2 i (List.mem_finRange i) hp⟩

/-- A running maximum of all terms is at least where it starts. -/
theorem le_foldl_larger (f : Fin n → ℝ) (b : ℝ) :
    b ≤ Fin.foldl n (fun c i => Scalar.larger c (f i)) b := by
  simp only [larger_eq]
  simpa only [if_true] using (le_foldl_max (fun _ => True) f b).1

theorem leastNormal_pos : (0 : ℝ) < Scalar.leastNormal := by
  unfold Scalar.leastNormal
  -- the exponent as a variable keeps the power from being computed
  generalize 1022 = k
  exact one_div_two_pow_pos k

/-! ## Sums -/

theorem sum_eq (f : Fin n → ℝ) : sum f = ∑ i, f i := by
  unfold sum
  induction n with
  | zero => rfl
  | succ n ih => rw [Fin.foldl_succ_last, Fin.sum_univ_castSucc, ← ih]

theorem sumOver_eq (p : Fin n → Prop) [DecidablePred p] (f : Fin n → ℝ) :
    sumOver p f = ∑ i, if p i then f i else 0 := by
  rw [← sum_eq]
  unfold sumOver sum
  congr 1
  funext s i
  by_cases h : p i
  · simp only [if_pos h]
  · simp only [if_neg h, add_zero]

theorem lessUpOver_eq (p : Fin n → Prop) [DecidablePred p] (b : ℝ) (f : Fin n → ℝ) :
    lessUpOver p b f = b - ∑ i, if p i then f i else 0 := by
  have h (l : List (Fin n)) (b : ℝ) : l.foldl (fun s i => if p i then s - f i else s) b =
      b - (l.map fun i => if p i then f i else 0).sum := by
    induction l generalizing b with
    | nil => exact (sub_zero b).symm
    | cons i l ih =>
      rw [List.foldl_cons, ih, List.map_cons, List.sum_cons]
      split_ifs <;> ring
  unfold lessUpOver
  rw [h, Fin.sum_univ_def]

theorem lessDownOver_eq (p : Fin n → Prop) [DecidablePred p] (b : ℝ) (f : Fin n → ℝ) :
    lessDownOver p b f = b - ∑ i, if p i then f i else 0 := by
  have h (l : List (Fin n)) : l.foldr (fun i s => if p i then s - f i else s) b =
      b - (l.map fun i => if p i then f i else 0).sum := by
    induction l with
    | nil => exact (sub_zero b).symm
    | cons i l ih =>
      rw [List.foldr_cons, ih, List.map_cons, List.sum_cons]
      split_ifs <;> ring
  unfold lessDownOver
  rw [h, Fin.sum_univ_def]

theorem dot_eq (u v : Vec ℝ n) : dot u v = ∑ i, u i * v i := sum_eq _

theorem norm_eq (v : Vec ℝ n) : norm v = √(∑ i, v i * v i) := congrArg Real.sqrt (dot_eq v v)

theorem norm_nonneg (v : Vec ℝ n) : 0 ≤ norm v := Real.sqrt_nonneg _

open Matrix in
theorem dotProduct_self_nonneg (v : Fin n → ℝ) : 0 ≤ v ⬝ᵥ v :=
  Finset.sum_nonneg fun i _ => mul_self_nonneg (v i)

open Matrix in
theorem norm_sq (v : Vec ℝ n) : norm v ^ 2 = v.get ⬝ᵥ v.get :=
  (congrArg (· ^ 2) (norm_eq v)).trans (Real.sq_sqrt (dotProduct_self_nonneg v.get))

theorem norm_single (v : Vec ℝ 1) : norm v = |v 0| := by
  rw [norm_eq, Fin.sum_univ_one, Real.sqrt_mul_self_eq_abs]

end Exact

/-! ## Substitution -/

/-- The indices from `k` on, one after the other. -/
theorem drop_finRange {k : Nat} (hk : k < n) :
    (List.finRange n).drop k = ⟨k, hk⟩ :: (List.finRange n).drop (k + 1) := by
  rw [List.drop_eq_getElem_cons (by rwa [List.length_finRange]), List.getElem_finRange]
  rfl

namespace Triangular

variable {α : Type}

/-- Filling a vector from its last entry to its first, each entry from those behind it, leaves in
every entry what the rule gives for it. -/
theorem foldr_set_apply {f : Fin n → Vec α n → α}
    (hf : ∀ j x y, (∀ i, j < i → x i = y i) → f j x = f j y) (x₀ : Vec α n) (j : Fin n) :
    (List.finRange n).foldr (fun j x => x.set j (f j x)) x₀ j =
      f j ((List.finRange n).foldr (fun j x => x.set j (f j x)) x₀) := by
  -- a later step of the fold sets a smaller index, which no rule of a larger one reads
  have h (l : List (Fin n)) (hl : l.Pairwise (· < ·)) : ∀ j ∈ l,
      l.foldr (fun j x => x.set j (f j x)) x₀ j =
        f j (l.foldr (fun j x => x.set j (f j x)) x₀) := by
    induction l with
    | nil => exact fun j hj => absurd hj List.not_mem_nil
    | cons a l ih =>
      obtain ⟨ha, hl⟩ := List.pairwise_cons.mp hl
      have keep (i : Fin n) (hi : a < i) :
          (a :: l).foldr (fun j x => x.set j (f j x)) x₀ i =
            l.foldr (fun j x => x.set j (f j x)) x₀ i := by
        rw [List.foldr_cons, Vec.set_apply, if_neg hi.ne']
      intro j hj
      rcases List.mem_cons.mp hj with rfl | hj
      · rw [hf j _ _ keep, List.foldr_cons, Vec.set_apply, if_pos rfl]
      · rw [keep j (ha j hj), ih hl j hj]
        exact hf j _ _ fun i hi => (keep i ((ha j hj).trans hi)).symm
  exact h _ (List.pairwise_lt_finRange n) j (List.mem_finRange j)

/-- Filling a vector from its first entry to its last, each entry from those before it. -/
theorem foldl_set_apply {f : Fin n → Vec α n → α}
    (hf : ∀ j x y, (∀ i, i < j → x i = y i) → f j x = f j y) (x₀ : Vec α n) (j : Fin n) :
    (List.finRange n).foldl (fun x j => x.set j (f j x)) x₀ j =
      f j ((List.finRange n).foldl (fun x j => x.set j (f j x)) x₀) := by
  have h (l : List (Fin n)) (hl : l.Pairwise (· < ·)) : ∀ j ∈ l,
      l.foldl (fun x j => x.set j (f j x)) x₀ j =
        f j (l.foldl (fun x j => x.set j (f j x)) x₀) := by
    induction l using List.reverseRecOn with
    | nil => exact fun j hj => absurd hj List.not_mem_nil
    | append_singleton l a ih =>
      obtain ⟨hl, -, ha⟩ := List.pairwise_append.mp hl
      have keep (i : Fin n) (hi : i < a) :
          (l ++ [a]).foldl (fun x j => x.set j (f j x)) x₀ i =
            l.foldl (fun x j => x.set j (f j x)) x₀ i := by
        rw [List.foldl_append, List.foldl_cons, List.foldl_nil, Vec.set_apply, if_neg hi.ne]
      intro j hj
      rcases List.mem_append.mp hj with hj | hj
      · have hja := ha j hj a (List.mem_singleton_self a)
        rw [keep j hja, ih hl j hj]
        exact hf j _ _ fun i hi => (keep i (hi.trans hja)).symm
      · obtain rfl := List.mem_singleton.mp hj
        rw [hf j _ _ keep, List.foldl_append, List.foldl_cons, List.foldl_nil, Vec.set_apply,
          if_pos rfl]
  exact h _ (List.pairwise_lt_finRange n) j (List.mem_finRange j)

/-- A sum as one of its terms and those of a property, if the others are zero. -/
theorem sum_eq_add {f : Fin n → ℝ} {j : Fin n} {p : Fin n → Prop} [DecidablePred p] (hj : ¬ p j)
    (h : ∀ i, i ≠ j → ¬ p i → f i = 0) : (∑ i, f i) = f j + ∑ i, if p i then f i else 0 := by
  have hterm (i : Fin n) : f i = (if i = j then f j else 0) + if p i then f i else 0 := by
    by_cases hi : i = j
    · rw [if_pos hi, if_neg (hi ▸ hj), add_zero, hi]
    · by_cases hp : p i
      · rw [if_neg hi, if_pos hp, zero_add]
      · rw [if_neg hi, if_neg hp, add_zero, h i hi hp]
  rw [Finset.sum_congr rfl fun i _ => hterm i, Finset.sum_add_distrib, Finset.sum_ite_eq',
    if_pos (Finset.mem_univ j)]

variable (q : Nat) (T : Mat ℝ n n) (d b : Vec ℝ n)

/-! ### In the leading block -/

/-- The terms of a row that stand behind its diagonal entry. -/
theorem rest_congr {j : Fin n} {x y : Vec ℝ n} (h : ∀ i, j < i → x i = y i) :
    (∑ i, if j < i ∧ i.val < q then T j i * x i else 0) =
      ∑ i, if j < i ∧ i.val < q then T j i * y i else 0 := by
  refine Finset.sum_congr rfl fun i _ => ?_
  split_ifs with hi
  · rw [h i hi.1]
  · rfl

theorem solveUpper_apply (j : Fin n) :
    solveUpper q T d b j = if j.val < q then
      (b j - ∑ i, if j < i ∧ i.val < q then T j i * solveUpper q T d b i else 0) / d j else 0 := by
  unfold solveUpper
  simp only [Exact.sumOver_eq]
  exact foldr_set_apply (fun j x y h => by rw [rest_congr q T h]) _ j

/-- Both orders of back substitution find the same vector. -/
theorem solveUpperByColumns_eq : solveUpperByColumns q T d b = solveUpper q T d b := by
  unfold solveUpperByColumns solveUpper
  simp only [Exact.sumOver_eq, Exact.lessDownOver_eq]

theorem solveUpper_of_le {j : Fin n} (hj : q ≤ j.val) : solveUpper q T d b j = 0 := by
  rw [solveUpper_apply, if_neg (not_lt.mpr hj)]

/-- A row of the leading block with a diagonal entry that is not zero holds. -/
theorem solveUpper_row {j : Fin n} (hj : j.val < q) (hd : d j ≠ 0) :
    d j * solveUpper q T d b j +
      (∑ i, if j < i then T j i * solveUpper q T d b i else 0) = b j := by
  have h := solveUpper_apply q T d b j
  rw [if_pos hj, eq_div_iff hd] at h
  have e : (∑ i, if j < i ∧ i.val < q then T j i * solveUpper q T d b i else 0) =
      ∑ i, if j < i then T j i * solveUpper q T d b i else 0 := by
    refine Finset.sum_congr rfl fun i _ => ?_
    by_cases hi : i.val < q
    · simp only [hi, and_true]
    · rw [solveUpper_of_le q T d b (not_lt.mp hi), mul_zero, ite_self, ite_self]
  rw [e] at h
  linarith

/-! ### In the transpose -/

theorem solveTransposed_apply (j : Fin n) :
    solveTransposed T d b j =
      (b j - ∑ i, if i < j then T i j * solveTransposed T d b i else 0) / d j := by
  unfold solveTransposed
  simp only [Exact.sumOver_eq]
  refine foldl_set_apply (fun j x y h => ?_) _ j
  have hsum : (∑ i, if i < j then T i j * x i else 0) =
      ∑ i, if i < j then T i j * y i else 0 := by
    refine Finset.sum_congr rfl fun i _ => ?_
    split_ifs with hi
    · rw [h i hi]
    · rfl
  rw [hsum]

/-- Both orders of forward substitution find the same vector. -/
theorem solveTransposedByColumns_eq :
    solveTransposedByColumns T d b = solveTransposed T d b := by
  unfold solveTransposedByColumns solveTransposed
  simp only [Exact.sumOver_eq, Exact.lessUpOver_eq]

/-- A row with a diagonal entry that is not zero holds. -/
theorem solveTransposed_row {j : Fin n} (hd : d j ≠ 0) :
    d j * solveTransposed T d b j +
      (∑ i, if i < j then T i j * solveTransposed T d b i else 0) = b j := by
  have h := solveTransposed_apply T d b j
  rw [eq_div_iff hd] at h
  linarith

end Triangular

end LeastSquares
