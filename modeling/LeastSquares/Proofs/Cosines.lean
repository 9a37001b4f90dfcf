import Mathlib.Analysis.Real.Sqrt
import LeastSquares.Proofs.Affine
import LeastSquares.Proofs.Cut
import LeastSquares.Proofs.Scratch
import LeastSquares.Proofs.Standpoint
import LeastSquares.Proofs.TrialStep

/-!
# The orthogonality stop

The trust-region method stops at the beginning of an outer iteration if the largest cosine between
the residuals and the columns it has solved is within a tolerance. These are the columns of the
first `min m n` pivots: all of them if there are at least as many observations as parameters.
Otherwise the columns behind the last pivot are not looked at. At the tolerance zero that makes no
difference, as they are combinations of the others; at a larger one it does.

Results:
* `le_of_largestCosine_le`: a tolerance that the largest cosine keeps is kept by every column it
  is taken over;
* `optimize_orthogonal`: so it is where a run stops, by all columns if there are no more of them
  than rows or the tolerance is zero;
* `optimize_not_orthogonal`: not in general.
-/

namespace LeastSquares

variable {σ : Type} {m n : Nat}

namespace Evaluation

/-- The cosine between the residuals and a column is within `τ`, without dividing. -/
def Orthogonal (e : Evaluation ℝ m n) (τ : ℝ) (c : Fin n) : Prop :=
  |∑ i, e.jacobian i c * e.residuals i| ≤ τ * e.jacobian.columnLength c * e.cost

end Evaluation

namespace LevenbergMarquardt

open Decomposition

/-! ## The test -/

/-- A vector without length is zero. -/
theorem eq_zero_of_length {f : Fin m → ℝ} (h : √(∑ i, f i ^ 2) = 0) (i : Fin m) : f i = 0 := by
  have hsum : ∑ i, f i ^ 2 = 0 :=
    (Real.sqrt_eq_zero (Finset.sum_nonneg fun i _ => sq_nonneg _)).mp h
  exact pow_eq_zero_iff two_ne_zero |>.mp
    ((Finset.sum_eq_zero_iff_of_nonneg fun i _ => sq_nonneg (f i)).mp hsum i (Finset.mem_univ i))

variable {e : Evaluation ℝ m n} {d : Decomposition ℝ m n} {τ : ℝ}

/-- A pivot column stands at its pivot. -/
theorem exists_pivot (hd : ofJacobian e.jacobian 0 = .ok d) {c : Fin n}
    (hc : c ∈ d.pivotColumns (min m n)) :
    ∃ k : Fin (min m n), d.order (k.castLE (Nat.min_le_right m n)) = c := by
  have hlt := (mem_pivotColumns (ofJacobian_order hd)).mp hc
  exact ⟨⟨(d.pivotOf c).val, hlt⟩, order_pivotOf (ofJacobian_order hd) c⟩

/-- **The test is sound** for the columns of the first `min m n` pivots. Null columns and a cost of
zero are left out of it because there is nothing to be orthogonal. -/
theorem le_of_largestCosine_le (hd : ofJacobian e.jacobian 0 = .ok d)
    (h : largestCosine (d.writeDiagonal (min m n)) (d.transposeApply e.residuals) e.cost ≤ τ)
    {c : Fin n} (hc : c ∈ d.pivotColumns (min m n)) : e.Orthogonal τ c := by
  unfold Evaluation.Orthogonal
  by_cases hcost : e.cost = 0
  · have hzero (i : Fin m) : e.residuals i = 0 := eq_zero_of_length (cost_eq e ▸ hcost) i
    simp [hzero, hcost]
  by_cases hlength : e.jacobian.columnLength c = 0
  · have hzero (i : Fin m) : e.jacobian i c = 0 := eq_zero_of_length hlength i
    simp [hzero, hlength]
  obtain ⟨k, rfl⟩ := exists_pivot hd hc
  have hle := cosine_le hd hcost k hlength
  have hpos : 0 < e.jacobian.columnLength (d.order (k.castLE (Nat.min_le_right m n))) * e.cost :=
    mul_pos (lt_of_le_of_ne (Real.sqrt_nonneg _) (Ne.symm hlength))
      (lt_of_le_of_ne (Real.sqrt_nonneg _) (Ne.symm hcost))
  have hdiv := hle.trans h
  rw [div_le_iff₀ hpos, ← mul_assoc] at hdiv
  exact hdiv

/-- A number that is at least zero and all of those that are not skipped. -/
theorem foldl_larger_le {p : Nat} {f : Fin p → ℝ} {skip : Fin p → Bool} (hτ : 0 ≤ τ)
    (h : ∀ k, skip k = false → f k ≤ τ) :
    Fin.foldl p (fun c l => if skip l then c else Scalar.largest c (f l)) 0 ≤ τ := by
  have hlist (l : List (Fin p)) (c : ℝ) (hc : c ≤ τ) :
      l.foldl (fun c l => if skip l then c else Scalar.largest c (f l)) c ≤ τ := by
    induction l generalizing c with
    | nil => exact hc
    | cons a l ih =>
      rw [List.foldl_cons]
      refine ih _ ?_
      split_ifs with ha
      · exact hc
      · exact Exact.largest_eq c (f a) ▸ max_le hc (h a ((Bool.not_eq_true _).mp ha))
  rw [Fin.foldl_eq_finRange_foldl]
  exact hlist _ 0 hτ

/-- **The test is complete** for the columns it is taken over. -/
theorem largestCosine_le (hd : ofJacobian e.jacobian 0 = .ok d) (hτ : 0 ≤ τ)
    (h : ∀ c ∈ d.pivotColumns (min m n), e.Orthogonal τ c) :
    largestCosine (d.writeDiagonal (min m n)) (d.transposeApply e.residuals) e.cost ≤ τ := by
  unfold largestCosine
  split_ifs with hcost
  · exact hτ
  have hcost' : 0 < e.cost := lt_of_le_of_ne (Real.sqrt_nonneg _) fun h0 =>
    hcost ((Exact.beq_zero_iff _).mpr h0.symm)
  refine foldl_larger_le hτ fun k hk => ?_
  obtain ⟨hproduct, hnorm⟩ := test_parts hd k
  have hgather : (d.writeDiagonal (min m n)).gather (Nat.min_le_right m n)
      (d.writeDiagonal (min m n)).columnNorm k =
        e.jacobian.columnLength (d.order (k.castLE (Nat.min_le_right m n))) :=
    (Vec.ofFn_apply _ k).trans hnorm
  rw [hgather] at hk ⊢
  have hlength : 0 < e.jacobian.columnLength (d.order (k.castLE (Nat.min_le_right m n))) :=
    lt_of_le_of_ne (Real.sqrt_nonneg _) fun h0 =>
      Bool.false_ne_true (hk.symm.trans ((Exact.beq_zero_iff _).mpr h0.symm))
  have hmem : d.order (k.castLE (Nat.min_le_right m n)) ∈ d.pivotColumns (min m n) := by
    rw [mem_pivotColumns (ofJacobian_order hd), pivotOf_order (ofJacobian_order hd)]
    exact k.isLt
  have horthogonal := h _ hmem
  unfold Evaluation.Orthogonal at horthogonal
  rw [div_le_iff₀ (mul_pos hlength hcost'), ← mul_assoc]
  exact hproduct.trans_le horthogonal

/-- A vector that is orthogonal to the triangular columns of the first `rank` pivots is zero there:
from the first row down, what is left of a column is its diagonal entry. -/
theorem eq_zero_of_reduced {J : Mat ℝ m n} (hf : Factored J 0 d) {y : Vec ℝ m}
    (h : ∀ k : Fin n, k.val < d.rank → (∑ i, d.reduced d.rank i k * y i) = 0) (i : Fin m)
    (hi : i.val < d.rank) : y i = 0 := by
  induction hk : i.val using Nat.strong_induction_on generalizing i with
  | _ k ih =>
    subst hk
    have hsum := h ⟨i, hi.trans_le hf.le_columns⟩ hi
    rw [Finset.sum_eq_single i] at hsum
    · rw [hf.reduced_apply hf.leavesNothing, if_neg (lt_irrefl _), if_pos rfl] at hsum
      exact (mul_eq_zero.mp hsum).resolve_left (hf.diagonal_ne le_rfl _ hi)
    · intro l _ hl
      rcases lt_or_gt_of_ne (Fin.val_ne_of_ne hl) with hlt | hgt
      · rw [ih l.val hlt l (hlt.trans hi) rfl, mul_zero]
      · rw [hf.reduced_apply hf.leavesNothing, if_neg hgt.not_gt, if_neg hgt.ne', zero_mul]
    · exact fun habs => absurd (Finset.mem_univ i) habs

/-- Orthogonal to the columns of the first pivots is orthogonal to all. -/
theorem orthogonal_zero_of_pivots (hd : ofJacobian e.jacobian 0 = .ok d)
    (h : ∀ c ∈ d.pivotColumns (min m n), e.Orthogonal 0 c) (c : Fin n) : e.Orthogonal 0 c := by
  have hf := factored_ofJacobian le_rfl hd
  have hpivot (k : Fin n) (hk : k.val < d.rank) :
      (∑ i, d.reduced d.rank i k * d.transposeApply e.residuals i) = 0 := by
    have hmem : d.order k ∈ d.pivotColumns (min m n) := by
      rw [mem_pivotColumns hf.order, pivotOf_order hf.order]
      exact hk.trans_le hf.rank_le
    have hle := h (d.order k) hmem
    unfold Evaluation.Orthogonal at hle
    rw [hf.moment, abs_neg, zero_mul, zero_mul] at hle
    exact abs_eq_zero.mp (le_antisymm hle (abs_nonneg _))
  obtain ⟨k, rfl⟩ := Finite.surjective_of_injective hf.order c
  unfold Evaluation.Orthogonal
  rw [hf.moment, Finset.sum_eq_zero, neg_zero, abs_zero, zero_mul, zero_mul]
  intro i _
  rcases lt_or_ge i.val d.rank with hi | hi
  · rw [eq_zero_of_reduced hf hpivot i hi, mul_zero]
  · rw [hf.leavesNothing.reduced_eq_zero hi, zero_mul]

/-! ## The stop -/

section Stop

variable {α : Type} [Scalar α] {o : Options α} {P : Problem σ α m n} {left used iteration : Nat}
  {s : Search α m n} {w : σ} {r : Run σ α m n} {found : Optimum α m n}

/-- A run that returns without a trial in its last outer iteration does so by the test. -/
theorem Runs.of_no_trial (hle : ∀ ratio : α, acceptRatio ≤ ratio → ¬ ratio < acceptRatio)
    (h : Runs o P left used iteration s w r) (hs : s.standing = .ofEvaluation s.base)
    (hr : r.result = .ok found) (hlast : ∀ t ∈ r.trials, t.iteration ≠ found.iterations) :
    ∃ rg s', Search.start o (.ofEvaluation found.evaluation) rg = .ok s' ∧
      s'.maxCosine ≤ o.orthogonalityTolerance := by
  induction h with
  | exhausted | failed | unanswered | stuck | overdue | undecomposed => cases hr
  | stopped _ _ =>
    cases hr
    exact absurd rfl (hlast _ List.mem_cons_self)
  | retried _ hn _ ih =>
    exact ih (Search.stands_of_retry hle hs hn) hr fun t ht => hlast t (List.mem_cons_of_mem _ ht)
  | orthogonal _ hn _ hstart hmax =>
    cases hr
    obtain rfl := Search.standing_of_renew hs hn 0
    exact ⟨_, _, hstart, hmax⟩
  | renewed _ hn _ hstart _ _ ih =>
    obtain rfl := Search.standing_of_renew hs hn 0
    obtain ⟨d, -, rfl⟩ := Search.of_start_eq_ok hstart
    exact ih rfl hr fun t ht => hlast t (List.mem_cons_of_mem _ ht)

/-- So does a course. -/
theorem Courses.of_no_trial (hle : ∀ ratio : α, acceptRatio ≤ ratio → ¬ ratio < acceptRatio)
    {o : Options (Number α)} {c : Course σ α m n} (h : Courses o P w c)
    (hr : c.result = .ok found) (hlast : ∀ t ∈ c.trials, t.iteration ≠ found.iterations) :
    ∃ rg s', Search.start o.values (.ofEvaluation found.evaluation) rg = .ok s' ∧
      s'.maxCosine ≤ o.values.orthogonalityTolerance := by
  cases h with
  | refused | failed | infinite | undecomposed => cases hr
  | orthogonal _ _ _ _ hs hmax =>
    cases hr
    exact ⟨_, _, hs, hmax⟩
  | begun _ _ _ _ hs _ hrun =>
    obtain ⟨d, -, rfl⟩ := Search.of_start_eq_ok hs
    exact hrun.of_no_trial hle rfl hr hlast

end Stop

/-- **The orthogonality stop**, at the ranking threshold zero. Where a course returns without a
trial in its last outer iteration, the tolerance is kept by the columns of the first `min m n`
pivots: by all of them if there are no more columns than rows or the tolerance is zero. -/
theorem optimize_orthogonal {o : Options (Number ℝ)} (ht : o.values.rankingThreshold = 0)
    (P : Problem σ ℝ m n) (w : σ) {found : Optimum ℝ m n}
    (hr : (optimize o P w).result = .ok found)
    (hlast : ∀ t ∈ (optimize o P w).trials, t.iteration ≠ found.iterations) :
    (∃ d, ofJacobian found.evaluation.jacobian 0 = .ok d ∧
      ∀ c ∈ d.pivotColumns (min m n),
        found.evaluation.Orthogonal o.values.orthogonalityTolerance c) ∧
    (n ≤ m ∨ o.values.orthogonalityTolerance = 0 →
      ∀ c, found.evaluation.Orthogonal o.values.orthogonalityTolerance c) := by
  obtain ⟨rg, s, hs, hmax⟩ :=
    (courses_optimize o P w).of_no_trial (fun _ h => not_lt.mpr h) hr hlast
  obtain ⟨d, hd, rfl⟩ := Search.of_start_eq_ok hs
  rw [ht] at hd
  have hpivots : ∀ c ∈ d.pivotColumns (min m n),
      found.evaluation.Orthogonal o.values.orthogonalityTolerance c :=
    fun c hc => le_of_largestCosine_le hd hmax hc
  refine ⟨⟨d, hd, hpivots⟩, fun h c => ?_⟩
  rcases h with hmn | hzero
  · refine hpivots c ((mem_pivotColumns (factored_ofJacobian le_rfl hd).order).mpr ?_)
    rw [Nat.min_eq_right hmn]
    exact (d.pivotOf c).isLt
  · rw [hzero] at hpivots ⊢
    exact orthogonal_zero_of_pivots hd hpivots c

/-! ## A wide Jacobian -/

/-- Of the columns `(6, 0)`, `(4, 3)` and `(0, 1)`, the last one stands behind the second pivot. -/
noncomputable def wideColumns : Mat ℝ 2 3 :=
  Mat.ofFn fun i j => ((![![6, 4, 0], ![0, 3, 1]] i j : Nat) : ℝ)

/-- The problem of these columns, with `(0, 1)` to be reached from the origin on. -/
noncomputable def wideProblem : Problem Unit ℝ 2 3 where
  model := affineModel wideColumns (Vec.replicate 2 0)
  target := Vec.ofFn ![0, 1]
  start := Vec.replicate 3 0
  weight := none
  checker := none
  maxEvaluations := 1
  maxIterations := 1
  deferred := false
  validator := none

/-- A tolerance of `3/4`. -/
noncomputable def looseTolerance : ℝ := (3 : Nat) / (4 : Nat)

/-- Options with that tolerance for the cosine and none for anything else. -/
noncomputable def looseOptions : Options (Number ℝ) :=
  { exactOptions ℝ with orthogonalityTolerance := .real looseTolerance }

/-- A number above all that follow is the first largest. -/
theorem firstLargest_eq_self {f : Fin n → ℝ} {k : Fin n} (h : ∀ j, k < j → f j < f k) :
    firstLargest f k = k := by
  obtain ⟨hle, hmax⟩ := firstLargest_spec f k
  by_contra hne
  exact absurd (hmax k le_rfl) (not_le.mpr (h _ (lt_of_le_of_ne hle (Ne.symm hne))))

/-- A step that moves no column. -/
theorem steps_cons {d : Decomposition ℝ m n} {k : Fin n} {ks : List (Fin n)} (hk : k.val < m)
    (hmax : ∀ j, k < j → d.tailSquare k j < d.tailSquare k k) (hpos : 0 < d.tailSquare k k) :
    steps 0 (k :: ks) d =
      steps 0 ks ((d.swap k k).reflect k ⟨k, hk⟩ (d.tailSquare k k)) := by
  have hsquares : (Vec.ofFn (d.tailSquare k)).get = d.tailSquare k := funext (Vec.ofFn_apply _)
  rw [steps]
  simp only [hsquares, firstLargest_eq_self hmax]
  rw [if_neg (by rintro ⟨_, -, h⟩; exact Bool.noConfusion h), if_neg (not_le.mpr hpos), dif_pos hk]

/-- The decomposition of the three columns moves none of them. -/
theorem exists_wide : ∃ d, ofJacobian wideColumns 0 = .ok d ∧ d.order 2 = 2 := by
  have hlist : List.finRange 3 = [0, 1, 2] := by decide
  set d₀ := start wideColumns
  set d₁ := (d₀.swap 0 0).reflect 0 ⟨0, Nat.two_pos⟩ (d₀.tailSquare 0 0)
  set d₂ := (d₁.swap 1 1).reflect 1 ⟨1, Nat.one_lt_two⟩ (d₁.tailSquare 1 1)
  have h₀ (j : Fin 3) : d₀.tailSquare 0 j = ![36, 25, 1] j := by
    rw [tailSquare_eq, Fin.sum_univ_two]
    fin_cases j <;> simp [d₀, start, wideColumns, Mat.map_apply] <;> norm_num
  -- the second entry of the first column is zero, so its reflection leaves the second row
  have hrow (j : Fin 3) (hj : 1 ≤ j) : d₁.buffer 1 j = d₀.buffer 1 j := by
    have hne : j ≠ 0 := (Fin.pos_iff_ne_zero.mp (Fin.lt_of_lt_of_le (by decide) hj))
    have hzero : d₀.buffer 1 0 = 0 := by simp [d₀, start, wideColumns, Mat.map_apply]
    simp [d₁, reflect, swap, hne, hzero]
  have h₁ (j : Fin 3) (hj : 1 ≤ j) : d₁.tailSquare 1 j = ![0, 9, 1] j := by
    rw [tailSquare_eq, Fin.sum_univ_two, hrow j hj]
    fin_cases j
    · exact absurd hj (by decide)
    · simp [d₀, start, wideColumns, Mat.map_apply]
      norm_num
    · simp [d₀, start, wideColumns, Mat.map_apply]
  have hfirst : steps 0 [0, 1, 2] d₀ = steps 0 [1, 2] d₁ := by
    refine steps_cons Nat.two_pos (fun j hj => ?_) ?_
    · rw [Fin.val_zero, h₀, h₀]
      fin_cases j
      · exact absurd hj (by decide)
      · norm_num
      · norm_num
    · rw [Fin.val_zero, h₀]
      norm_num
  have hsecond : steps 0 [1, 2] d₁ = steps 0 [2] d₂ := by
    refine steps_cons Nat.one_lt_two (fun j hj => ?_) ?_
    · rw [Fin.val_one, h₁ j hj.le, h₁ 1 le_rfl]
      fin_cases j
      · exact absurd hj (by decide)
      · exact absurd hj (by decide)
      · norm_num
    · rw [Fin.val_one, h₁ 1 le_rfl]
      norm_num
  have hthird : steps 0 [2] d₂ = .ok { d₂ with rank := 2 } := by
    have hzero (j : Fin 3) : (Vec.ofFn (d₂.tailSquare (2 : Fin 3))) j ≤ 0 := by
      rw [Vec.ofFn_apply]
      exact (tailSquare_of_le d₂ le_rfl j).le
    rw [steps]
    simp only
    rw [if_neg (by rintro ⟨_, -, h⟩; exact Bool.noConfusion h), if_pos (hzero _)]
    rfl
  refine ⟨{ d₂ with rank := 2 }, ?_, ?_⟩
  · rw [ofJacobian, hlist, hfirst, hsecond, hthird]
  · simp [d₂, d₁, d₀, start, reflect, swap]

/-- What is known of the three columns at the origin. -/
noncomputable def wideStart : Evaluation ℝ 2 3 := ⟨Vec.replicate 3 0, Vec.ofFn ![0, 1], wideColumns⟩

theorem wide_evaluation :
    (wideProblem.evaluation wideProblem.start).after () = (.ok wideStart, ()) := by
  obtain ⟨⟨⟩, he⟩ := (affineModel_isAffine wideColumns Nat.two_pos (Vec.replicate 2 0)).evaluation
    (P := wideProblem) rfl wideProblem.start ()
  have hresiduals : wideProblem.residuals
      (wideColumns.affine (Vec.replicate 2 0) wideProblem.start) = Vec.ofFn ![0, 1] := by
    refine Vec.ext fun i => ?_
    simp [Problem.residuals, wideProblem, Mat.affine, Mat.mulVec_apply, Exact.sum_eq,
      Vec.replicate_apply]
  rw [hresiduals] at he
  exact he

/-- The cosines of the first two columns, `0` and `3/5`, are within the tolerance, that of the last
one is not. -/
theorem wide_orthogonal (c : Fin 3) : wideStart.Orthogonal looseTolerance c ↔ c ≠ 2 := by
  have hcost : wideStart.cost = 1 := by
    rw [cost_eq, Fin.sum_univ_two]
    simp [wideStart]
  have hlength : wideColumns.columnLength c = ![6, 5, 1] c := by
    unfold Mat.columnLength
    rw [Fin.sum_univ_two]
    fin_cases c
    · simp [wideColumns]
    · have h : (4 : ℝ) ^ 2 + 3 ^ 2 = 5 ^ 2 := by norm_num
      simp [wideColumns, h]
    · simp [wideColumns]
  unfold Evaluation.Orthogonal
  rw [hcost, show wideStart.jacobian = wideColumns from rfl, hlength, Fin.sum_univ_two]
  fin_cases c <;> simp [wideStart, wideColumns, looseTolerance] <;> norm_num

/-- The course of the three columns returns at its start point. -/
theorem wide_optimize : optimize looseOptions wideProblem () =
    ⟨(Run.ending (.ok ⟨wideStart, 1, 1⟩) ()).begunAt wideStart, .made wideStart none⟩ := by
  obtain ⟨d, hd, horder⟩ := exists_wide
  have hthreshold : looseOptions.values.rankingThreshold = 0 := Nat.cast_zero
  have hpivots : ∀ c ∈ d.pivotColumns (min 2 3), wideStart.Orthogonal looseTolerance c := by
    intro c hc
    refine (wide_orthogonal c).mpr ?_
    rintro rfl
    have hlt := (mem_pivotColumns (ofJacobian_order hd)).mp hc
    rw [← horder, pivotOf_order (ofJacobian_order hd)] at hlt
    exact absurd hlt (by decide)
  have hs : Search.start looseOptions.values (.ofEvaluation wideStart) Region.initial =
      .ok (Search.ofDecomposition looseOptions.values (.ofEvaluation wideStart) Region.initial
        d) := by
    rw [Search.start_eq, hthreshold]
    change (ofJacobian wideColumns 0).map _ = _
    rw [hd]
    rfl
  have hmax := largestCosine_le (e := wideStart) hd (by norm_num [looseTolerance]) hpivots
  have hbudget : wideProblem.maxEvaluations = (0 : Nat) + 1 := rfl
  have hcourse : Courses looseOptions wideProblem ()
      ⟨(Run.ending (.ok ⟨wideStart, 1, 1⟩) ()).begunAt wideStart, .made wideStart none⟩ :=
    .orthogonal hbudget le_rfl wide_evaluation rfl hs hmax
  exact (hcourse.eq_optimize le_rfl le_rfl).symm

theorem optimize_orthogonal_wide :
    looseOptions.values.rankingThreshold = 0 ∧
      (optimize looseOptions wideProblem ()).result = .ok ⟨wideStart, 1, 1⟩ ∧
      (optimize looseOptions wideProblem ()).trials = [] ∧
      ∃ d, ofJacobian wideColumns 0 = .ok d ∧
        ∀ c ∈ d.pivotColumns (min 2 3), wideStart.Orthogonal looseTolerance c := by
  have hthreshold : looseOptions.values.rankingThreshold = 0 := Nat.cast_zero
  have hresult : (optimize looseOptions wideProblem ()).result = .ok ⟨wideStart, 1, 1⟩ :=
    congrArg (fun c => c.result) wide_optimize
  have htrials : (optimize looseOptions wideProblem ()).trials = [] :=
    congrArg (fun c => c.trials) wide_optimize
  obtain ⟨hpivots, -⟩ := optimize_orthogonal hthreshold wideProblem () hresult fun t ht =>
    absurd (htrials ▸ ht) List.not_mem_nil
  exact ⟨hthreshold, hresult, htrials, hpivots⟩

/-- **The test does not look at every column**: the last one points in the direction of the
residuals where the course returns. -/
theorem optimize_not_orthogonal : ∃ found,
    (optimize looseOptions wideProblem ()).result = .ok found ∧
    (∀ t ∈ (optimize looseOptions wideProblem ()).trials, t.iteration ≠ found.iterations) ∧
    ¬ ∀ c, found.evaluation.Orthogonal looseOptions.values.orthogonalityTolerance c := by
  rw [wide_optimize]
  refine ⟨_, rfl, fun t ht => absurd ht List.not_mem_nil, fun hall => ?_⟩
  exact absurd rfl ((wide_orthogonal 2).mp (hall 2))

end LevenbergMarquardt

end LeastSquares
