import Mathlib.Analysis.Matrix.Order
import Mathlib.Analysis.SpecialFunctions.ContinuousFunctionalCalculus.Rpow.Basic
import LeastSquares.Proofs.WeightedFit

/-!
# Evaluations in the form of their weight

A matrix as a weight is rooted through eigenvectors, which are not unique: where an eigenvalue is
repeated, any basis of its eigenvectors will do. The root is unique all the same (`IsRoot.unique`),
so it does not matter which of them were found, and the matrix with the entries of a vector on its
diagonal is rooted like the vector.

With `f` and `A` for what the model returns and `t` for the target, what is known of a problem with
the weight `W` are the quadratic form and the products that `W` stands for: `(t - f)ᵀ W (t - f)` is
the squared length of the residuals, `Aᵀ W A` are the products of the columns of the Jacobian and
`Aᵀ W (t - f)` those with the residuals (`Evaluation.InForm`).

Results:
* `Problem.evaluation_eq_plain`: an evaluation is found where the model has a value, and is that
  value weighted;
* `Eigen.exists_factors`: every symmetric matrix has exact eigenvectors;
* `WeightRoot.exists_ofNested_ofLists`: every semidefinite matrix is rooted;
* `Problem.create_withWeight`: one weight in the place of another;
* `Problem.create_inForm`: weights are their forms, given as matrices or as vectors.
-/

namespace LeastSquares

open Matrix

variable {σ : Type} {m n : Nat}

/-! ## Roots -/

namespace WeightRoot

open scoped MatrixOrder in
/-- **There is one square root**, through whichever eigenvectors it was taken. -/
theorem IsRoot.unique {S T W : Matrix (Fin m) (Fin m) ℝ} (hS : IsRoot S W) (hT : IsRoot T W) :
    S = T :=
  (CFC.mul_self_eq_mul_self_iff S T hS.posSemidef.nonneg hT.posSemidef.nonneg).mp
    (hS.mul_self.trans hT.mul_self.symm)

variable [Exact.Factorizations]

/-- The root of a matrix is a matrix. -/
theorem exists_full {W : Mat ℝ m m} {root : WeightRoot ℝ m} (h : ofMatrix W = .ok root) :
    ∃ S, root = .full S := by
  unfold ofMatrix at h
  simp only at h
  split_ifs at h
  exact ⟨_, (Except.ok.inj h).symm⟩

/-- **Every semidefinite matrix is rooted** as the list of its rows, if its eigenvectors are exact. A
matrix without rows is laid out as a vector without entries. -/
theorem exists_ofNested_ofLists {W : Mat ℝ m m} (hW : W.toMatrix.PosSemidef)
    (he : (Spectral.eigen W).Factors W) :
    ∃ root, ofNested (.ofLists W.toLists) = .ok ⟨m, root⟩ ∧
      IsRoot (matrixOf (some root)) W.toMatrix := by
  rcases Nat.eq_zero_or_pos m with rfl | hm
  · have hempty : W.toLists = [] := by
      rw [← List.length_eq_zero_iff, Mat.toLists, List.length_map, Vec.length_toList]
    have hlayout : (Nested.ofLists W.toLists : Nested ℝ) =
        .ofList (Vec.replicate 0 (0 : ℝ)).toList := by
      rw [hempty]
      rfl
    have hroot : ofVector (Vec.replicate 0 (0 : ℝ)) = .ok (.diagonal _) := ofVector_eq finZeroElim
    refine ⟨_, hlayout ▸ ofNested_ofList hroot, ?_⟩
    have hform : W.toMatrix = Matrix.diagonal (Vec.replicate 0 (0 : ℝ)).get := Subsingleton.elim _ _
    exact hform ▸ (Weighs.vector hroot).isRoot
  · obtain ⟨root, hroot⟩ := exists_ofMatrix hW he
    exact ⟨root, ofNested_ofLists hm hroot, ofMatrix_isRoot hW he hroot⟩

end WeightRoot

/-! ## Evaluations -/

namespace Problem

section

variable {α : Type}

/-- The point that is evaluated in the place of the given one, with the value and the Jacobian that
the model returns there. They are not weighted. -/
def plain (P : Problem σ α m n) (p : Vec α n) :
    Act σ (Failure α) (Vec α n × Vec α m × Mat α m n) := do
  let q ← P.validate p
  let (value, J) ← (P.model.call q).mapError .raised
  let value ← Act.ofExcept (value.vector "model value" "model value" m)
  let J ← Act.ofExcept (J.matrix "model jacobian" m n)
  return (q, value, J)

variable [Scalar α]

/-- A value and a Jacobian at a point, weighted. -/
def weighted (P : Problem σ α m n) (found : Vec α n × Vec α m × Mat α m n) : Evaluation α m n :=
  ⟨found.1, P.residuals found.2.1, P.jacobian found.2.2⟩

/-- **An evaluation is found exactly where the model has a value.** -/
theorem evaluation_eq_plain (P : Problem σ α m n) (p : Vec α n) (w : σ) :
    (P.evaluation p).after w =
      (((P.plain p).after w).1.map P.weighted, ((P.plain p).after w).2) := by
  rw [P.evaluation_after]
  unfold plain compute
  simp only [Act.after_bind]
  rcases (P.validate p).after w with ⟨f | q, w₁⟩
  · rfl
  simp only
  rcases ((P.model.call q).mapError Failure.raised).after w₁ with ⟨f | ⟨V, M⟩, w₂⟩
  · rfl
  simp only [Act.after_ofExcept]
  cases V.vector "model value" "model value" m with
  | error f => rfl
  | ok v =>
    simp only
    cases M.matrix "model jacobian" m n <;> rfl

end

end Problem

/-- **An evaluation in the form of `W`**, by the difference `d` of target and model value and by the
Jacobian `A` of the model. -/
structure Evaluation.InForm (e : Evaluation ℝ m n) (W : Matrix (Fin m) (Fin m) ℝ) (d : Fin m → ℝ)
    (A : Matrix (Fin m) (Fin n) ℝ) : Prop where
  chiSquare : Residuals.chiSquare e.residuals = d ⬝ᵥ W *ᵥ d
  gram : e.jacobian.toMatrixᵀ * e.jacobian.toMatrix = Aᵀ * W * A
  gradient : e.jacobian.toMatrixᵀ *ᵥ e.residuals.get = Aᵀ *ᵥ (W *ᵥ d)

namespace Problem

/-- **A problem in the form of `W`**: wherever the model has a value, there is an evaluation, and it
is in that form. -/
def InForm (P : Problem σ ℝ m n) (W : Matrix (Fin m) (Fin m) ℝ) : Prop :=
  ∀ p w q v A w', (P.plain p).after w = (.ok (q, v, A), w') →
    ∃ e, (P.evaluation p).after w = (.ok e, w') ∧ e.point = q ∧
      e.InForm W (P.target.get - v.get) A.toMatrix

/-- What a value and a Jacobian become with a root of `W`. -/
theorem weighted_inForm {P : Problem σ ℝ m n} {W : Matrix (Fin m) (Fin m) ℝ}
    (h : (WeightRoot.matrixOf P.weight)ᵀ * WeightRoot.matrixOf P.weight = W)
    (found : Vec ℝ n × Vec ℝ m × Mat ℝ m n) :
    (P.weighted found).InForm W (P.target.get - found.2.1.get) found.2.2.toMatrix where
  chiSquare := by
    refine (Exact.dot_eq _ _).trans ?_
    change (P.residuals _).get ⬝ᵥ (P.residuals _).get = _
    rw [residuals_get, ← h, ← mulVec_mulVec, dotProduct_mulVec _ (_ᵀ), vecMul_transpose]
  gram := Weighted.gram_eq (P.jacobian_toMatrix found.2.2) h
  gradient := by
    change (P.jacobian _).toMatrixᵀ *ᵥ (P.residuals _).get = _
    rw [jacobian_toMatrix, residuals_get, transpose_mul, ← h]
    simp only [mulVec_mulVec, Matrix.mul_assoc]

theorem inForm {P : Problem σ ℝ m n} {W : Matrix (Fin m) (Fin m) ℝ}
    (h : (WeightRoot.matrixOf P.weight)ᵀ * WeightRoot.matrixOf P.weight = W) : P.InForm W := by
  intro p w q v A w' hplain
  refine ⟨P.weighted (q, v, A), ?_, rfl, weighted_inForm h _⟩
  rw [evaluation_eq_plain, hplain]
  rfl

/-- **Two problems whose evaluations are the same** at every point, as are residuals and Jacobian
for whatever the model may return. -/
structure Agrees (P P' : Problem σ ℝ m n) : Prop where
  residuals : ∀ v, P'.residuals v = P.residuals v
  jacobian : ∀ A, P'.jacobian A = P.jacobian A
  evaluation : ∀ p, P'.evaluation p = P.evaluation p

/-- All that matters of a weight is its root as a matrix. -/
theorem agrees_withWeight {P : Problem σ ℝ m n} {weight : Option (WeightRoot ℝ m)}
    (h : WeightRoot.matrixOf weight = WeightRoot.matrixOf P.weight) :
    P.Agrees { P with weight } := by
  have hresiduals (v : Vec ℝ m) : ({ P with weight } : Problem σ ℝ m n).residuals v =
      P.residuals v := by
    refine Vec.ext fun i => congrFun ?_ i
    rw [residuals_get, residuals_get, h]
  have hjacobian (A : Mat ℝ m n) : ({ P with weight } : Problem σ ℝ m n).jacobian A =
      P.jacobian A := by
    refine Mat.ext fun i j => congrFun (congrFun ?_ i) j
    change Mat.toMatrix _ = Mat.toMatrix _
    rw [jacobian_toMatrix, jacobian_toMatrix, h]
  have hweighted : ({ P with weight } : Problem σ ℝ m n).weighted = P.weighted := by
    funext found
    exact congrArg₂ (Evaluation.mk found.1) (hresiduals _) (hjacobian _)
  have hevaluation (p : Vec ℝ n) (w : σ) :
      (({ P with weight } : Problem σ ℝ m n).evaluation p).after w = (P.evaluation p).after w := by
    rw [evaluation_eq_plain, evaluation_eq_plain, hweighted]
    rfl
  exact ⟨hresiduals, hjacobian, fun p => funext (hevaluation p)⟩

/-! ## Building a problem with a weight -/

variable [Exact.Factorizations]

/-- **One weight in the place of another** of the same size. -/
theorem create_withWeight {parts : ProblemParts σ ℝ} {a b : Nested ℝ} {r s : WeightRoot ℝ m}
    (ha : WeightRoot.ofNested a = .ok ⟨m, r⟩) (hb : WeightRoot.ofNested b = .ok ⟨m, s⟩)
    {p : AnyProblem σ ℝ} (h : create { parts with weight := some a } = .ok p) :
    ∃ (n : Nat) (P : Problem σ ℝ m n), p = ⟨m, n, P⟩ ∧ P.weight = some r ∧
      create { parts with weight := some b } = .ok ⟨m, n, { P with weight := some s }⟩ := by
  have hsize {a : Nested ℝ} {k : Nat} {r : WeightRoot ℝ k} (ha : WeightRoot.ofNested a = .ok ⟨k, r⟩)
      (m : Nat) : weightOf (some a) m = if h : k = m then .ok (some (h ▸ r)) else
        .error (.weightSize k m) := by
    unfold weightOf
    simp only [ha, bind, Except.bind]
    rfl
  obtain ⟨reading, hr, rfl⟩ := create_eq_ok_iff.mp h
  have hweight := hr.weight
  rw [hsize ha] at hweight
  split_ifs at hweight with hm
  subst hm
  refine ⟨_, _, rfl, (Except.ok.inj hweight).symm, ?_⟩
  refine create_eq_ok_iff.mpr ⟨{ reading with weight := some s }, { hr with weight := ?_ }, rfl⟩
  rw [hsize hb]
  exact dif_pos rfl

/-- The size of the weight is that of the target. -/
theorem exists_of_create {parts : ProblemParts σ ℝ} {a : Nested ℝ} {r : WeightRoot ℝ m}
    (ha : WeightRoot.ofNested a = .ok ⟨m, r⟩) {p : AnyProblem σ ℝ}
    (h : create { parts with weight := some a } = .ok p) :
    ∃ (n : Nat) (P : Problem σ ℝ m n), p = ⟨m, n, P⟩ ∧ P.weight = some r := by
  obtain ⟨n, P, hp, hweight, -⟩ := create_withWeight ha ha h
  exact ⟨n, P, hp, hweight⟩

end Problem

/-- The matrix with the entries of a vector on its diagonal. -/
noncomputable def Vec.diagonal (w : Vec ℝ m) : Mat ℝ m m :=
  Mat.ofFn fun i j => if i = j then w i else 0

theorem Vec.diagonal_toMatrix (w : Vec ℝ m) : w.diagonal.toMatrix = Matrix.diagonal w.get := by
  ext i j
  exact (Mat.ofFn_apply _ i j).trans (diagonal_apply _ i j).symm

/-- **Headline.** A semidefinite matrix `W` whose eigenvectors are exact has a square root, which is
the root that is taken of it, and every problem that is built with the weight `W` is in the form of
`W`. A vector without a negative entry and the matrix with the vector on its diagonal are accepted
for the same problems, and these have the same evaluations. -/
theorem Problem.create_inForm [Exact.Factorizations] :
    (∀ (m : Nat) (W : Mat ℝ m m), W.toMatrix.PosSemidef → (Spectral.eigen W).Factors W →
      (∃ S, WeightRoot.ofMatrix W = .ok (.full S) ∧ WeightRoot.IsRoot S.toMatrix W.toMatrix) ∧
      ∀ (parts : ProblemParts σ ℝ) (p : AnyProblem σ ℝ),
        create { parts with weight := some (.ofLists W.toLists) } = .ok p →
          ∃ (n : Nat) (P : Problem σ ℝ m n), p = ⟨m, n, P⟩ ∧ P.InForm W.toMatrix) ∧
    ∀ (m : Nat) (w : Vec ℝ m), (∀ i, 0 ≤ w i) → (Spectral.eigen w.diagonal).Factors w.diagonal →
      ∀ parts : ProblemParts σ ℝ,
        ((∃ p, create { parts with weight := some (.ofList w.toList) } = .ok p) ↔
          ∃ p, create { parts with weight := some (.ofLists w.diagonal.toLists) } = .ok p) ∧
        ∀ p p', create { parts with weight := some (.ofList w.toList) } = .ok p →
          create { parts with weight := some (.ofLists w.diagonal.toLists) } = .ok p' →
            ∃ (n : Nat) (P P' : Problem σ ℝ m n), p = ⟨m, n, P⟩ ∧ p' = ⟨m, n, P'⟩ ∧
              P.Agrees P' := by
  refine ⟨fun m W hW he => ⟨?_, fun parts p h => ?_⟩, fun m w hw he parts => ?_⟩
  · obtain ⟨root, hroot⟩ := WeightRoot.exists_ofMatrix hW he
    have hisRoot := WeightRoot.ofMatrix_isRoot hW he hroot
    obtain ⟨S, rfl⟩ := WeightRoot.exists_full hroot
    exact ⟨S, hroot, hisRoot⟩
  · obtain ⟨root, hroot, hisRoot⟩ := WeightRoot.exists_ofNested_ofLists hW he
    obtain ⟨n, P, rfl, hweight⟩ := exists_of_create hroot h
    exact ⟨n, P, rfl, inForm (hweight ▸ hisRoot.gram_eq)⟩
  · have hvector := WeightRoot.ofVector_eq hw
    have hdiagonal : w.diagonal.toMatrix.PosSemidef :=
      w.diagonal_toMatrix ▸ posSemidef_diagonal_iff.mpr hw
    obtain ⟨root, hroot, hisRoot⟩ := WeightRoot.exists_ofNested_ofLists hdiagonal he
    have hlist := WeightRoot.ofNested_ofList hvector
    -- both roots are square roots of one matrix
    have hsame : WeightRoot.matrixOf (some root) =
        WeightRoot.matrixOf (some (.diagonal (w.map sqrt))) :=
      (w.diagonal_toMatrix ▸ hisRoot).unique (WeightRoot.Weighs.vector hvector).isRoot
    refine ⟨⟨fun ⟨p, h⟩ => ?_, fun ⟨p, h⟩ => ?_⟩, fun p p' h h' => ?_⟩
    · obtain ⟨n, P, -, -, h'⟩ := create_withWeight hlist hroot h
      exact ⟨_, h'⟩
    · obtain ⟨n, P, -, -, h'⟩ := create_withWeight hroot hlist h
      exact ⟨_, h'⟩
    · obtain ⟨n, P, rfl, hweight, h''⟩ := create_withWeight hlist hroot h
      obtain rfl := Except.ok.inj (h'.symm.trans h'')
      exact ⟨n, P, _, rfl, rfl, agrees_withWeight (hweight ▸ hsame)⟩

/-! ## An example

The mean of `0` and `4` with a weight that is no diagonal matrix, and with the weights `1` and `3`
as a vector and as a matrix. -/

/-- **Every symmetric matrix has exact eigenvectors.** -/
theorem Eigen.exists_factors {W : Mat ℝ m m} (h : W.toMatrix.IsHermitian) :
    ∃ e : Eigen ℝ m, e.Factors W := by
  let U : Matrix (Fin m) (Fin m) ℝ := h.eigenvectorUnitary.1
  refine ⟨⟨Vec.ofFn h.eigenvalues, Mat.ofFn fun i j => U i j⟩, fun k l => ?_, fun i j => ?_⟩
  · have hone : Uᵀ * U = 1 := by
      rw [← conjTranspose_eq_transpose_of_trivial]
      exact Unitary.coe_star_mul_self h.eigenvectorUnitary
    simp only [Mat.ofFn_apply]
    rw [← Matrix.one_apply, ← hone]
    rfl
  · have hproduct : W.toMatrix = U * Matrix.diagonal h.eigenvalues * Uᵀ := by
      rw [← conjTranspose_eq_transpose_of_trivial]
      exact h.spectral_theorem
    have hentry := congrFun (congrFun hproduct i) j
    rw [Matrix.mul_apply] at hentry
    simp only [mul_diagonal] at hentry
    simp only [Mat.ofFn_apply, Vec.ofFn_apply]
    exact hentry

/-- An affine model, before it is weighted. -/
theorem Model.IsAffine.plain {P : Problem σ ℝ m n} {A : Mat ℝ m n} {b : Vec ℝ m}
    (h : P.model.IsAffine A b) (hv : P.validator = none) (p : Vec ℝ n) (w : σ) :
    ∃ w', (P.plain p).after w = (.ok (p, A.affine b p, A), w') := by
  obtain ⟨V, M, w', hcall, hV, hM⟩ := h p w
  refine ⟨w', ?_⟩
  unfold Problem.plain
  rw [P.validate_of_validator hv]
  simp only [Act.after_bind, Act.after_mapError, hcall, Except.mapError, Act.after_ofExcept, hV,
    hM, Act.after_pure]

/-- The products of the columns `(1, 0)` and `(1, 1)`. -/
noncomputable def slantedWeight : Mat ℝ 2 2 :=
  (Mat.ofFn fun i j => if i ≤ j then 1 else 0 : Mat ℝ 2 2).gram

theorem slantedWeight_posSemidef : slantedWeight.toMatrix.PosSemidef := by
  rw [slantedWeight, Mat.gram_toMatrix, ← conjTranspose_eq_transpose_of_trivial]
  exact posSemidef_conjTranspose_mul_self _

/-- The parts of the mean, with a checker. -/
noncomputable def checkedMean : ProblemParts Unit ℝ :=
  { Fit.meanParts with checker := .checker (.rms (.real 1e-10) (.real 1e-10)) }

theorem exists_create_checkedMean [Exact.Factorizations] {W : Matrix (Fin 2) (Fin 2) ℝ}
    {weight : Option (Nested ℝ)} (h : WeightRoot.Given W weight) :
    ∃ P : Problem Unit ℝ 2 1, Problem.create { checkedMean with weight } = .ok ⟨2, 1, P⟩ ∧
      P.target = Vec.ofList [0, 4] ∧
      P.model.IsAffine GaussNewton.ones (Vec.replicate 2 0) ∧ P.validator = none := by
  have hlinear : Fit.IsLinear { Fit.meanParts with weight } [0, 4] [1] GaussNewton.ones W :=
    { Fit.meanParts_isLinear with weight := h }
  obtain ⟨P, hP, -, htarget, hsolves⟩ :=
    hlinear.exists_create Nat.two_pos (.rms (.real 1e-10) (.real 1e-10))
  exact ⟨P, hP, htarget, hsolves.model, hsolves.validator⟩

theorem Problem.create_inForm_mean :
    let _ := Exact.factorizations
    (∃ (P : Problem Unit ℝ 2 1) (e : Evaluation ℝ 2 1),
      create { checkedMean with weight := some (.ofLists slantedWeight.toLists) } =
        .ok ⟨2, 1, P⟩ ∧
      (P.evaluation (Vec.replicate 1 0)).after () = (.ok e, ()) ∧
      Residuals.chiSquare e.residuals = 32) ∧
    ∃ P P' : Problem Unit ℝ 2 1,
      create { checkedMean with weight := some (.ofList GaussNewton.meanWeights.toList) } =
        .ok ⟨2, 1, P⟩ ∧
      create { checkedMean with weight := some (.ofLists GaussNewton.meanWeights.diagonal.toLists) }
        = .ok ⟨2, 1, P'⟩ ∧ P.Agrees P' := by
  intro _
  have hmean (i : Fin 2) : 0 ≤ GaussNewton.meanWeights i := by
    rw [GaussNewton.meanWeights, Vec.ofFn_apply]
    exact Nat.cast_nonneg _
  have hdiagonal : GaussNewton.meanWeights.diagonal.toMatrix.PosSemidef :=
    GaussNewton.meanWeights.diagonal_toMatrix ▸ posSemidef_diagonal_iff.mpr hmean
  constructor
  · have he := Exact.factorizations_eigen (Eigen.exists_factors slantedWeight_posSemidef.isHermitian)
    obtain ⟨P, hP, htarget, hmodel, hvalidator⟩ :=
      exists_create_checkedMean (.matrix slantedWeight_posSemidef he)
    obtain ⟨_, hform⟩ := (create_inForm (σ := Unit)).1 2 slantedWeight slantedWeight_posSemidef he
    obtain ⟨n, P', hPP', hform⟩ := hform checkedMean ⟨2, 1, P⟩ hP
    cases hPP'
    obtain ⟨_, hplain⟩ := hmodel.plain hvalidator (Vec.replicate 1 0) ()
    obtain ⟨e, hevaluation, -, hinForm⟩ := hform _ _ _ _ _ _ hplain
    refine ⟨P, e, hP, hevaluation, hinForm.chiSquare.trans ?_⟩
    have hvalue : (GaussNewton.ones.affine (Vec.replicate 2 0) (Vec.replicate 1 0)).get = 0 := by
      funext i
      simp [Mat.affine, Mat.mulVec_apply, Exact.sum_eq, Vec.replicate_apply]
    have htarget' : P.target.get = ![0, 4] := by
      rw [htarget]
      funext i
      fin_cases i <;> rfl
    rw [hvalue, htarget', sub_zero, slantedWeight, Mat.gram_toMatrix]
    simp [Matrix.mul_apply, dotProduct, mulVec, Fin.sum_univ_two, Mat.toMatrix]
    norm_num
  · have he := Exact.factorizations_eigen (Eigen.exists_factors hdiagonal.isHermitian)
    obtain ⟨P, hP, -⟩ := exists_create_checkedMean (.vector hmean)
    obtain ⟨P', hP', -⟩ := exists_create_checkedMean (.matrix hdiagonal he)
    obtain ⟨-, hagrees⟩ :=
      (create_inForm (σ := Unit)).2 2 GaussNewton.meanWeights hmean he checkedMean
    obtain ⟨n, Q, Q', hQ, hQ', hagrees⟩ := hagrees _ _ hP hP'
    cases hQ
    cases hQ'
    exact ⟨P, P', hP, hP', hagrees⟩

end LeastSquares
