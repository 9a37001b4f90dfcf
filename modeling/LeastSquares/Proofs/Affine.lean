import Mathlib.Analysis.Real.Sqrt
import LeastSquares.Problem
import LeastSquares.Proofs.Exact

/-!
# Affine models

A model is affine if every call returns `A p + b` and the Jacobian `A`, whatever the caller's state
is then and whether value and Jacobian come from one call or two. Without a validator, every point
is evaluated as it stands.

Results:
* `Nested.matrix_ofLists`: a matrix comes back from the array that it was laid out as;
* `Problem.evaluation_after`: an evaluation by its two calls, to the validator and to the model;
* `Model.IsAffine.evaluation`: the evaluation of a problem with an affine model;
* `affineModel_isAffine`: the model of a matrix and a vector is affine.
-/

namespace LeastSquares

variable {α σ : Type} {m n : Nat}

/-! ## Matrices as arrays -/

namespace Nested

/-- The shape of rows of one length. An array without rows has one dimension only. -/
theorem shape?_ofLists {rows : List (List α)} (hne : rows ≠ [])
    (h : ∀ row ∈ rows, row.length = n) : (ofLists rows).shape? = some [rows.length, n] := by
  have hrows (rows : List (List α)) (h : ∀ row ∈ rows, row.length = n) :
      (rows.map ofList).mapM shape? = some (rows.map fun _ => [n]) := by
    induction rows with
    | nil => rfl
    | cons row rows ih =>
      rw [List.map_cons, List.mapM_cons, shape?_ofList, h row List.mem_cons_self,
        ih fun row' hmem => h row' (List.mem_cons_of_mem row hmem)]
      rfl
  have e := List.mapM_subtype (l := (rows.map ofList).attach)
    (f := fun x => shape? x.1) (g := shape?) (fun _ _ => rfl)
  rw [List.unattach_attach] at e
  unfold ofLists shape?
  rw [e, hrows rows h]
  cases rows with
  | nil => exact absurd rfl hne
  | cons row rows => simp

/-- The shape of a matrix that is laid out as an array, if it has a row. -/
theorem shapeOf_ofLists (A : Mat α m n) (hm : 0 < m) :
    (ofLists A.toLists).shapeOf = .ok [m, n] := by
  have hlength : A.toLists.length = m := by rw [Mat.toLists, List.length_map, Vec.length_toList]
  have hne : A.toLists ≠ [] := List.ne_nil_of_length_pos (hm.trans_eq hlength.symm)
  have hrows : ∀ row ∈ A.toLists, row.length = n := by
    intro row hmem
    obtain ⟨v, -, rfl⟩ := List.mem_map.mp hmem
    exact v.length_toList
  unfold shapeOf
  rw [shape?_ofLists hne hrows, hlength]
  rfl

/-- Its rows come back from the array. -/
theorem matrixRows_ofLists (A : Mat α m n) (hm : 0 < m) (name : String) :
    (ofLists A.toLists).matrixRows name = .ok (m, n, A.toLists) := by
  have hitems : (ofLists A.toLists).items.map flatten = A.toLists := by
    change (A.toLists.map ofList).map flatten = _
    rw [List.map_map]
    exact (List.map_congr_left fun row _ => flatten_ofList row).trans (List.map_id _)
  unfold matrixRows
  rw [shapeOf_ofLists A hm]
  simp only [bind, Except.bind, pure, Except.pure, hitems]

/-- A matrix comes back from the array that it was laid out as, if it has a row. -/
theorem matrix_ofLists (A : Mat α m n) (hm : 0 < m) (name : String) :
    (ofLists A.toLists).matrix name m n = .ok A := by
  unfold matrix
  rw [matrixRows_ofLists A hm]
  simp only [bind, Except.bind, pure, Except.pure, Mat.ofLists?_toLists, if_true]

/-- An array without items is no matrix. -/
theorem shapeOf_of_items_nil {a : Nested α} (h : a.items = []) (r c : Nat) :
    a.shapeOf ≠ .ok [r, c] := by
  intro hs
  cases a with
  | number | text | other => simp [shapeOf, shape?, maxDimensions] at hs
  | list items =>
    obtain rfl : items = [] := h
    simp [shapeOf, shape?, maxDimensions] at hs

/-- A matrix that is laid out as an array has a row. -/
theorem rows_pos_of_matrix {a : Nested α} {name : String} {A : Mat α m n}
    (h : a.matrix name m n = .ok A) : 0 < m := by
  refine Nat.pos_of_ne_zero fun hm => ?_
  subst hm
  have hnone (row : List α) (rows : List (List α)) : Mat.ofLists? 0 n (row :: rows) = none := by
    unfold Mat.ofLists?
    rw [List.mapM_cons]
    cases Vec.ofList? n row with
    | none => rfl
    | some v =>
      cases rows.mapM (Vec.ofList? n) with
      | none => rfl
      | some vs =>
        have hlength : (v :: vs).length ≠ 0 := List.length_cons ▸ Nat.succ_ne_zero _
        exact congrArg (Option.map Mat.mk) (Vec.ofList?_eq_none hlength)
  unfold matrix matrixRows at h
  match hs : a.shapeOf, h with
  | .error _, h => cases h
  | .ok [r, c], h =>
    cases hi : a.items with
    | nil => exact shapeOf_of_items_nil hi r c hs
    | cons x xs =>
      rw [hi, List.map_cons] at h
      simp only [bind, Except.bind, pure, Except.pure, hnone] at h
      cases h

end Nested

/-! ## Evaluations -/

namespace Problem

variable [Scalar α] (P : Problem σ α m n)

/-- **An evaluation with the read of its residuals** makes the same calls, deferred or not. -/
theorem evaluation_after (p : Vec α n) (w : σ) : (P.evaluation p).after w =
    match (P.validate p).after w with
    | (.error f, w₁) => (.error f, w₁)
    | (.ok q, w₁) => (((P.compute q).after w₁).1.map fun rJ => ⟨q, rJ.1, rJ.2⟩,
        ((P.compute q).after w₁).2) := by
  unfold evaluation evaluate
  rw [Act.after_bind, Act.after_bind]
  rcases (P.validate p).after w with ⟨f | q, w₁⟩
  · rfl
  cases P.deferred with
  | true =>
    simp only [if_true, Act.after_pure]
    unfold Deferred.force
    rw [Act.after_bind]
    rcases (P.compute q).after w₁ with ⟨f | rJ, w₂⟩ <;> rfl
  | false =>
    simp only [Bool.false_eq_true, if_false]
    rw [Act.after_bind]
    rcases (P.compute q).after w₁ with ⟨f | rJ, w₂⟩ <;> rfl

omit [Scalar α] in
/-- Without a validator, the point stays as it is. -/
theorem validate_of_validator (hv : P.validator = none) (p : Vec α n) : P.validate p = pure p := by
  unfold validate
  rw [hv]

theorem evaluation_of_validator (hv : P.validator = none) (p : Vec α n) (w : σ) :
    (P.evaluation p).after w = (((P.compute p).after w).1.map fun rJ => ⟨p, rJ.1, rJ.2⟩,
      ((P.compute p).after w).2) := by
  rw [P.evaluation_after, P.validate_of_validator hv, Act.after_pure]

end Problem

/-- `A p + b`. -/
noncomputable def Mat.affine (A : Mat ℝ m n) (b : Vec ℝ m) (p : Vec ℝ n) : Vec ℝ m :=
  Vec.ofFn fun i => A.mulVec p i + b i

/-- **An affine model**: whatever it remembers, it returns `A p + b` and the Jacobian `A`. -/
def Model.IsAffine (model : Model σ ℝ n) (A : Mat ℝ m n) (b : Vec ℝ m) : Prop :=
  ∀ p w, ∃ V M w', (model.call p).after w = (.ok (V, M), w') ∧
    V.vector "model value" "model value" m = .ok (A.affine b p) ∧
    M.matrix "model jacobian" m n = .ok A

/-- An affine model has an observation, as an array without rows is no matrix. -/
theorem Model.IsAffine.rows_pos {model : Model σ ℝ n} {A : Mat ℝ m n} {b : Vec ℝ m}
    (h : model.IsAffine A b) (w : σ) : 0 < m := by
  obtain ⟨_, _, _, -, -, hM⟩ := h (Vec.replicate n 0) w
  exact Nested.rows_pos_of_matrix hM

/-- What is computed of an affine model. -/
theorem Model.IsAffine.compute {P : Problem σ ℝ m n} {A : Mat ℝ m n} {b : Vec ℝ m}
    (h : P.model.IsAffine A b) (p : Vec ℝ n) (w : σ) :
    ∃ w', (P.compute p).after w = (.ok (P.residuals (A.affine b p), P.jacobian A), w') := by
  obtain ⟨V, M, w', hcall, hV, hM⟩ := h p w
  refine ⟨w', ?_⟩
  unfold Problem.compute
  simp only [Act.after_bind, Act.after_mapError, hcall, Except.mapError, Act.after_ofExcept, hV,
    hM, Act.after_pure]

/-- Without a validator, every point is evaluated as it stands. -/
theorem Model.IsAffine.evaluation {P : Problem σ ℝ m n} {A : Mat ℝ m n} {b : Vec ℝ m}
    (h : P.model.IsAffine A b) (hv : P.validator = none) (p : Vec ℝ n) (w : σ) :
    ∃ w', (P.evaluation p).after w =
      (.ok ⟨p, P.residuals (A.affine b p), P.jacobian A⟩, w') := by
  obtain ⟨w', hcompute⟩ := h.compute p w
  exact ⟨w', by rw [P.evaluation_of_validator hv, hcompute]; rfl⟩

/-- The model of a matrix and a vector. -/
noncomputable def affineModel (A : Mat ℝ m n) (b : Vec ℝ m) : Model Unit ℝ n :=
  .joint fun p => pure (.ofList (A.affine b p).toList, .ofLists A.toLists)

theorem affineModel_isAffine (A : Mat ℝ m n) (hm : 0 < m) (b : Vec ℝ m) :
    (affineModel A b).IsAffine A b := fun p w =>
  ⟨_, _, w, rfl, Nested.vector_ofList (A.affine b p) _ _, Nested.matrix_ofLists A hm _⟩

end LeastSquares
