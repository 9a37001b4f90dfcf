import LeastSquares.GaussNewton
import LeastSquares.Proofs.Runs

/-!
# Failures that come from within a run

A run calls the model, the validator and the checker, decomposes Jacobians and solves for steps.
Whatever fails there does so for a reason of its own: not because a counter was exceeded, not
because a tolerance was out of reach and not because something was set up wrongly. These three are
failures of the loop itself, and `Failure.isInner` is what they are not.

Results:
* `Problem.inner_evaluation`, `Problem.inner_consult`, `Checker.inner_converged`,
  `GaussNewton.inner_consult`: calls of what the caller supplied;
* `Decomposition.inner_ofJacobian`, `LevenbergMarquardt.Search.inner_start`,
  `Method.inner_solveBy`: the linear algebra of an iteration.
-/

namespace LeastSquares

variable {α σ β γ : Type} {m n : Nat}

/-- A failure of neither a counter, nor a tolerance, nor the configuration. -/
def Failure.isInner : Failure α → Bool
  | exceeded .. | tolerance .. => false
  | f => f.category != .configuration

theorem Failure.category_ne_of_isInner {f : Failure α} (h : f.isInner) :
    f.category ≠ .configuration := by
  intro hf
  cases f <;> simp_all [isInner]

theorem Failure.ne_exceeded_of_isInner {f : Failure α} (h : f.isInner) (category : Category)
    (k : Int) : f ≠ .exceeded category k := by
  rintro rfl
  cases h

/-! ## Results and actions -/

/-- If it fails, then from within. -/
structure Inner (x : Except (Failure α) β) : Prop where
  of_error : ∀ f, x = .error f → f.isInner

theorem inner_ok (b : β) : Inner (.ok b : Except (Failure α) β) := ⟨nofun⟩

theorem inner_error {f : Failure α} (h : f.isInner) : Inner (.error f : Except (Failure α) β) := by
  constructor
  intro g hg
  cases hg
  exact h

theorem Inner.bind {x : Except (Failure α) β} {f : β → Except (Failure α) γ} (hx : Inner x)
    (hf : ∀ b, Inner (f b)) : Inner (x >>= f) := by
  cases x with
  | ok b => exact hf b
  | error e => exact inner_error (hx.of_error e rfl)

theorem Inner.ite {c : Prop} [Decidable c] {x y : Except (Failure α) β} (hx : Inner x)
    (hy : Inner y) : Inner (if c then x else y) := by
  split
  · exact hx
  · exact hy

namespace Act

/-- An action that fails from within, if it fails. -/
structure Inner (a : Act σ (Failure α) β) : Prop where
  after : ∀ s, LeastSquares.Inner (a.after s).1

theorem Inner.of_after_eq {a : Act σ (Failure α) β} (ha : Inner a) {s s' : σ} {f : Failure α}
    (h : a.after s = (.error f, s')) : f.isInner := by
  have hs := ha.after s
  rw [h] at hs
  exact hs.of_error f rfl

theorem inner_pure (b : β) : Inner (pure b : Act σ (Failure α) β) := ⟨fun _ => inner_ok b⟩

theorem inner_ofExcept {x : Except (Failure α) β} (hx : LeastSquares.Inner x) :
    Inner (ofExcept x : Act σ (Failure α) β) := ⟨fun _ => hx⟩

theorem Inner.bind {a : Act σ (Failure α) β} {f : β → Act σ (Failure α) γ} (ha : Inner a)
    (hf : ∀ b, Inner (f b)) : Inner (a >>= f) := by
  constructor
  intro s
  have hs := ha.after s
  rw [after_bind]
  rcases h : a.after s with ⟨e | b, s'⟩ <;> rw [h] at hs
  · exact inner_error (hs.of_error e rfl)
  · exact (hf b).after s'

theorem Inner.map {a : Act σ (Failure α) β} (ha : Inner a) (f : β → γ) : Inner (f <$> a) := by
  rw [map_eq_pure_bind]
  exact ha.bind fun _ => inner_pure _

/-- What a caller raises is only passed on. -/
theorem inner_raised (a : Act σ Fault β) : Inner (a.mapError (Failure.raised (α := α))) := by
  constructor
  intro s
  rw [after_mapError]
  cases (a.after s).1 with
  | error e => exact inner_error (by cases e <;> rfl)
  | ok b => exact inner_ok b

end Act

/-! ## Arrays -/

namespace Nested

theorem inner_shapeOf (a : Nested α) : Inner a.shapeOf := by
  have hdefect : a.defect.isInner := by
    unfold defect
    split <;> rfl
  unfold shapeOf
  split
  · exact inner_error hdefect
  · exact .ite (inner_ok _) (inner_error rfl)

theorem inner_vectorEntries (a : Nested α) (name : String) : Inner (a.vectorEntries name) := by
  refine (inner_shapeOf a).bind fun s => ?_
  split
  · exact inner_ok _
  · exact inner_ok _
  · exact inner_error rfl

theorem inner_vector (a : Nested α) (name sized : String) (n : Nat) :
    Inner (a.vector name sized n) := by
  refine (inner_vectorEntries a name).bind fun xs => ?_
  split
  · exact inner_ok _
  · exact inner_error rfl

theorem inner_matrix (a : Nested α) (name : String) (m n : Nat) :
    Inner (a.matrix name m n) := by
  have hrows : Inner (a.matrixRows name) := by
    refine (inner_shapeOf a).bind fun s => ?_
    split
    · exact inner_ok _
    · exact inner_error rfl
  refine hrows.bind fun ⟨r, c, rows⟩ => ?_
  simp only
  split
  · exact .ite (inner_ok _) (inner_error rfl)
  · exact inner_error rfl

end Nested

/-! ## Problems -/

namespace Problem

variable [Scalar α] (P : Problem σ α m n)

theorem inner_compute (p : Vec α n) : (P.compute p).Inner :=
  (Act.inner_raised _).bind fun _ => (Act.inner_ofExcept (Nested.inner_vector ..)).bind
    fun _ => (Act.inner_ofExcept (Nested.inner_matrix ..)).bind fun _ => Act.inner_pure _

theorem inner_evaluate (p : Vec α n) : (P.evaluate p).Inner := by
  have hvalidate : (P.validate p).Inner := by
    unfold validate
    cases P.validator with
    | none => exact Act.inner_pure _
    | some validator =>
      exact (Act.inner_raised _).bind fun _ => Act.inner_ofExcept (Nested.inner_vector ..)
  refine hvalidate.bind fun q => ?_
  split
  · exact Act.inner_pure _
  · exact (P.inner_compute q).bind fun _ => Act.inner_pure _

/-- An evaluation fails from within. -/
theorem inner_evaluation (p : Vec α n) : (P.evaluation p).Inner := by
  refine (P.inner_evaluate p).bind fun d => ?_
  unfold Deferred.force
  cases d.values with
  | some rJ => exact Act.inner_pure _
  | none => exact (P.inner_compute d.point).bind fun _ => Act.inner_pure _

end Problem

section Checker

variable [Scalar α]

theorem Residuals.inner_rms (r : Vec α m) : Inner (Residuals.rms r) := by
  unfold rms
  exact .ite (inner_error rfl) (inner_ok _)

/-- So does a question to a checker. -/
theorem Checker.inner_converged {m₁ n₁ m₂ n₂ : Nat} (c : Checker σ α) (iteration : Int)
    (previous : Evaluation α m₁ n₁) (current : Evaluation α m₂ n₂) :
    (c.converged iteration previous current).Inner := by
  have hsettled {a b : Nat} (relative absolute : α) (p : Vec α a) (q : Vec α b) :
      Inner (settled relative absolute p q) := by
    unfold settled
    split
    · exact inner_ok _
    · exact inner_error rfl
  unfold converged
  cases c with
  | entries subject relative absolute limit =>
    simp only
    split
    · exact Act.inner_pure _
    · cases subject <;> exact Act.inner_ofExcept (hsettled ..)
  | rms relative absolute =>
    exact Act.inner_ofExcept ((Residuals.inner_rms _).bind fun _ =>
      (Residuals.inner_rms _).bind fun _ => inner_ok _)
  | function f => exact Act.inner_raised _

theorem Problem.inner_consult (P : Problem σ α m n) (iteration : Nat)
    (previous current : Evaluation α m n) : (P.consult iteration previous current).Inner := by
  unfold consult
  cases P.checker with
  | none => exact Act.inner_pure _
  | some c => exact (c.inner_converged ..).map _

end Checker

/-! ## Linear algebra -/

/-- So does the decomposition of a Jacobian. -/
theorem Decomposition.inner_ofJacobian [Scalar α] (J : Mat α m n) (t : α) :
    Inner (ofJacobian J t) := by
  have h (ks : List (Fin n)) (d : Decomposition α m n) : Inner (steps t ks d) := by
    induction ks generalizing d with
    | nil => exact inner_ok _
    | cons k ks ih =>
      rw [steps]
      refine .ite (inner_error rfl) (.ite (inner_ok _) ?_)
      split
      · exact ih _
      · exact inner_error rfl
  exact h _ _

namespace LevenbergMarquardt.Search

variable [Scalar α]

theorem inner_start (o : Options α) (st : Standing α m n) (rg : Region α n) :
    Inner (start o st rg) :=
  (Decomposition.inner_ofJacobian _ _).bind fun _ => inner_ok _

/-- The checker is asked about the trials that were accepted. -/
theorem inner_consult (s : Search α m n) (P : Problem σ α m n) (iteration : Nat)
    (e : Evaluation α m n) : (s.consult P iteration e).Inner := by
  unfold consult
  split
  · exact P.inner_consult iteration s.base e
  · exact Act.inner_pure _

end LevenbergMarquardt.Search

theorem GaussNewton.inner_consult [Spectral α] (c : Checker σ α) (iteration : Nat)
    (previous : Option (Evaluation α m n)) (current : Evaluation α m n) :
    (consult c iteration previous current).Inner := by
  unfold consult
  cases previous with
  | none => exact Act.inner_pure _
  | some p => exact (c.inner_converged iteration p current).map _

namespace Method

theorem inner_resize {k : Nat} (v : Vec α k) (m : Nat) : Inner (v.resize m) := by
  unfold Vec.resize
  split
  · exact inner_ok _
  · exact inner_error rfl

section

variable [Scalar α]

theorem inner_requireFinite (v : Vec α n) : Inner (requireFinite v) :=
  .ite (inner_ok _) (inner_error rfl)

theorem inner_solveLu (J : Mat α m n) (r : Vec α m) : Inner (solveLu J r) :=
  .ite (inner_error rfl)
    (.ite (inner_error rfl) ((inner_requireFinite _).bind fun _ => inner_ok _))

theorem inner_solveCholesky (J : Mat α m n) (r : Vec α m) : Inner (solveCholesky J r) := by
  refine .ite (inner_error rfl) ?_
  split
  · exact inner_error rfl
  · exact .ite (inner_error rfl) ((inner_requireFinite _).bind fun _ => inner_ok _)

theorem inner_solveQr {k : Nat} (J : Mat α m n) (r : Vec α k) : Inner (solveQr J r) :=
  .ite (inner_error rfl) (.ite (inner_error rfl) ((inner_resize r m).bind fun _ =>
    .ite (inner_error rfl) (.ite (inner_error rfl) (inner_ok _))))

end

/-- And so does a solver. -/
theorem inner_solveBy [Spectral α] {k : Nat} (method : Option Method) (J : Mat α m n)
    (r : Vec α k) : Inner (solveBy method J r) := by
  cases method with
  | none => exact inner_error rfl
  | some method =>
    cases method with
    | qr => exact inner_solveQr J r
    | lu => exact (inner_resize r m).bind fun _ => inner_solveLu J _
    | cholesky => exact (inner_resize r m).bind fun _ => inner_solveCholesky J _
    | svd =>
      exact (inner_resize r m).bind fun _ =>
        .ite (inner_error rfl) ((inner_requireFinite _).bind fun _ => inner_ok _)

end Method

end LeastSquares
