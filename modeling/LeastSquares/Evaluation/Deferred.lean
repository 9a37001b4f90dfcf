import LeastSquares.Act
import LeastSquares.Evaluation.Query

/-!
# Deferred evaluations

An evaluation whose model call may still be outstanding. The first question that needs residuals
or Jacobian makes the call and keeps what it returns; a call that fails leaves nothing behind, and
the next such question makes it again.
-/

namespace LeastSquares

variable {α σ : Type} {m n : Nat}

/-- A point, with the residuals and the Jacobian there once they are known. -/
structure Deferred (α : Type) (m n : Nat) where
  point : Vec α n
  values : Option (Vec α m × Mat α m n)

namespace Deferred

/-- The model call at a point. -/
abbrev Compute (σ α : Type) (m n : Nat) : Type :=
  Vec α n → Act σ (Failure α) (Vec α m × Mat α m n)

/-- The evaluation with its values known, for which the call is made if it is outstanding. -/
def force (compute : Compute σ α m n) (d : Deferred α m n) :
    Act σ (Failure α) (Evaluation α m n) := do
  match d.values with
  | some (r, J) => return ⟨d.point, r, J⟩
  | none =>
    let (r, J) ← compute d.point
    return ⟨d.point, r, J⟩

/-- An evaluation with its values known. -/
def ofEvaluation (e : Evaluation α m n) : Deferred α m n :=
  ⟨e.point, some (e.residuals, e.jacobian)⟩

/-- The answer to a question together with the evaluation as it is afterwards. -/
def ask [Scalar α] (compute : Compute σ α m n) (d : Deferred α m n) (q : Query α) (s : σ) :
    Except (Failure α) (Answer α) × Deferred α m n × σ :=
  if q.isPoint then (.ok (.vector d.point.toList), d, s)
  else
    match (d.force compute).after s with
    | (.error f, s) => (.error f, d, s)
    | (.ok e, s) => (e.ask q, ofEvaluation e, s)

/-- Once the values are known, no question makes a call, and all are answered as by the
evaluation itself. -/
theorem ask_ofEvaluation [Scalar α] (compute : Compute σ α m n) (e : Evaluation α m n)
    (q : Query α) (s : σ) :
    (ofEvaluation e).ask compute q s = (e.ask q, ofEvaluation e, s) := by
  cases q <;> rfl

end Deferred

end LeastSquares
