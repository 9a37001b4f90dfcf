import LeastSquares.Problem

/-!
# Optima and progress

What an optimizer returns, the evaluation it stopped at and the budget it used, and what it
records on its way there. Every attempt at an evaluation leaves a `Progress`, also an attempt that
the budget did not allow or that failed.
-/

namespace LeastSquares

variable {α β σ : Type} {m n : Nat}

/-- The evaluation a run stopped at, with the evaluations made and the iterations begun. -/
structure Optimum (α : Type) (m n : Nat) where
  evaluation : Evaluation α m n
  evaluations : Nat
  iterations : Nat

/-- The description of an optimum, from that of its evaluation and from its counts. -/
def describeOptimum (evaluation evaluations iterations : String) : String :=
  s!"Optimum(evaluation={evaluation}, evaluations={evaluations}, iterations={iterations})"

/-- How far an attempt at an evaluation got. -/
inductive Progress (β : Type) where
  /-- No evaluation was begun: there was no budget for it. -/
  | unaffordable
  /-- The evaluation failed. -/
  | failed
  /-- The evaluation was made. The verdict is there if the checker was asked and gave one. -/
  | made (found : β) (verdict : Option Bool)

namespace Progress

/-- Whether the evaluation was begun. -/
def isAffordable : Progress β → Bool
  | unaffordable => false
  | _ => true

/-- What was found, if the evaluation was made. -/
def found? : Progress β → Option β
  | made found _ => some found
  | _ => none

/-- The checker's verdict, if there is one. -/
def verdict? : Progress β → Option Bool
  | made _ verdict => verdict
  | _ => none

end Progress

/-- The verdict of a problem's checker, `none` if it has none. -/
def Problem.consult [Scalar α] (P : Problem σ α m n) (iteration : Nat)
    (previous current : Evaluation α m n) : Act σ (Failure α) (Option Bool) :=
  match P.checker with
  | none => pure none
  | some c => some <$> c.converged iteration previous current

end LeastSquares
