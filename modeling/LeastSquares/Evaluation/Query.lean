import LeastSquares.Evaluation
import LeastSquares.Nested

/-!
# Queries

The questions that an evaluation answers. The parts that are asked for need not fit together in
size: each answer depends on the point, on the residuals or on the Jacobian alone, except for the
description, which names the sizes of two of them.
-/

namespace LeastSquares

variable {α : Type} {m n r c : Nat}

/-- A question to an evaluation. -/
inductive Query (α : Type) where
  | point
  | residuals
  | jacobian
  | observationSize
  | cost
  | chiSquare
  | rms
  | description
  | reducedChiSquare (fitted : Number α)
  | covariances (threshold : Number α)
  | sigma (threshold : Number α)
  deriving Repr

/-- An answer. -/
inductive Answer (α : Type) where
  | number (x : α)
  | count (n : Nat)
  | vector (xs : List α)
  | matrix (rows : List (List α))
  /-- The sizes of point and residuals, and the cost. -/
  | description (parameters observations : Nat) (cost : α)
  deriving Repr

namespace Query

/-- Whether the answer depends on the point alone. -/
def isPoint : Query α → Bool
  | point => true
  | _ => false

/-- The answer for a point, residuals and a Jacobian. -/
def answer [Scalar α] (q : Query α) (p : Vec α n) (res : Vec α m) (J : Mat α r c) :
    Except (Failure α) (Answer α) :=
  match q with
  | point => .ok (.vector p.toList)
  | residuals => .ok (.vector res.toList)
  | jacobian => .ok (.matrix J.toLists)
  | observationSize => .ok (.count m)
  | cost => .ok (.number (Residuals.cost res))
  | chiSquare => .ok (.number (Residuals.chiSquare res))
  | rms => (Residuals.rms res).map .number
  | description => .ok (.description n m (Residuals.cost res))
  | reducedChiSquare fitted => (Residuals.reducedChiSquare res fitted).map .number
  | covariances threshold => (Jacobian.covariances J threshold).map fun C => .matrix C.toLists
  | sigma threshold => (Jacobian.sigma J threshold).map fun s => .vector s.toList

/-- The answer for parts given as arrays. Only a Jacobian of two dimensions has covariances. -/
def answerArrays [Scalar α] (q : Query α) (p res : List α) (J : Nested α) :
    Except (Failure α) (Answer α) := do
  let (r, c, rows) := (J.matrixRows "jacobian").toOption.getD (0, 0, [])
  match q, J.shape?, Mat.ofLists? r c rows with
  | covariances _, some [_, _], some J | sigma _, some [_, _], some J =>
    q.answer (Vec.ofList p) (Vec.ofList res) J
  | covariances _, _, _ | sigma _, _, _ => throw .sizes
  | _, _, some J => q.answer (Vec.ofList p) (Vec.ofList res) J
  | _, _, none => throw J.defect

end Query

/-- The answer of an evaluation. -/
def Evaluation.ask [Scalar α] (e : Evaluation α m n) (q : Query α) :
    Except (Failure α) (Answer α) :=
  q.answer e.point e.residuals e.jacobian

/-- How an evaluation is named in its description: by whether its model call was deferred. -/
def evaluationKind (deferred : Bool) : String :=
  if deferred then "LazyEvaluation" else "ArrayEvaluation"

/-- The description of an evaluation. -/
def describeEvaluation (deferred : Bool) (parameters observations : Nat) (cost : Float) : String :=
  s!"{evaluationKind deferred}(n={parameters}, m={observations}, " ++
    s!"cost={Decimal.generalText 6 cost})"

end LeastSquares
