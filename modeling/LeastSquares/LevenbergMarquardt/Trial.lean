import LeastSquares.LevenbergMarquardt.Options
import LeastSquares.Damped.Parameter
import LeastSquares.Problem

/-!
# Trials of the trust-region method

One outer iteration decomposes the Jacobian of the evaluation the run stands on. Its trials each
propose a step within the trust region, compare the reduction of the cost at the new point with
the one that the linear model predicts, and widen or shrink the region. A trial is accepted if the
ratio of the two reductions is at least `0.0001`; otherwise the run stays where it stands and the
decomposition serves the next trial.

`Search.start` begins an outer iteration, `Search.propose` makes a step, `Search.assess` judges it
and `Search.next` says how the run goes on.
-/

namespace LeastSquares.LevenbergMarquardt

variable {α : Type} {m n : Nat}

/-- Where a run stands: an evaluation, its cost and its point. -/
structure Standing (α : Type) (m n : Nat) where
  evaluation : Evaluation α m n
  cost : α
  point : Vec α n

/-- The trust region. -/
structure Region (α : Type) (n : Nat) where
  radius : α
  lambda : α
  /-- The scaling of the parameters. -/
  scaling : Vec α n
  /-- The scaled length of the point. -/
  length : α
  /-- Whether no trial has been accepted yet. -/
  fresh : Bool

/-- An outer iteration between its trials. -/
structure Search (α : Type) (m n : Nat) where
  /-- The evaluation at the start of the outer iteration. -/
  base : Evaluation α m n
  standing : Standing α m n
  region : Region α n
  /-- The decomposition of the Jacobian, with the diagonal of `R` written into its buffer. -/
  decomposition : Decomposition α m n
  /-- `Qᵀ r`. -/
  projected : Vec α m
  /-- The largest cosine between the residuals and a solved column. -/
  maxCosine : α

/-- A step to try. -/
structure Proposal (α : Type) (m n : Nat) where
  lambda : α
  step : Vec α n
  /-- The scaled length of the step. -/
  length : α
  /-- The radius, cut to the length of the step before the first accepted trial. -/
  radius : α
  point : Vec α n
  decomposition : Decomposition α m n

/-- The evaluation of a trial and the reductions it is judged by. -/
structure Assessment (α : Type) (m n : Nat) where
  evaluation : Evaluation α m n
  cost : α
  /-- The actual reduction, relative to the squared cost. -/
  actual : α
  /-- The reduction of the linear model. -/
  predicted : α
  /-- The derivative of the linear model along the step. -/
  slope : α
  ratio : α

variable [Scalar α]

/-- The ratio from which a trial is accepted. -/
def acceptRatio : α := 1.0e-4

/-- The ratio up to which the region shrinks. -/
def shrinkRatio : α := 0.25

/-- The ratio from which the region widens. -/
def expandRatio : α := 0.75

/-- Twice the distance of neighbouring numbers at one: no tolerance below it can be met. -/
def twoEpsilon : α := 2.0 * Scalar.epsilon

/-- Where a run stands that is at an evaluation. -/
def Standing.ofEvaluation (e : Evaluation α m n) : Standing α m n := ⟨e, e.cost, e.point⟩

namespace Region

/-- The region before the first outer iteration. -/
def initial : Region α n := ⟨0, 0, Vec.replicate n 0, 0, true⟩

/-- The scaled length of a point. -/
def lengthOf (scaling point : Vec α n) : α := norm (Damped.scaled scaling point)

/-- The region of the first outer iteration: each parameter is scaled by the norm of its column,
by one if that is zero. -/
def ofColumnNorms (factor : α) (columnNorm point : Vec α n) : Region α n :=
  let scaling := columnNorm.map fun s => if s == 0 then 1 else s
  let length := lengthOf scaling point
  ⟨if length == 0 then factor else factor * length, 0, scaling, length, true⟩

/-- The region with no scale below the column norms. -/
def widenScaling (r : Region α n) (columnNorm : Vec α n) : Region α n :=
  { r with scaling := Vec.ofFn fun c => Scalar.largest (r.scaling c) (columnNorm c) }

end Region

/-- The largest cosine between the residuals and a solved column, zero at zero cost. Null columns
are left out. -/
def largestCosine (d : Decomposition α m n) (projected : Vec α m) (cost : α) : α :=
  if cost == 0 then 0
  else
    let products : Vec α (min m n) :=
      d.gradient (Nat.min_le_left m n) (Nat.min_le_right m n) projected
    let norms : Vec α (min m n) := d.gather (Nat.min_le_right m n) d.columnNorm
    Fin.foldl (min m n)
      (fun c k =>
        if norms k == 0 then c
        else Scalar.largest c (Scalar.abs (products k) / (norms k * cost)))
      0

namespace Search

/-- Begins an outer iteration. -/
def start (o : Options α) (s : Standing α m n) (r : Region α n) :
    Except (Failure α) (Search α m n) := do
  let d ← Decomposition.ofJacobian s.evaluation.jacobian o.rankingThreshold
  let projected := d.transposeApply s.evaluation.residuals
  let d := d.writeDiagonal (min m n)
  let region := if r.fresh then
    { Region.ofColumnNorms o.initialStepFactor d.columnNorm s.point with lambda := r.lambda } else r
  return {
    base := s.evaluation
    standing := s
    region := region.widenScaling d.columnNorm
    decomposition := d
    projected
    maxCosine := largestCosine d projected s.cost }

/-- The next step to try. -/
def propose (s : Search α m n) : Proposal α m n :=
  let hm := Nat.min_le_left m n
  let hn := Nat.min_le_right m n
  let r := s.region
  let found := s.decomposition.parameter hm hn s.projected r.radius r.scaling r.lambda
  let step := found.direction.map fun x => -x
  let length := norm <| Damped.scaled (found.decomposition.gather hn r.scaling)
    (found.decomposition.gather hn step)
  { lambda := found.lambda
    step, length
    radius := if r.fresh then Scalar.smaller r.radius length else r.radius
    point := Vec.ofFn fun c => s.standing.point c + step c
    decomposition := found.decomposition }

/-- The linear model `R Pᵀ x` of the change of the projected residuals along a step. -/
def linearModel (p : Proposal α m n) : Vec α (min m n) :=
  let hn := Nat.min_le_right m n
  let R := p.decomposition.square (Nat.min_le_left m n) hn
  let x := p.decomposition.gather hn p.step
  Vec.ofFn fun i => sumOver (i ≤ ·) fun j => R i j * x j

/-- Judges a step by its evaluation. -/
def assess (s : Search α m n) (p : Proposal α m n) (e : Evaluation α m n) : Assessment α m n :=
  let previous := s.standing.cost
  let cost := e.cost
  let actual := if 0.1 * cost < previous then
      let q := cost / previous
      1 - q * q
    else -1
  let change := linearModel p
  let square := previous * previous
  let first := dot change change / square
  let second := p.lambda * p.length * p.length / square
  let predicted := first + 2.0 * second
  { evaluation := e
    cost, actual, predicted
    slope := -(first + second)
    ratio := if predicted == 0 then 0 else actual / predicted }

end Search

namespace Assessment

/-- Whether the trial is accepted. -/
def isAccepted (a : Assessment α m n) : Bool := decide (acceptRatio ≤ a.ratio)

/-- The factor by which the region shrinks: the minimiser of the parabola through the old cost,
its slope and the new cost, but no less than a tenth. -/
def shrinkFactor (a : Assessment α m n) (previous : α) : α :=
  let f := if a.actual < 0 then 0.5 * a.slope / (a.slope + 0.5 * a.actual) else 0.5
  if previous ≤ 0.1 * a.cost ∨ f < 0.1 then 0.1 else f

/-- The radius and the damping parameter after the trial. -/
def adjust (a : Assessment α m n) (p : Proposal α m n) (previous : α) : α × α :=
  if a.ratio ≤ shrinkRatio then
    let f := a.shrinkFactor previous
    (f * Scalar.smaller p.radius (10.0 * p.length), p.lambda / f)
  else if (p.lambda == 0) = true ∨ expandRatio ≤ a.ratio then
    (2.0 * p.length, p.lambda * 0.5)
  else (p.radius, p.lambda)

end Assessment

/-- How a run goes on after a trial. -/
inductive Next (α : Type) (m n : Nat) where
  /-- It ends at an evaluation. -/
  | stop (e : Evaluation α m n)
  | fail (f : Failure α)
  /-- Another trial follows in the same outer iteration. -/
  | retry (s : Search α m n)
  /-- Another outer iteration follows. -/
  | renew (s : Standing α m n) (r : Region α n)

namespace Search

/-- Where the run stands after a trial: at its evaluation if it was accepted, else where it stood
before. -/
def standingAfter (s : Search α m n) (a : Assessment α m n) : Standing α m n :=
  if a.isAccepted then ⟨a.evaluation, a.cost, a.evaluation.point⟩
  else ⟨s.base, s.standing.cost, s.standing.point⟩

/-- The region after a trial. -/
def regionAfter (s : Search α m n) (p : Proposal α m n) (a : Assessment α m n) : Region α n :=
  let (radius, lambda) := a.adjust p s.standing.cost
  if a.isAccepted then
    { s.region with
      radius, lambda
      length := Region.lengthOf s.region.scaling a.evaluation.point
      fresh := false }
  else { s.region with radius, lambda }

/-- Whether the reductions of a trial are all within a bound. -/
def reductionsWithin (a : Assessment α m n) (bound : α) : Bool :=
  decide (Scalar.abs a.actual ≤ bound) && decide (a.predicted ≤ bound) && decide (a.ratio ≤ 2.0)

/-- How the run goes on after a trial and the checker's verdict on it. -/
def next (o : Options α) (s : Search α m n) (p : Proposal α m n) (a : Assessment α m n)
    (verdict : Option Bool) : Next α m n :=
  let standing := s.standingAfter a
  let region := s.regionAfter p a
  if a.isAccepted && verdict == some true then .stop standing.evaluation
  else if reductionsWithin a o.costTolerance ||
      decide (region.radius ≤ o.parameterTolerance * region.length) then .stop standing.evaluation
  else if reductionsWithin a twoEpsilon then .fail (.tolerance .cost o.costTolerance)
  else if region.radius ≤ twoEpsilon * region.length then
    .fail (.tolerance .parameters o.parameterTolerance)
  else if s.maxCosine ≤ twoEpsilon then
    .fail (.tolerance .orthogonality o.orthogonalityTolerance)
  else if a.ratio < acceptRatio then
    .retry { s with standing, region, decomposition := p.decomposition }
  else .renew standing region

end Search

end LeastSquares.LevenbergMarquardt
