import LeastSquares.Damped.Direction

/-!
# The damping parameter of a trust region

For a decomposition of the Jacobian, a scaling `D` and a radius `δ`, the parameter `λ ≥ 0` for
which the damped direction `x(λ)`, the one with `√λ D` as diagonal, has a scaled length `‖D x‖`
within a tenth of `δ`. It is `0` if the undamped direction already fits. Otherwise Newton steps on
`‖D x(λ)‖ - δ`, kept inside a bracket, approach it from the left; ten passes are made at most.
-/

namespace LeastSquares

variable {α : Type} [Scalar α] {m n p : Nat}

namespace Damped

/-- The number of passes after the first one. -/
def furtherPasses : Nat := 9

/-- A Newton search before one of its passes. -/
structure Newton (α : Type) where
  lambda : α
  lower : α
  upper : α
  /-- The scaled length of the last direction, less the radius. -/
  excess : α

namespace Newton

/-- The search with a parameter of zero replaced, at which the Newton step is not defined. -/
def leaveZero (s : Newton α) : Newton α :=
  if s.lambda == 0 then { s with lambda := Scalar.larger Scalar.leastNormal (0.001 * s.upper) }
  else s

/-- Whether the search ends at a direction of the given excess: it is within a tenth of the radius,
or the length grows towards the radius from below while zero is still in the bracket. -/
def isSettled (s : Newton α) (delta excess : α) : Prop :=
  Scalar.abs excess ≤ 0.1 * delta ∨
    ((s.lower == 0) = true ∧ excess ≤ s.excess ∧ s.excess < 0)

instance (s : Newton α) (delta excess : α) : Decidable (s.isSettled delta excess) :=
  inferInstanceAs (Decidable (_ ∨ _))

/-- The search after a pass that found the given excess: the bracket narrowed by its sign, and the
parameter moved by the Newton step, but not below the bracket. -/
def next (s : Newton α) (excess correction : α) : Newton α :=
  let lower := if 0 < excess then Scalar.larger s.lower s.lambda else s.lower
  let upper := if 0 < excess then s.upper
    else if excess < 0 then Scalar.smaller s.upper s.lambda else s.upper
  ⟨Scalar.larger lower (s.lambda + correction), lower, upper, excess⟩

end Newton

/-- The entrywise product of two vectors. -/
def scaled (d v : Vec α p) : Vec α p := Vec.ofFn fun k => d k * v k

end Damped

open Damped

namespace Decomposition

/-- The undamped direction in pivot order: back substitution in the leading block of full rank,
zero behind it. -/
def undamped (d : Decomposition α m n) (qy : Vec α m) : Vec α n :=
  Triangular.solveUpperByColumns d.rank
    (Mat.ofFn fun i j => if h : i.val < m then d.buffer ⟨i.val, h⟩ j else 0)
    d.diagonal
    (Vec.ofFn fun i => if h : i.val < m then qy ⟨i.val, h⟩ else 0)

/-- The leading square block of the buffer, as it stands. -/
def square (d : Decomposition α m n) (hm : p ≤ m) (hn : p ≤ n) : Mat α p p :=
  Mat.ofFn fun i k => d.buffer (i.castLE hm) (k.castLE hn)

/-- The products of the first `p` columns of `R` with `Qᵀ r`. -/
def gradient (d : Decomposition α m n) (hm : p ≤ m) (hn : p ≤ n) (qy : Vec α m) : Vec α p :=
  let R := d.square hm hn
  Vec.ofFn fun k => sumOver (· ≤ k) fun i => R i k * qy (i.castLE hm)

/-- The damping parameter, its direction in column order before the change of sign, the
decomposition with its buffer used, and the search before each of its passes. -/
structure Parameter (α : Type) (m n : Nat) where
  lambda : α
  direction : Vec α n
  decomposition : Decomposition α m n
  passes : List (Newton α)

/-- The Newton passes. `left` counts the passes that may follow this one. -/
def newton (hm : p ≤ m) (hn : p ≤ n) (qy : Vec α m) (delta : α) (scaling : Vec α n) :
    (left : Nat) → Newton α → Decomposition α m n → Parameter α m n
  | left, s, d =>
    let s := s.leaveZero
    let root := sqrt s.lambda
    let trial := d.direction hm hn (qy.take hm) (scaling.map (root * ·))
    let D := d.gather hn scaling
    let w := scaled D trial.solution.direction
    let length := norm w
    let excess := length - delta
    let result : Parameter α m n := ⟨s.lambda, trial.direction, trial.decomposition, [s]⟩
    if s.isSettled delta excess then result
    else
      match left with
      | 0 => result
      | left + 1 =>
        -- the triangle of the trial is read where the trial left it
        let u := Triangular.solveTransposedByColumns (trial.decomposition.scratch hm hn)
          trial.solution.diagonal (Vec.ofFn fun k => w k * D k / length)
        let correction := excess / (delta * dot u u)
        let r := newton hm hn qy delta scaling left (s.next excess correction) trial.decomposition
        { r with passes := s :: r.passes }

/-- The damping parameter for the radius `delta`, from the parameter `initial` of the last
search. The lower end of the bracket is the first Newton step if the Jacobian has full rank; the
upper end comes from the scaled gradient. -/
def parameter (d : Decomposition α m n) (hm : p ≤ m) (hn : p ≤ n) (qy : Vec α m) (delta : α)
    (scaling : Vec α n) (initial : α) : Parameter α m n :=
  let x := d.undamped qy
  let D := d.gather hn scaling
  let w := scaled D (x.take hn)
  let length := norm w
  let excess := length - delta
  if excess ≤ 0.1 * delta then ⟨0, d.toColumns x, d, []⟩
  else
    let lower := if d.rank = p then
        let u := Triangular.solveTransposed (d.square hm hn) (d.diagonal.take hn)
          (Vec.ofFn fun k => w k * (D k / length))
        excess / (delta * dot u u)
      else 0
    let g := d.gradient hm hn qy
    let gradientNorm := norm (Vec.ofFn fun k => g k / D k)
    let bound := gradientNorm / delta
    let upper := if bound == 0 then Scalar.leastNormal / Scalar.smaller delta 0.1 else bound
    let start := Scalar.smaller upper (Scalar.larger initial lower)
    let lambda := if start == 0 then gradientNorm / length else start
    newton hm hn qy delta scaling furtherPasses ⟨lambda, lower, upper, excess⟩ d

end Decomposition

end LeastSquares
