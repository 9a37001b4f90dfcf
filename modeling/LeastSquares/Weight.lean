import LeastSquares.Beside
import LeastSquares.Nested
import LeastSquares.Linear.Spectral

/-!
# Weights

A weight is a quadratic form on residuals: a vector of weights, one per observation, or a
symmetric positive semi-definite matrix. It acts through its square root, by which residuals and
Jacobian are multiplied.
-/

namespace LeastSquares

variable {α : Type} {m n k : Nat}

/-- The square root of a weight. -/
inductive WeightRoot (α : Type) (m : Nat) where
  | diagonal (w : Vec α m)
  | full (W : Mat α m m)

namespace WeightRoot

section

variable [Scalar α]

/-- Weighted residuals. -/
def weighResiduals (w : WeightRoot α m) (r : Vec α m) : Vec α m :=
  match w with
  | diagonal w => Vec.ofFn fun i => w i * r i
  | full W => W.mulVec r

/-- A weighted Jacobian. -/
def weighJacobian (w : WeightRoot α m) (J : Mat α m n) : Mat α m n :=
  match w with
  | diagonal w => Mat.ofFn fun i j => w i * J i j
  | full W => W.mul J

/-- The root of a weight vector, which may have no negative entry. -/
def ofVector (w : Vec α m) : Except (Failure α) (WeightRoot α m) :=
  if ∃ i, w i < 0 then .error .negativeWeight else .ok (diagonal (w.map sqrt))

/-- Whether a matrix is symmetric up to rounding. -/
def isSymmetric (W : Mat α m m) : Bool :=
  decide (∀ i j, Scalar.abs (W i j - W j i) ≤ 1e-8 + 1e-5 * Scalar.abs (W j i))

end

section

variable [Spectral α]

/-- The root of a weight matrix through its eigenvectors. Eigenvalues that are negative only by
rounding count as zero. -/
def ofMatrix (W : Mat α m m) : Except (Failure α) (WeightRoot α m) :=
  if isSymmetric W = false then .error .weightNotSymmetric
  else
    let e := Spectral.eigen W
    let magnitude := Fin.foldl m (fun b i => Scalar.larger b (Scalar.abs (e.values i))) 1
    if ∃ i, e.values i < -(1e-12 * magnitude) then .error .weightNotSemidefinite
    else
      let root : Vec α m := e.values.map fun x => sqrt (Scalar.larger x 0)
      .ok (full (Mat.ofFn fun i j => sum fun l => e.vectors i l * root l * e.vectors j l))

/-- The root of a weight given as an array, with its size. -/
def ofNested (weight : Nested α) : Except (Failure α) ((m : Nat) × WeightRoot α m) := do
  match ← weight.shapeOf with
  | [_] => return ⟨_, ← ofVector (Vec.ofList weight.flatten)⟩
  | _ =>
    let (r, c, rows) ← weight.checkMatrix "weight" true
    match Mat.ofLists? r r rows with
    | some W => return ⟨r, ← ofMatrix W⟩
    | none => throw (.weightNotSquare [r, c])

end

/-- The rows of a root, or its single row if it is a vector. -/
def toNested : WeightRoot α m → Nested α
  | diagonal w => .ofList w.toList
  | full W => .ofLists W.toLists

/-- Residuals and the rows of a Jacobian of `n` columns, weighted. A weight vector need only stand
beside them, a matrix must have as many columns as there are rows. -/
def applyTo [Scalar α] (w : WeightRoot α m) (r : List α) (n : Nat) (rows : List (List α)) :
    Except (Failure α) (List α × List (List α)) :=
  match w with
  | diagonal w =>
    match beside? w.toList r, beside? w.toList rows with
    | some rs, some rows =>
      .ok (rs.map fun (a, x) => a * x, rows.map fun (a, row) => row.map (a * ·))
    | _, _ => .error .sizes
  | full W =>
    match Vec.ofList? m r, Mat.ofLists? m n rows with
    | some r, some J => .ok ((W.mulVec r).toList, (W.mul J).toLists)
    | _, _ => .error .sizes

end WeightRoot

end LeastSquares
