import LeastSquares.Failure
import LeastSquares.Linear.LowerUpper
import LeastSquares.Linear.Cholesky
import LeastSquares.Linear.Orthogonal
import LeastSquares.Linear.Spectral

/-!
# The full step

The step `x` of a linearised problem, a minimiser of `‖J x - r‖`, by one of four solvers.
Elimination and the triangular root work on the normal equations `JᵀJ x = Jᵀr` and refuse a
matrix with a pivot of negligible size. The orthogonal factorization works on `J` with column
exchanges; columns behind its numeric rank get no step. The singular vectors give the shortest
minimiser.

A matrix that is not finite cannot be factorized, and a right-hand side that is not finite cannot
be solved for; the two fail differently.
-/

namespace LeastSquares

variable {α : Type} {m n k : Nat}

/-- A vector as one of another size, which fails if the sizes differ. -/
def Vec.resize (v : Vec α k) (m : Nat) : Except (Failure α) (Vec α m) :=
  if h : k = m then .ok (h ▸ v) else .error .sizes

namespace Method

/-- The size below which a pivot is negligible. -/
def negligible [Scalar α] : α := 1e-11

/-- Fails unless all entries are finite. -/
def requireFinite [Scalar α] (v : Vec α n) : Except (Failure α) Unit :=
  if v.isFinite then .ok () else .error .unsolvable

/-- The step by elimination in the normal equations. -/
def solveLu [Scalar α] (J : Mat α m n) (r : Vec α m) : Except (Failure α) (Vec α n) := do
  let normal := J.gram
  let rhs := J.transposeMulVec r
  if normal.isFinite = false then throw (.singularProblem lu)
  let f := LowerUpper.factor normal
  if ∃ i, Scalar.abs (f.diagonal i) < negligible then throw (.singularProblem lu)
  requireFinite rhs
  return f.solve rhs

/-- The step by the triangular root of the normal equations. -/
def solveCholesky [Scalar α] (J : Mat α m n) (r : Vec α m) : Except (Failure α) (Vec α n) := do
  let normal := J.gram
  let rhs := J.transposeMulVec r
  if normal.isFinite = false then throw (.singularProblem cholesky)
  match Cholesky.factor normal with
  | none => throw (.singularProblem cholesky)
  | some T =>
    if ∃ i, Cholesky.diagonal T i ≤ negligible then throw (.singularProblem cholesky)
    requireFinite rhs
    return Cholesky.solve T rhs

/-- The number of diagonal entries that are not negligible. -/
def numericRank [Scalar α] (d : Vec α n) : Nat :=
  ((List.finRange n).filter fun k => decide (negligible < Scalar.abs (d k))).length

/-- The step by the orthogonal factorization of `J`. The size of the residuals matters only once
the factorization stands. -/
def solveQr [Scalar α] (J : Mat α m n) (r : Vec α k) : Except (Failure α) (Vec α n) := do
  if J.isFinite = false then throw (.singularProblem qr)
  let f := Orthogonal.factor true J
  let rank := numericRank f.diagonal
  if rank = 0 then throw (.singularProblem qr)
  let projected := f.transposeApply (← r.resize m)
  if ∃ i : Fin m, i.val < rank ∧ isFinite (projected i) = false then throw .unsolvable
  if ∃ i : Fin m, ∃ j : Fin n, i.val < rank ∧ j.val < rank ∧ isFinite (f.r i j) = false then
    throw .unsolvable
  let x := Triangular.solveUpper rank f.square f.diagonal
    (Vec.ofFn fun i => if h : i.val < m then projected ⟨i, h⟩ else 0)
  return Vec.ofFn fun c =>
    match (List.finRange n).find? fun i => f.order i == c with
    | some i => x i
    | none => 0

/-- The shortest step, by singular vectors. -/
def solveSvd [Spectral α] (J : Mat α m n) (r : Vec α m) : Except (Failure α) (Vec α n) := do
  if J.isFinite = false then throw .unsolvable
  requireFinite r
  return (Spectral.singular J).solve r

/-- The step of a linearised problem. -/
def solve [Spectral α] (method : Method) (J : Mat α m n) (r : Vec α k) :
    Except (Failure α) (Vec α n) :=
  match method with
  | lu => do solveLu J (← r.resize m)
  | qr => solveQr J r
  | cholesky => do solveCholesky J (← r.resize m)
  | svd => do solveSvd J (← r.resize m)

/-- What comes of a vector in place of the matrix: no solver finds a step. The factorization of `J`
misses its second dimension and the singular vectors refuse it, while the normal equations shrink to
one number, which may be refused before there is anything to solve for. -/
def solveVector [Scalar α] (method : Method) (a r : List α) : Failure α :=
  match method with
  | qr => .outOfRange
  | svd => .sizes
  | lu | cholesky =>
    let product (xs : List α) : α := (a.zip xs).foldl (fun s (x, y) => s + x * y) 0
    let pivot := match method with
      | cholesky => sqrt (product a)
      | _ => product a
    if a.length ≠ r.length then .sizes
    else if isFinite pivot && negligible < pivot then
      if isFinite (product r) then .outOfRange else .unsolvable
    else .singularProblem method

/-- The step by a solver that may not have been named. That it was not comes out only here, when
there is something to solve. -/
def solveBy [Spectral α] (method : Option Method) (J : Mat α m n) (r : Vec α k) :
    Except (Failure α) (Vec α n) :=
  match method with
  | some method => method.solve J r
  | none => .error (.noSuchSetting "solve")

end Method

end LeastSquares
