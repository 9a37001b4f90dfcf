import LeastSquares.Damped.Direction

/-!
# The damped system

The damped system with its parts kept apart: a triangular matrix of its own, a row of `D` and the
right-hand sides. `Damped.solve` rotates the rows of `D` into the matrix and solves for the
unknowns, `Decomposition.block` is the matrix that a decomposition has for it, and
`Decomposition.withScratch` the decomposition with the transpose of another triangle below its
diagonal. In these words it is said what a damped direction is.
-/

namespace LeastSquares

variable {α : Type} [Scalar α] {m n p : Nat}

namespace Damped

/-- A triangular system while a row of `D` is rotated into it. -/
structure Elimination (α : Type) (p : Nat) where
  /-- The upper triangular matrix. -/
  upper : Mat α p p
  /-- Its right-hand side. -/
  rhs : Vec α p
  /-- What is left of the row of `D`. -/
  row : Vec α p
  /-- The right-hand side of that row. -/
  rest : α

/-- Rotates the row against row `k` of the triangular matrix, so that its entry `k` vanishes. A
zero entry needs no rotation. -/
def Elimination.rotate (e : Elimination α p) (k : Fin p) : Elimination α p :=
  if e.row k == 0 then e
  else
    let (c, s) := rotation (e.upper k k) (e.row k)
    { upper := Mat.ofFn fun i j =>
        if i = k ∧ k ≤ j then c * e.upper k j + s * e.row j else e.upper i j
      rhs := e.rhs.set k (c * e.rhs k + s * e.rest)
      row := Vec.ofFn fun j => if k < j then -s * e.upper k j + c * e.row j else e.row j
      rest := -s * e.rhs k + c * e.rest }

/-- A triangular matrix with its right-hand side. -/
structure System (α : Type) (p : Nat) where
  upper : Mat α p p
  rhs : Vec α p

/-- Rotates row `j` of `D`, whose only entry is `entry`, into the system. -/
def System.absorb (s : System α p) (j : Fin p) (entry : α) : System α p :=
  if entry == 0 then s
  else
    let e := ((List.finRange p).filter fun k => decide (j ≤ k)).foldl Elimination.rotate
      { upper := s.upper, rhs := s.rhs
        row := Vec.ofFn fun i => if i = j then entry else 0, rest := 0 }
    ⟨e.upper, e.rhs⟩

/-- The system with all rows of `D` rotated into it. -/
def System.absorbAll (s : System α p) (d : Vec α p) : System α p :=
  (List.finRange p).foldl (fun s j => s.absorb j (d j)) s

/-- Solves the damped system of the upper triangular matrix `R` and the diagonal `d` of `D`. -/
def solve (R : Mat α p p) (rhs d : Vec α p) : Solution α p :=
  let s := System.absorbAll ⟨R, rhs⟩ d
  let diagonal := diagonalOf s.upper
  ⟨Triangular.solveUpper (firstZero diagonal) s.upper diagonal s.rhs, s.upper⟩

end Damped

namespace Decomposition

/-- The upper triangle of the leading square block of the buffer, its diagonal included. -/
def block (d : Decomposition α m n) (hm : p ≤ m) (hn : p ≤ n) : Mat α p p :=
  Mat.ofFn fun i j => if i ≤ j then d.buffer (i.castLE hm) (j.castLE hn) else 0

/-- The buffer after a damped solve: the diagonal of `R` on the first `p` diagonal entries, and
the transpose of `S` below them, down to row `p`. -/
def withScratch (d : Decomposition α m n) (S : Mat α p p) : Decomposition α m n :=
  { d with buffer := Mat.ofFn fun i k =>
      if h : i.val < p ∧ k.val < p then
        if k.val < i.val then S ⟨k.val, h.2⟩ ⟨i.val, h.1⟩
        else if i.val = k.val then d.diagonal k
        else d.buffer i k
      else d.buffer i k }

end Decomposition

end LeastSquares
