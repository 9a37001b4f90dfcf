import LeastSquares.Decomposition
import LeastSquares.Linear.Triangular

/-!
# The damped direction

Least-squares solution of the damped system `(R; D) x = (Qᵀ r; 0)`, with `D` a diagonal matrix.
The rows of `D` are rotated into `R` one after the other, which leaves an upper triangular `S`
with `Sᵀ S = Rᵀ R + Dᵀ D`; back substitution in `S` gives `x`. If `S` has a zero on its diagonal,
the unknowns from the first such zero on are zero and only the leading block is solved.

All of this is done in the buffer of the decomposition. Row `k` of `R` is first copied into column
`k`, below the diagonal entry that both share, and the rotations are applied to the copy
(`Workspace.rotate`). When row `j` is done, the diagonal entry of `S` moves to a vector of its own
and that of `R` is put back (`Workspace.finish`). In the end the transpose of `S` stands below the
diagonal, and `R` with its own diagonal above it.
-/

namespace LeastSquares

variable {α : Type} [Scalar α] {m n p : Nat}

namespace Damped

/-- Cosine and sine of the rotation that turns the pair `(r, d)` into `(±√(r² + d²), 0)`. The
quotient that is formed is never larger than one. -/
def rotation (r d : α) : α × α :=
  if Scalar.abs r < Scalar.abs d then
    let cotangent := r / d
    let sine := 1 / sqrt (1 + cotangent * cotangent)
    (sine * cotangent, sine)
  else
    let tangent := d / r
    let cosine := 1 / sqrt (1 + tangent * tangent)
    (cosine, cosine * tangent)

/-- The first index of a zero, or the length if there is none. -/
def firstZero (v : Vec α p) : Nat :=
  (((List.finRange p).find? fun i => v i == 0).map Fin.val).getD p

/-- The diagonal of a square matrix. -/
def diagonalOf (A : Mat α p p) : Vec α p := Vec.ofFn fun i => A i i

/-- The solution of the damped system together with the triangular matrix `S`. -/
structure Solution (α : Type) (p : Nat) where
  direction : Vec α p
  upper : Mat α p p

/-- The diagonal of `S`. -/
def Solution.diagonal (s : Solution α p) : Vec α p := diagonalOf s.upper

/-- What an elimination works on. -/
structure Workspace (α : Type) (m n p : Nat) where
  /-- The buffer of the decomposition. -/
  buffer : Mat α m n
  /-- The diagonal of `S` in the rows that are done, and from there on what is left of the row
  of `D` that is rotated in. -/
  row : Vec α p
  /-- The right-hand side of the triangle. -/
  rhs : Vec α p
  /-- The right-hand side of the row. -/
  rest : α

namespace Workspace

variable (hm : p ≤ m) (hn : p ≤ n)

/-- Rotates the row against the copy of row `k` of the triangle, from its diagonal entry down
column `k`, so that the entry `k` of the row vanishes. A zero entry needs no rotation. -/
def rotate (w : Workspace α m n p) (k : Fin p) : Workspace α m n p :=
  if w.row k == 0 then w
  else
    let (c, s) := rotation (w.buffer (k.castLE hm) (k.castLE hn)) (w.row k)
    { buffer := Mat.ofFn fun i l =>
        if h : l.val = k.val ∧ k.val ≤ i.val ∧ i.val < p then
          c * w.buffer i l + s * w.row ⟨i.val, h.2.2⟩
        else w.buffer i l
      row := Vec.ofFn fun i =>
        if k < i then -s * w.buffer (i.castLE hm) (k.castLE hn) + c * w.row i else w.row i
      rhs := w.rhs.set k (c * w.rhs k + s * w.rest)
      rest := -s * w.rhs k + c * w.rest }

/-- Row `j` of `D`, whose only entry is `entry`, taken up. -/
def loadRow (w : Workspace α m n p) (j : Fin p) (entry : α) : Workspace α m n p :=
  { w with
    row := Vec.ofFn fun i => if i < j then w.row i else if i = j then entry else 0
    rest := 0 }

/-- Rotates row `j` of `D` into the triangle. -/
def absorb (w : Workspace α m n p) (j : Fin p) (entry : α) : Workspace α m n p :=
  if entry == 0 then w
  else ((List.finRange p).filter fun k => decide (j ≤ k)).foldl (rotate hm hn) (w.loadRow j entry)

/-- Moves the diagonal entry of row `j` of `S` out of the buffer and writes another entry in its
place. -/
def finish (w : Workspace α m n p) (j : Fin p) (entry : α) : Workspace α m n p :=
  { w with
    row := w.row.set j (w.buffer (j.castLE hm) (j.castLE hn))
    buffer := Mat.ofFn fun i l =>
      if i.val = j.val ∧ l.val = j.val then entry else w.buffer i l }

end Workspace

end Damped

namespace Decomposition

section InPlace

variable (hm : p ≤ m) (hn : p ≤ n)

/-- Row `j` of the leading square block, from behind its diagonal entry on, copied into column `j`
below that entry. -/
def copyRow (d : Decomposition α m n) (j : Fin p) : Decomposition α m n :=
  { d with buffer := Mat.ofFn fun i k =>
      if h : k.val = j.val ∧ j.val < i.val ∧ i.val < p then
        d.buffer (j.castLE hm) ((⟨i.val, h.2.2⟩ : Fin p).castLE hn)
      else d.buffer i k }

/-- The triangle copied below the diagonal, row after row. -/
def copyRows (d : Decomposition α m n) : Decomposition α m n :=
  (List.finRange p).foldl (copyRow hm hn) d

/-- The workspace before the first row of `D`. -/
def workspace (d : Decomposition α m n) (rhs : Vec α p) : Damped.Workspace α m n p :=
  ⟨d.buffer, Vec.replicate p 0, rhs, 0⟩

/-- The rows of `D` rotated into the copy of the triangle, one after the other. -/
def eliminate (d : Decomposition α m n) (rhs D : Vec α p) : Damped.Workspace α m n p :=
  (List.finRange p).foldl
    (fun w j => (w.absorb hm hn j (D j)).finish hm hn j (d.diagonal (j.castLE hn)))
    (d.workspace rhs)

/-- The leading square block of the buffer, transposed: what stands below the diagonal is read as
rows of an upper triangle. -/
def scratch (d : Decomposition α m n) : Mat α p p :=
  Mat.ofFn fun k i => d.buffer (i.castLE hm) (k.castLE hn)

/-- The upper triangle that stands in the scratch, with a diagonal of its own. -/
def triangleOf (d : Decomposition α m n) (diagonal : Vec α p) : Mat α p p :=
  Mat.ofFn fun k i =>
    if k < i then d.scratch hm hn k i else if k = i then diagonal k else 0

end InPlace

/-- A vector of the first `p` pivots laid out by columns; all other columns are zero. -/
def scatter (d : Decomposition α m n) (v : Vec α p) : Vec α n :=
  Vec.ofFn fun c => if h : (d.pivotOf c).val < p then v ⟨(d.pivotOf c).val, h⟩ else 0

/-- The entries of a vector of columns at the first `p` pivots. -/
def gather (d : Decomposition α m n) (hn : p ≤ n) (v : Vec α n) : Vec α p :=
  Vec.ofFn fun k => v (d.order (k.castLE hn))

/-- A direction in column order, the solution in pivot order that it was laid out from, and the
decomposition with its buffer used. -/
structure Direction (α : Type) (m n p : Nat) where
  direction : Vec α n
  solution : Damped.Solution α p
  decomposition : Decomposition α m n

/-- The damped direction, if the triangle has been copied below the diagonal. -/
def directionBelow (d : Decomposition α m n) (hm : p ≤ m) (hn : p ≤ n) (rhs : Vec α p)
    (damping : Vec α n) : Direction α m n p :=
  let w := d.eliminate hm hn rhs (d.gather hn damping)
  let used := { d with buffer := w.buffer }
  let x := Triangular.solveUpper (Damped.firstZero w.row) (used.scratch hm hn) w.row w.rhs
  ⟨d.scatter x, ⟨x, used.triangleOf hm hn w.row⟩, used⟩

/-- The damped direction for a right-hand side in pivot order and a diagonal in column order. -/
def direction (d : Decomposition α m n) (hm : p ≤ m) (hn : p ≤ n) (rhs : Vec α p)
    (damping : Vec α n) : Direction α m n p :=
  (d.copyRows hm hn).directionBelow hm hn rhs damping

end Decomposition

end LeastSquares
