import LeastSquares.Dense
import LeastSquares.Failure

/-!
# Householder decomposition with column pivoting

`Decomposition.ofJacobian` decomposes the negated Jacobian as `-J P = Q R`. Each step moves the
remaining column with the largest squared norm to the front, reflects it onto its first entry and
applies the same reflection to the columns behind it. It ends early at the first step whose
largest squared norm does not exceed the ranking threshold; the number of steps taken is the rank.

`Q` and `R` are never formed. One buffer holds both: in column `k`, the entries above the
diagonal are those of `R`, the entries from the diagonal down are the vector of the `k`-th
reflection, and the diagonal of `R` is kept apart. All columns are stored in pivot order;
`Decomposition.inColumnOrder` lays them out as the Jacobian has them.
-/

namespace LeastSquares

variable {α : Type} {m n p : Nat}

/-- A decomposition `-J P = Q R`, or the part of it that the steps so far have reached. -/
structure Decomposition (α : Type) (m n : Nat) where
  /-- `R` above the diagonal, reflection vectors from the diagonal down, in pivot order. -/
  buffer : Mat α m n
  /-- The column of the Jacobian that stands at each pivot. -/
  order : Vec (Fin n) n
  /-- The diagonal of `R`, in pivot order. -/
  diagonal : Vec α n
  /-- The factor of each reflection, in pivot order. -/
  beta : Vec α n
  /-- The norms of the Jacobian's columns, in their own order. -/
  columnNorm : Vec α n
  /-- The number of steps taken, which is the number of pivots before the negligible columns. -/
  rank : Nat

namespace Decomposition

/-- The pivot at which a column of the Jacobian stands. -/
def pivotOf (d : Decomposition α m n) (c : Fin n) : Fin n :=
  ((List.finRange n).find? fun k => d.order k == c).getD c

/-- A vector of pivots laid out by columns. -/
def toColumns (d : Decomposition α m n) (v : Vec α n) : Vec α n :=
  Vec.ofFn fun c => v (d.pivotOf c)

/-- A vector of columns laid out by pivots. -/
def toPivots (d : Decomposition α m n) (v : Vec α n) : Vec α n :=
  Vec.ofFn fun k => v (d.order k)

/-- The buffer with its columns where the Jacobian has them. -/
def inColumnOrder (d : Decomposition α m n) : Mat α m n :=
  Mat.ofFn fun i c => d.buffer i (d.pivotOf c)

variable [Scalar α]

section Factor

/-- The state before the first step. -/
def start (J : Mat α m n) : Decomposition α m n where
  buffer := J.map fun x => -x
  order := Vec.ofFn id
  diagonal := Vec.replicate n 0
  beta := Vec.replicate n 0
  columnNorm := Vec.ofFn fun j => sqrt (sum fun i => -J i j * -J i j)
  rank := 0

/-- The squared norm of a column over the rows from `k` on. -/
def tailSquare (d : Decomposition α m n) (k : Nat) (j : Fin n) : α :=
  sumOver (fun i : Fin m => k ≤ i.val) fun i => d.buffer i j * d.buffer i j

/-- The first index from `k` on at which `f` is largest. -/
def firstLargest (f : Fin n → α) (k : Fin n) : Fin n :=
  Fin.foldl n (fun b j => if k < j ∧ f b < f j then j else b) k

/-- Two columns exchanged. -/
def swap (d : Decomposition α m n) (k j : Fin n) : Decomposition α m n :=
  let other (c : Fin n) := if c = k then j else if c = j then k else c
  { d with
    buffer := Mat.ofFn fun i c => d.buffer i (other c)
    order := Vec.ofFn fun c => d.order (other c) }

/-- The `k`-th reflection, for the squared norm `square` of column `k` from row `k` on. The new
diagonal entry has the sign that the old one has not, so forming the vector loses no digits. -/
def reflect (d : Decomposition α m n) (k : Fin n) (row : Fin m) (square : α) :
    Decomposition α m n :=
  let pivot := d.buffer row k
  let alpha := if 0 < pivot then -sqrt square else sqrt square
  let beta := 1 / (square - pivot * alpha)
  let vector : Vec α m := Vec.ofFn fun i => if i = row then pivot - alpha else d.buffer i k
  let gamma : Vec α n := Vec.ofFn fun j =>
    if k < j then
      beta * sumOver (fun i : Fin m => row ≤ i) fun i => vector i * d.buffer i j
    else 0
  { d with
    buffer := Mat.ofFn fun i j =>
      if i < row ∨ j < k then d.buffer i j
      else if j = k then vector i
      else d.buffer i j - vector i * gamma j
    diagonal := d.diagonal.set k alpha
    beta := d.beta.set k beta }

/-- The steps for a list of columns. -/
def steps (threshold : α) :
    List (Fin n) → Decomposition α m n → Except (Failure α) (Decomposition α m n)
  | [], d => .ok { d with rank := n }
  | k :: ks, d =>
    let squares : Vec α n := Vec.ofFn (d.tailSquare k)
    if ∃ j, k ≤ j ∧ isFinite (squares j) = false then .error (.decomposition m n)
    else
      let j := firstLargest squares k
      if squares j ≤ threshold then .ok { d with rank := k }
      else if h : k.val < m then
        steps threshold ks ((d.swap k j).reflect k ⟨k, h⟩ (squares j))
      else .error .outOfRange

/-- The decomposition of the negated Jacobian. -/
def ofJacobian (J : Mat α m n) (threshold : α) : Except (Failure α) (Decomposition α m n) :=
  steps threshold (List.finRange n) (start J)

end Factor

/-- The vector of the `k`-th reflection, from row `k` down. -/
def householderVector (d : Decomposition α m n) (k : Fin n) : List α :=
  (Vec.ofFn fun i => d.buffer i k).toList.drop k

/-- The upper triangular (or trapezoidal) factor in pivot order. -/
def rMatrix (d : Decomposition α m n) : Mat α (min m n) n :=
  Mat.ofFn fun i k =>
    if i.val < k.val then d.buffer (i.castLE (Nat.min_le_left m n)) k
    else if i.val = k.val then d.diagonal k
    else 0

/-- `Qᵀ y`: all reflections, one after the other. The factor of a reflection that was not made
is zero. -/
def transposeApply (d : Decomposition α m n) (y : Vec α m) : Vec α m :=
  (List.finRange n).foldl
    (fun y k =>
      let gamma := (sumOver (fun i : Fin m => k.val ≤ i.val) fun i => d.buffer i k * y i) * d.beta k
      Vec.ofFn fun i => if k.val ≤ i.val then y i - gamma * d.buffer i k else y i)
    y

/-- The buffer with the diagonal of `R` written onto its first `p` diagonal entries. -/
def writeDiagonal (d : Decomposition α m n) (p : Nat) : Decomposition α m n :=
  { d with buffer := Mat.ofFn fun i k =>
      if i.val = k.val ∧ k.val < p then d.diagonal k else d.buffer i k }

end Decomposition

end LeastSquares
