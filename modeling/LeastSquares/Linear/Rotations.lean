import LeastSquares.Linear.Spectral
import LeastSquares.Scalar.Double

/-!
# Spectral factorizations by plane rotations

Eigenvectors of a symmetric matrix by cyclic rotations that clear one entry beside the diagonal
after the other, and singular vectors by rotations that make the columns of the matrix orthogonal
in pairs. Both iterations converge quadratically; a bound on the number of sweeps makes them
total. Matrices with very large or very small entries are divided by their largest one first.
-/

namespace LeastSquares.Rotations

variable {m n : Nat}

/-- The sweeps that an iteration may take. -/
def maxSweeps : Nat := 60

/-- Cosine and sine of the rotation that diagonalises `(a, c; c, b)`. -/
def diagonalising (a b c : Float) : Float × Float :=
  let half := (b - a) / (2 * c)
  let t := if half < 0 then -1 / (-half + Float.sqrt (half * half + 1))
    else 1 / (half + Float.sqrt (half * half + 1))
  let cosine := 1 / Float.sqrt (t * t + 1)
  (cosine, cosine * t)

/-- The columns `i` and `j` of a matrix rotated. -/
def rotateColumns (A : Mat Float m n) (i j : Fin n) (c s : Float) : Mat Float m n :=
  Mat.ofFn fun r l =>
    if l = i then c * A r i - s * A r j else if l = j then s * A r i + c * A r j else A r l

/-- All pairs `i < j` of indices, row by row. -/
def pairs (n : Nat) : List (Fin n × Fin n) :=
  (List.finRange n).flatMap fun i =>
    ((List.finRange n).filter fun j => decide (i < j)).map fun j => (i, j)

/-- Repeats a step that says whether it changed anything, until it did not. -/
def untilStill {σ : Type} (step : σ → σ × Bool) : Nat → σ → σ
  | 0, s => s
  | left + 1, s =>
    match step s with
    | (s, true) => untilStill step left s
    | (s, false) => s

/-- The largest magnitude of all entries. -/
def magnitude (A : Mat Float m n) : Float :=
  A.toLists.foldl (fun b row => row.foldl (fun b x => Scalar.larger b x.abs) b) 0

/-- What a matrix is divided by, so that products of its entries stay in range. -/
def scaleOf (A : Mat Float m n) : Float :=
  let largest := magnitude A
  if largest == 0 then 1 else if largest < 1e-100 || 1e100 < largest then largest else 1

/-- Clears one entry beside the diagonal of a symmetric matrix, unless it is negligible. -/
def clearEntry (e : (Mat Float n n × Mat Float n n) × Bool) (p : Fin n × Fin n) :
    (Mat Float n n × Mat Float n n) × Bool :=
  let ((A, V), changed) := e
  let (i, j) := p
  if A i j == 0 || A i j * A i j ≤ 1e-40 * Float.abs (A i i * A j j) then ((A, V), changed)
  else
    let (c, s) := diagonalising (A i i) (A j j) (A i j)
    let B := (rotateColumns (rotateColumns A i j c s).transpose i j c s).transpose
    let B := Mat.ofFn fun r l =>
      if (r = i ∧ l = j) ∨ (r = j ∧ l = i) then 0 else B r l
    ((B, rotateColumns V i j c s), true)

/-- The eigenvectors of the symmetric matrix with the given lower triangle. -/
def eigen (A : Mat Float n n) : Eigen Float n :=
  let scale := scaleOf A
  let lower : Mat Float n n := Mat.ofFn fun i j => (if j ≤ i then A i j else A j i) / scale
  let (B, V) := untilStill
    (fun s => (pairs n).foldl clearEntry (s, false)) maxSweeps (lower, Mat.identity)
  ⟨Vec.ofFn fun i => scale * B i i, V⟩

/-- Makes two columns orthogonal, unless they are so up to rounding. -/
def orthogonalise (e : (Mat Float m n × Mat Float n n) × Bool) (p : Fin n × Fin n) :
    (Mat Float m n × Mat Float n n) × Bool :=
  let ((A, V), changed) := e
  let (i, j) := p
  let a := sum fun r => A r i * A r i
  let b := sum fun r => A r j * A r j
  let c := sum fun r => A r i * A r j
  if c == 0 || Float.abs c ≤ 1e-16 * Float.sqrt (a * b) then ((A, V), changed)
  else
    let (cosine, sine) := diagonalising a b c
    ((rotateColumns A i j cosine sine, rotateColumns V i j cosine sine), true)

/-- Orthogonal columns `A V` together with `V`. -/
def orthogonalColumns (A : Mat Float m n) : Mat Float m n × Mat Float n n :=
  untilStill (fun s => (pairs n).foldl orthogonalise (s, false)) maxSweeps (A, Mat.identity)

/-- The singular vectors of a matrix, of the transpose if that has the fewer columns. -/
def singular (A : Mat Float m n) : Singular Float m n :=
  let scale := scaleOf A
  let unit (norm x : Float) := if norm == 0 then 0 else x / norm
  if n ≤ m then
    let (B, V) := orthogonalColumns (A.map (· / scale))
    let norms : Vec Float n := Vec.ofFn fun j => norm (Vec.ofFn fun i => B i j)
    let column (k : Fin (min m n)) : Fin n := k.castLE (Nat.min_le_right m n)
    ⟨scale, Mat.ofFn fun i k => unit (norms (column k)) (B i (column k)),
      Vec.ofFn fun k => norms (column k),
      Mat.ofFn fun j k => V j (column k)⟩
  else
    let (B, U) := orthogonalColumns (A.transpose.map (· / scale))
    let norms : Vec Float m := Vec.ofFn fun i => norm (Vec.ofFn fun j => B j i)
    let column (k : Fin (min m n)) : Fin m := k.castLE (Nat.min_le_left m n)
    ⟨scale, Mat.ofFn fun i k => U i (column k),
      Vec.ofFn fun k => norms (column k),
      Mat.ofFn fun j k => unit (norms (column k)) (B j (column k))⟩

end Rotations

instance : Spectral Float where
  eigen := Rotations.eigen
  singular := Rotations.singular

end LeastSquares
