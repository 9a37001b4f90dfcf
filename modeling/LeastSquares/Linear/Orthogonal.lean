import LeastSquares.Linear.Triangular

/-!
# Orthogonal factorization

The factorization `A P = Q R` with `Q` orthogonal and `R` upper triangular (or trapezoidal), with
or without column exchanges. Each step reflects a column, from the diagonal down, onto its first
entry; a column that is zero below the diagonal stays as it is.

Norms are formed from entries divided by the largest of them, and a very short column is enlarged
before its reflection is formed, so neither squares nor reciprocals leave the range. The length of a
column and its difference from the first entry are formed as they are and may overflow: then the
factors are not finite (`Orthogonal.isFinite`).
-/

namespace LeastSquares

variable {α : Type} [Scalar α] {m n : Nat}

/-- The largest magnitude among the entries whose index has the property. -/
def largestOver (p : Fin m → Prop) [DecidablePred p] (f : Fin m → α) : α :=
  Fin.foldl m (fun b i => if p i then Scalar.larger b (Scalar.abs (f i)) else b) 0

/-- The norm of the entries whose index has the property. -/
def normOver (p : Fin m → Prop) [DecidablePred p] (f : Fin m → α) : α :=
  let scale := largestOver p f
  if scale == 0 then 0 else scale * sqrt (sumOver p fun i => f i / scale * (f i / scale))

/-- The length of the hypotenuse over two legs. -/
def hypotenuse (a b : α) : α :=
  let long := Scalar.larger (Scalar.abs a) (Scalar.abs b)
  let short := Scalar.smaller (Scalar.abs a) (Scalar.abs b)
  if short == 0 then long else long * sqrt (1 + short / long * (short / long))

/-- A reflection `1 - factor * vector * vectorᵀ`. -/
structure Reflection (α : Type) (m : Nat) where
  vector : Vec α m
  factor : α
  /-- The first entry of the image of the vector that it was formed for. -/
  image : α

namespace Reflection

/-- The length below which a vector is enlarged, `2⁻⁹⁶⁹`. -/
def tiny : α := 1 / ((Nat.pow 2 969 : Nat) : α)

/-- The reflection that maps the entries of `x` from `k` down onto a multiple of the first of
them. Before `k` its vector is zero. The image has the sign that the first entry has not. -/
def ofTail (x : Vec α m) (k : Fin m) : Reflection α m :=
  let tail := normOver (k < ·) x
  if tail == 0 then ⟨Vec.replicate m 0, 0, x k⟩
  else
    let scale := if hypotenuse (x k) tail < tiny then 1 / tiny else 1
    let head := x k * scale
    let length := hypotenuse head (normOver (k < ·) fun i => x i * scale)
    let image := if head < 0 then length else -length
    let reciprocal := 1 / (head - image)
    { vector := Vec.ofFn fun i =>
        if i < k then 0 else if i = k then 1 else x i * scale * reciprocal
      factor := (image - head) / image
      image := image / scale }

/-- The image of a vector. -/
def apply (h : Reflection α m) (y : Vec α m) : Vec α m :=
  let c := h.factor * dot h.vector y
  Vec.ofFn fun i => y i - c * h.vector i

end Reflection

/-- A factorization `A P = Q R`. -/
structure Orthogonal (α : Type) (m n : Nat) where
  q : Mat α m m
  r : Mat α m n
  /-- The column of `A` that stands at each position. -/
  order : Vec (Fin n) n

namespace Orthogonal

/-- The factorization before its first step. -/
def start (A : Mat α m n) : Orthogonal α m n := ⟨Mat.identity, A, Vec.ofFn id⟩

/-- The first column from `k` on whose norm from row `row` down is largest. -/
def pivotColumn (f : Orthogonal α m n) (row : Fin m) (k : Fin n) : Fin n :=
  let norms : Vec α n := Vec.ofFn fun j => normOver (row ≤ ·) fun i => f.r i j
  Fin.foldl n (fun b j => if k < j ∧ norms b < norms j then j else b) k

/-- Two columns exchanged. -/
def swap (f : Orthogonal α m n) (k j : Fin n) : Orthogonal α m n :=
  let other (c : Fin n) := if c = k then j else if c = j then k else c
  { f with r := Mat.ofFn fun i c => f.r i (other c), order := Vec.ofFn fun c => f.order (other c) }

/-- Reflects column `k` from row `row` down, and all columns behind it. Below its image the column
is zero. -/
def reflect (f : Orthogonal α m n) (row : Fin m) (k : Fin n) : Orthogonal α m n :=
  let h := Reflection.ofTail (Vec.ofFn fun i => f.r i k) row
  let columns : Vec (Vec α m) n := Vec.ofFn fun j => h.apply (Vec.ofFn fun i => f.r i j)
  let rows : Vec (Vec α m) m := Vec.ofFn fun i => h.apply (f.q.rows i)
  { f with
    r := Mat.ofFn fun i j =>
      if j < k ∨ i < row then f.r i j
      else if j = k then if i = row then h.image else 0
      else columns j i
    q := ⟨rows⟩ }

/-- The factorization, with column exchanges if `pivoted` is set. -/
def factor (pivoted : Bool) (A : Mat α m n) : Orthogonal α m n :=
  (List.finRange n).foldl
    (fun f k =>
      if h : k.val < m then
        let f := if pivoted then f.swap k (f.pivotColumn ⟨k, h⟩ k) else f
        f.reflect ⟨k, h⟩ k
      else f)
    (start A)

/-- The diagonal of `R`, zero where `R` has no row. -/
def diagonal (f : Orthogonal α m n) : Vec α n :=
  Vec.ofFn fun k => if h : k.val < m then f.r ⟨k, h⟩ k else 0

/-- The rows of `R` as a square matrix, zero where `R` has none. -/
def square (f : Orthogonal α m n) : Mat α n n :=
  Mat.ofFn fun i j => if h : i.val < m then f.r ⟨i, h⟩ j else 0

/-- Whether both factors are finite. -/
def isFinite (f : Orthogonal α m n) : Bool := f.q.isFinite && f.r.isFinite

/-- `Qᵀ b`. -/
def transposeApply (f : Orthogonal α m n) (b : Vec α m) : Vec α m := f.q.transposeMulVec b

end Orthogonal

end LeastSquares
