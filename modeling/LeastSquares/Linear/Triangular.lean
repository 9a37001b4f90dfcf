import LeastSquares.Dense

/-!
# Triangular systems

Substitution in an upper triangular matrix `T`, whose diagonal `d` is kept apart, and in its
transpose. Only entries strictly above the diagonal of `T` are read.

Each of the two comes in two orders of operations. By rows, the terms of the unknowns already found
are added up and their sum is subtracted; by columns, each of these terms is subtracted as soon as
its unknown is found.
-/

namespace LeastSquares.Triangular

variable {α : Type} [Scalar α] {n : Nat}

/-- Back substitution in the leading `q` rows and columns: the `x` with `x i = 0` from row `q` on
and `d j * x j + ∑ (j < i < q), T j i * x i = b j` before it. -/
def solveUpper (q : Nat) (T : Mat α n n) (d b : Vec α n) : Vec α n :=
  (List.finRange n).foldr
    (fun j x => x.set j <|
      if j.val < q then
        (b j - sumOver (fun i => j < i ∧ i.val < q) fun i => T j i * x i) / d j
      else 0)
    (Vec.replicate n 0)

/-- Forward substitution in the transpose: the `x` with
`d j * x j + ∑ (i < j), T i j * x i = b j`. -/
def solveTransposed (T : Mat α n n) (d b : Vec α n) : Vec α n :=
  (List.finRange n).foldl
    (fun x j => x.set j ((b j - sumOver (· < j) fun i => T i j * x i) / d j))
    (Vec.replicate n 0)

/-- Back substitution like `solveUpper`, by columns. -/
def solveUpperByColumns (q : Nat) (T : Mat α n n) (d b : Vec α n) : Vec α n :=
  (List.finRange n).foldr
    (fun j x => x.set j <|
      if j.val < q then
        lessDownOver (fun i => j < i ∧ i.val < q) (b j) (fun i => T j i * x i) / d j
      else 0)
    (Vec.replicate n 0)

/-- Forward substitution like `solveTransposed`, by columns. -/
def solveTransposedByColumns (T : Mat α n n) (d b : Vec α n) : Vec α n :=
  (List.finRange n).foldl
    (fun x j => x.set j (lessUpOver (· < j) (b j) (fun i => T i j * x i) / d j))
    (Vec.replicate n 0)

end LeastSquares.Triangular
