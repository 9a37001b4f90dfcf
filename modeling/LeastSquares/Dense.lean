import LeastSquares.Scalar

/-!
# Vectors and matrices

Stored vectors and matrices whose sizes are part of their types. Each is built entry by entry
from a function (`Vec.ofFn`, `Mat.ofFn`), which is evaluated once per entry, and is read like a
function: `v i`, `A i j`. So an operation is given by the formula for its entries, and
`Vec.ofFn_apply` and `Mat.ofFn_apply` are all that a proof needs to know of the storage.

Sums run from the first index to the last and start from zero. A sum over some of the indices
leaves the other terms out, it does not multiply them by zero: `sumOver`.
-/

namespace LeastSquares

variable {α β : Type} {m n k : Nat}

/-- A vector of `n` entries. -/
structure Vec (α : Type) (n : Nat) where
  entries : Vector α n

namespace Vec

/-- The entry at an index. -/
def get (v : Vec α n) (i : Fin n) : α := v.entries[i]

instance : CoeFun (Vec α n) fun _ => Fin n → α := ⟨get⟩

/-- The vector with the given entries. -/
def ofFn (f : Fin n → α) : Vec α n := ⟨Vector.ofFn f⟩

@[simp] theorem ofFn_apply (f : Fin n → α) (i : Fin n) : ofFn f i = f i := by
  simp [get, ofFn]

@[ext] theorem ext {u v : Vec α n} (h : ∀ i, u i = v i) : u = v := by
  cases u with | mk a => cases v with | mk b =>
  congr 1
  exact Vector.ext fun i hi => h ⟨i, hi⟩

@[simp] theorem ofFn_get (v : Vec α n) : ofFn (fun i => v i) = v := ext fun i => ofFn_apply _ i

/-- Every entry through a function. -/
def map (f : α → β) (v : Vec α n) : Vec β n := ofFn fun i => f (v i)

/-- The vector with one entry replaced. -/
def set (v : Vec α n) (i : Fin n) (x : α) : Vec α n := ofFn fun j => if j = i then x else v j

/-- All entries equal. -/
def replicate (n : Nat) (x : α) : Vec α n := ofFn fun _ => x

/-- The entries in order. -/
def toList (v : Vec α n) : List α := v.entries.toList

/-- The vector of a list of the right length. -/
def ofList? (n : Nat) (xs : List α) : Option (Vec α n) :=
  if h : xs.toArray.size = n then some ⟨⟨xs.toArray, h⟩⟩ else none

/-- The vector of all entries of a list. -/
def ofList (xs : List α) : Vec α xs.length := ⟨⟨xs.toArray, by simp⟩⟩

/-- The first `k` entries. -/
def take (v : Vec α n) (h : k ≤ n) : Vec α k := ofFn fun i => v (i.castLE h)

@[simp] theorem length_toList (v : Vec α n) : v.toList.length = n := by simp [toList]

@[simp] theorem ofList?_toList (v : Vec α n) : ofList? n v.toList = some v := by
  obtain ⟨⟨a, h⟩⟩ := v
  subst h
  simp [ofList?, toList]

theorem ofList?_eq_none {xs : List α} (h : xs.length ≠ n) : ofList? n xs = none := by
  unfold ofList?
  exact dif_neg (by simpa using h)

theorem map_apply (f : α → β) (v : Vec α n) (i : Fin n) : v.map f i = f (v i) := ofFn_apply _ i

theorem set_apply (v : Vec α n) (i j : Fin n) (x : α) :
    v.set i x j = if j = i then x else v j := ofFn_apply _ j

theorem replicate_apply (x : α) (i : Fin n) : replicate n x i = x := ofFn_apply _ i

theorem take_apply (v : Vec α n) (h : k ≤ n) (i : Fin k) : v.take h i = v (i.castLE h) :=
  ofFn_apply _ i

end Vec

/-- A matrix of `m` rows and `n` columns. -/
structure Mat (α : Type) (m n : Nat) where
  rows : Vec (Vec α n) m

namespace Mat

/-- The entry in a row and a column. -/
def get (A : Mat α m n) (i : Fin m) (j : Fin n) : α := A.rows i j

instance : CoeFun (Mat α m n) fun _ => Fin m → Fin n → α := ⟨get⟩

/-- The matrix with the given entries. -/
def ofFn (f : Fin m → Fin n → α) : Mat α m n := ⟨Vec.ofFn fun i => Vec.ofFn fun j => f i j⟩

@[simp] theorem ofFn_apply (f : Fin m → Fin n → α) (i : Fin m) (j : Fin n) :
    ofFn f i j = f i j := by
  simp [get, ofFn]

@[ext] theorem ext {A B : Mat α m n} (h : ∀ i j, A i j = B i j) : A = B := by
  cases A with | mk a => cases B with | mk b =>
  congr 1
  exact Vec.ext fun i => Vec.ext fun j => h i j

/-- The rows, each a list of its entries. -/
def toLists (A : Mat α m n) : List (List α) := A.rows.toList.map Vec.toList

/-- The matrix of a list of rows of the right lengths. -/
def ofLists? (m n : Nat) (rows : List (List α)) : Option (Mat α m n) :=
  (rows.mapM (Vec.ofList? n)).bind fun rs => (Vec.ofList? m rs).map Mat.mk

/-- Every entry through a function. -/
def map (f : α → β) (A : Mat α m n) : Mat β m n := ofFn fun i j => f (A i j)

/-- Rows and columns exchanged. -/
def transpose (A : Mat α m n) : Mat α n m := ofFn fun i j => A j i

theorem map_apply (f : α → β) (A : Mat α m n) (i : Fin m) (j : Fin n) :
    A.map f i j = f (A i j) := ofFn_apply _ i j

theorem transpose_apply (A : Mat α m n) (i : Fin n) (j : Fin m) : A.transpose i j = A j i :=
  ofFn_apply _ i j

@[simp] theorem transpose_transpose (A : Mat α m n) : A.transpose.transpose = A :=
  ext fun i j => by rw [transpose_apply, transpose_apply]

@[simp] theorem ofLists?_toLists (A : Mat α m n) : ofLists? m n A.toLists = some A := by
  have h (rows : List (Vec α n)) : (rows.map Vec.toList).mapM (Vec.ofList? n) = some rows := by
    induction rows with
    | nil => rfl
    | cons r rs ih => simp [ih]
  simp [ofLists?, toLists, h]

end Mat

section Sums

variable [Scalar α]

/-- The sum of all terms, from the first to the last. -/
def sum (f : Fin n → α) : α := Fin.foldl n (fun s i => s + f i) 0

/-- The sum of the terms whose index has the property, from the first to the last. -/
def sumOver (p : Fin n → Prop) [DecidablePred p] (f : Fin n → α) : α :=
  Fin.foldl n (fun s i => if p i then s + f i else s) 0

/-- A number less the terms whose index has the property, one after the other from the first to the
last. -/
def lessUpOver (p : Fin n → Prop) [DecidablePred p] (b : α) (f : Fin n → α) : α :=
  (List.finRange n).foldl (fun s i => if p i then s - f i else s) b

/-- A number less the terms whose index has the property, one after the other from the last to the
first. -/
def lessDownOver (p : Fin n → Prop) [DecidablePred p] (b : α) (f : Fin n → α) : α :=
  (List.finRange n).foldr (fun i s => if p i then s - f i else s) b

/-- The sum of the products of the entries. -/
def dot (u v : Vec α n) : α := sum fun i => u i * v i

/-- The square root of the plain sum of squares. -/
def norm (v : Vec α n) : α := sqrt (dot v v)

/-- A matrix times a vector. -/
def Mat.mulVec (A : Mat α m n) (v : Vec α n) : Vec α m := Vec.ofFn fun i => sum fun j => A i j * v j

/-- The product of two matrices. -/
def Mat.mul (A : Mat α m n) (B : Mat α n k) : Mat α m k :=
  Mat.ofFn fun i j => sum fun l => A i l * B l j

/-- The matrix of the products of the columns, `Aᵀ A`. -/
def Mat.gram (A : Mat α m n) : Mat α n n := Mat.ofFn fun i j => sum fun l => A l i * A l j

/-- The products of the columns with a vector, `Aᵀ v`. -/
def Mat.transposeMulVec (A : Mat α m n) (v : Vec α m) : Vec α n :=
  Vec.ofFn fun j => sum fun l => A l j * v l

theorem Mat.mulVec_apply (A : Mat α m n) (v : Vec α n) (i : Fin m) :
    A.mulVec v i = sum fun j => A i j * v j := Vec.ofFn_apply _ i

theorem Mat.mul_apply (A : Mat α m n) (B : Mat α n k) (i : Fin m) (j : Fin k) :
    A.mul B i j = sum fun l => A i l * B l j := Mat.ofFn_apply _ i j

theorem Mat.gram_apply (A : Mat α m n) (i j : Fin n) :
    A.gram i j = sum fun l => A l i * A l j := Mat.ofFn_apply _ i j

theorem Mat.transposeMulVec_apply (A : Mat α m n) (v : Vec α m) (j : Fin n) :
    A.transposeMulVec v j = sum fun l => A l j * v l := Vec.ofFn_apply _ j

/-- Whether all entries are finite. -/
def Vec.isFinite (v : Vec α n) : Bool := decide (∀ i, Scalar.isFinite (v i) = true)

/-- Whether all entries are finite. -/
def Mat.isFinite (A : Mat α m n) : Bool := decide (∀ i j, Scalar.isFinite (A i j) = true)

theorem Vec.isFinite_iff (v : Vec α n) : v.isFinite = true ↔ ∀ i, Scalar.isFinite (v i) = true :=
  decide_eq_true_iff

theorem Mat.isFinite_iff (A : Mat α m n) :
    A.isFinite = true ↔ ∀ i j, Scalar.isFinite (A i j) = true := decide_eq_true_iff

/-- The identity matrix. -/
def Mat.identity : Mat α n n := Mat.ofFn fun i j => if i = j then 1 else 0

end Sums

end LeastSquares
