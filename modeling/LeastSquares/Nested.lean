import LeastSquares.Dense
import LeastSquares.Failure

/-!
# Arrays before their shape is known

What a caller or a model hands over as an array is a tree of numbers. It is an array of a shape
if all its branches have that shape; vectors and matrices are the arrays of one and of two
dimensions. A bare number counts as a vector of one entry.

`Nested.vector` and `Nested.matrix` ask for a given shape and fail with the first rule that is
broken: numbers only, then the count of dimensions, then the sizes.
-/

namespace LeastSquares

/-- A number, a list of arrays, or something that is no number: a text, or not even that. -/
inductive Nested (α : Type) where
  | number (x : α)
  | text (s : String)
  | other
  | list (items : List (Nested α))
  deriving Repr, Inhabited

namespace Nested

variable {α : Type}

/-- The sizes of all dimensions, outermost first; `none` if something is no number or if two
items of one list differ in shape. An empty list is an array of one dimension. -/
def shape? : Nested α → Option (List Nat)
  | number _ => some []
  | text _ | other => none
  | list items =>
    match items.attach.mapM fun ⟨x, _⟩ => x.shape? with
    | none => none
    | some [] => some [0]
    | some (s :: ss) => if ss.all (· == s) then some ((ss.length + 1) :: s) else none

/-- The numbers of the tree from left to right. -/
def flatten : Nested α → List α
  | number x => [x]
  | text _ | other => []
  | list items => items.attach.flatMap fun ⟨x, _⟩ => x.flatten

/-- Whatever is no list, from left to right. -/
def leaves : Nested α → List (Nested α)
  | list items => items.attach.flatMap fun ⟨x, _⟩ => x.leaves
  | x => [x]

/-- The tree with a number for every leaf. -/
def layout : Nested α → Nested Unit
  | list items => list (items.attach.map fun ⟨x, _⟩ => x.layout)
  | _ => number ()

/-- Whether a tree is a number. -/
def isNumber : Nested α → Bool
  | number _ => true
  | _ => false

/-- The arrays one level down. -/
def items : Nested α → List (Nested α)
  | list xs => xs
  | _ => []

/-- A vector as an array. -/
def ofList (xs : List α) : Nested α := list (xs.map number)

/-- A matrix as an array. -/
def ofLists (rows : List (List α)) : Nested α := list (rows.map ofList)

theorem shape?_ofList (xs : List α) : (ofList xs).shape? = some [xs.length] := by
  have h (ys : List α) : (ys.map number).mapM shape? = some (ys.map fun _ => []) := by
    induction ys with
    | nil => rfl
    | cons y ys ih => simp [ih, shape?]
  have e := List.mapM_subtype (l := (xs.map number).attach)
    (f := fun x => shape? x.1) (g := shape?) (fun _ _ => rfl)
  unfold ofList shape?
  simp only [List.unattach_attach] at e
  rw [e, h]
  cases xs with
  | nil => rfl
  | cons x xs => simp

theorem flatten_ofList (xs : List α) : (ofList xs).flatten = xs := by
  have h (ys : List α) : (ys.map number).flatMap flatten = ys := by
    induction ys with
    | nil => rfl
    | cons y ys ih => simp [ih, flatten]
  unfold ofList flatten
  rw [List.flatMap_subtype (g := flatten) fun _ _ => rfl]
  simp [h]

/-- The most dimensions that an array may have. -/
def maxDimensions : Nat := 64

/-- Why a tree is no array of numbers. Its layout comes before its leaves, and of these the first
that is no number decides. -/
def defect (a : Nested α) : Failure α :=
  match a.layout.shape?, a.leaves.find? fun x => !x.isNumber with
  | some _, some other => .notAnEntry
  | _, _ => .notNumeric

/-- The shape of an array of numbers. -/
def shapeOf (a : Nested α) : Except (Failure α) (List Nat) :=
  match a.shape? with
  | none => .error a.defect
  | some s => if s.length ≤ maxDimensions then .ok s else .error .notNumeric

/-- The numbers of an array of whatever shape. -/
def entries (a : Nested α) : Except (Failure α) (List α) := a.shapeOf.map fun _ => a.flatten

/-- The entries of an array of one dimension, or the number itself of one of none. -/
def vectorEntries (a : Nested α) (name : String) : Except (Failure α) (List α) := do
  match ← a.shapeOf with
  | [] | [_] => return a.flatten
  | _ => throw (.dimension name 1)

/-- The sizes and the rows of an array of two dimensions. -/
def matrixRows (a : Nested α) (name : String) : Except (Failure α) (Nat × Nat × List (List α)) := do
  match ← a.shapeOf with
  | [m, n] => return (m, n, a.items.map flatten)
  | _ => throw (.dimension name 2)

/-- The array as a vector of `n` entries. The two names are those that the texts of a wrong
dimension and of a wrong size use. -/
def vector (a : Nested α) (name sized : String) (n : Nat) : Except (Failure α) (Vec α n) := do
  let xs ← a.vectorEntries name
  match Vec.ofList? n xs with
  | some v => return v
  | none => throw (.shape sized [xs.length] [n])

/-- A vector comes back from the array that it was laid out as. -/
theorem vector_ofList (v : Vec α n) (name sized : String) :
    (ofList v.toList).vector name sized n = .ok v := by
  simp [vector, vectorEntries, shapeOf, maxDimensions, shape?_ofList, flatten_ofList, bind,
    Except.bind, pure, Except.pure]

/-- The array as a matrix of `m` rows and `n` columns. -/
def matrix (a : Nested α) (name : String) (m n : Nat) : Except (Failure α) (Mat α m n) := do
  let (r, c, rows) ← a.matrixRows name
  match Mat.ofLists? m n rows with
  | some A => if c = n then return A else throw (.shape name [r, c] [m, n])
  | none => throw (.shape name [r, c] [m, n])

section Checks

variable [Scalar α]

/-- The entries of a vector, which must all be finite if `finite` is set. -/
def checkVector (a : Nested α) (name : String) (finite : Bool) : Except (Failure α) (List α) := do
  let xs ← a.vectorEntries name
  if finite && !xs.all Scalar.isFinite then throw (.notFinite name) else return xs

/-- The rows of a matrix, whose entries must all be finite if `finite` is set. -/
def checkMatrix (a : Nested α) (name : String) (finite : Bool) :
    Except (Failure α) (Nat × Nat × List (List α)) := do
  let (m, n, rows) ← a.matrixRows name
  if finite && !rows.all (·.all Scalar.isFinite) then throw (.notFinite name)
  else return (m, n, rows)

/-- The array itself, if it has the expected shape. -/
def checkShape (a : Nested α) (expected : List Nat) (name : String) :
    Except (Failure α) (Nested α) := do
  let found ← a.shapeOf
  if found = expected then return a else throw (.shape name found expected)

end Checks

end Nested

end LeastSquares
