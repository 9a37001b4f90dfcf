import LeastSquares.Model.Formula
import LeastSquares.Problem

/-!
# Sample models

Models given by data: a matrix, a curve through observations, a system of formulas, or a script
that says what each call returns. Every call is written into a journal. Beside them stand
validators and checkers that are given by data.
-/

namespace LeastSquares

/-- The points at which a model was called, in order. -/
structure Journal where
  points : Array (List Float)

namespace Journal

/-- No call so far. -/
def empty : Journal := ⟨#[]⟩

/-- The number of calls. -/
def calls (j : Journal) : Nat := j.points.size

end Journal

/-- A model given by data. -/
inductive Sample where
  /-- The value is a matrix times the point; the matrix is the Jacobian. -/
  | linear (A : List (List Float))
  /-- One observation per argument. -/
  | curve (arguments : List Float) (value : Formula) (derivatives : List Formula)
  /-- One formula per observation. -/
  | system (values : List Formula) (derivatives : List (List Formula))
  /-- What each call returns; the last entry serves all later calls. -/
  | script (calls : List (Nested Float × Nested Float))

namespace Sample

/-- A row times a point, added up from zero on. -/
def rowProduct (p row : List Float) : Except Fault Float :=
  if row.length ≤ p.length then .ok ((row.zip p).foldl (fun s (a, x) => s + a * x) 0)
  else .error .outOfRange

/-- The entry of a script for the `call`-th call, counted from one. -/
def scripted (calls : List (Nested Float × Nested Float)) (call : Nat) :
    Except Fault (Nested Float × Nested Float) :=
  match calls[min (call - 1) (calls.length - 1)]? with
  | some entry => .ok entry
  | none => .error .outOfRange

/-- The value at a point. -/
def value (model : Sample) (call : Nat) (p : List Float) : Except Fault (Nested Float) :=
  match model with
  | linear A => do return .ofList (← A.mapM (rowProduct p))
  | curve arguments f _ => do return .ofList (← arguments.mapM fun x => f.eval p x)
  | system fs _ => do return .ofList (← fs.mapM fun f => f.eval p 0)
  | script calls => do return (← scripted calls call).1

/-- The Jacobian at a point. -/
def jacobian (model : Sample) (call : Nat) (p : List Float) :
    Except Fault (Nested Float) :=
  match model with
  | linear A => .ok (.ofLists A)
  | curve arguments _ dfs => do
    return .ofLists (← arguments.mapM fun x => dfs.mapM fun f => f.eval p x)
  | system _ dfs => do return .ofLists (← dfs.mapM fun row => row.mapM fun f => f.eval p 0)
  | script calls => do return (← scripted calls call).2

/-- Writes a call into the journal and returns its number. -/
def record (p : List Float) : Act Journal Fault Nat :=
  .ofFn fun j => let j : Journal := ⟨j.points.push p⟩; (.ok j.calls, j)

/-- The number of the latest call. -/
def latest : Act Journal Fault Nat := .ofFn fun j => (.ok j.calls, j)

/-- A model whose one call returns value and Jacobian. -/
def joint (model : Sample) : ModelGiven Journal Float :=
  .joint fun _ p => do
    let p := p.toList
    let call ← record p
    let v ← Act.ofExcept (model.value call p)
    let J ← Act.ofExcept (model.jacobian call p)
    return (v, J)

/-- A model with one function for the value and one for the Jacobian. A call for the value is what
counts as a call of the model. -/
def split (model : Sample) : ModelGiven Journal Float :=
  .split
    (fun _ p => do
      let p := p.toList
      let call ← record p
      Act.ofExcept (model.value call p))
    (fun _ p => do
      let call ← latest
      Act.ofExcept (model.jacobian call p.toList))

end Sample

/-! ## Validators -/

/-- A validator given by data. -/
inductive SampleValidator where
  /-- Each coordinate is raised to a lower bound and then cut to an upper one. -/
  | clip (low high : Nested Float)
  | absolute
  | constant (p : Nested Float)

namespace SampleValidator

/-- Entries side by side through a function. -/
def spread (f : Float → Float → Float) (xs ys : List Float) : Except Fault (List Float) :=
  match beside? xs ys with
  | some pairs => .ok (pairs.map fun (x, y) => f x y)
  | none => .error .sizes

/-- The smaller of two numbers, undefined as soon as one of them is. -/
def smallest (a b : Float) : Float :=
  if Scalar.isUndefined a then a else if Scalar.isUndefined b then b else Scalar.smaller a b

/-- The point that a validator returns. -/
def apply (v : SampleValidator) (p : List Float) : Except Fault (Nested Float) :=
  match v with
  | clip low high => do
    return .ofList (← spread smallest (← spread Scalar.largest p low.flatten) high.flatten)
  | absolute => .ok (.ofList (p.map Float.abs))
  | constant p => .ok p

/-- The validator as a function of points of any size. -/
def toFunction {n : Nat} (v : SampleValidator) (p : Vec Float n) :
    Act Journal Fault (Nested Float) :=
  .ofExcept (v.apply p.toList)

end SampleValidator

/-! ## Checkers -/

namespace Checker

variable {σ : Type}

/-- Yes from the given iteration on. -/
def fromIteration (n : Number Float) : Checker σ Float :=
  .function fun iteration _ _ => pure (reaches iteration n)

/-- Yes below the given cost. -/
def belowCost (limit : Number Float) : Checker σ Float :=
  .function fun _ _ current => pure (decide (current.cost < limit.value))

end Checker

end LeastSquares
