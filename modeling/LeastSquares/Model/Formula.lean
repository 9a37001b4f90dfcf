import LeastSquares.Failure

/-!
# Formulas

Expressions in the parameters of a model and in one argument, over doubles. All operations are
those of IEEE arithmetic: dividing by zero gives a signed infinity or an undefined value, and so
on.
-/

namespace LeastSquares

/-- An expression in parameters and an argument. -/
inductive Formula where
  | constant (x : Float)
  | argument
  /-- An operand that an operation is left without. -/
  | missing
  /-- A parameter by its index; a negative index counts from the last parameter. -/
  | parameter (i : Int)
  | add (a b : Formula)
  | sub (a b : Formula)
  | mul (a b : Formula)
  | div (a b : Formula)
  | neg (a : Formula)
  | exp (a : Formula)
  | sqrt (a : Formula)
  | sin (a : Formula)
  | cos (a : Formula)
  | atan (a : Formula)
  /-- `t` if `a ≤ b`, else `e`; only the one chosen is evaluated. -/
  | ifLe (a b t e : Formula)
  deriving Repr, Inhabited

/-- The entry of a list at an index that may count from its end. -/
def entryAt {β : Type} (xs : List β) (i : Int) : Option β :=
  if 0 ≤ i then xs[i.toNat]?
  else if 0 ≤ xs.length + i then xs[(xs.length + i).toNat]? else none

/-- The value of a formula. -/
def Formula.eval (p : List Float) (x : Float) : Formula → Except Fault Float
  | constant c => .ok c
  | argument => .ok x
  | missing => .error .outOfRange
  | parameter i =>
    match entryAt p i with
    | some v => .ok v
    | none => .error .outOfRange
  | add a b => do return (← a.eval p x) + (← b.eval p x)
  | sub a b => do return (← a.eval p x) - (← b.eval p x)
  | mul a b => do return (← a.eval p x) * (← b.eval p x)
  | div a b => do return (← a.eval p x) / (← b.eval p x)
  | neg a => do return -(← a.eval p x)
  | exp a => do return Float.exp (← a.eval p x)
  | sqrt a => do return Float.sqrt (← a.eval p x)
  | sin a => do return Float.sin (← a.eval p x)
  | cos a => do return Float.cos (← a.eval p x)
  | atan a => do return Float.atan (← a.eval p x)
  | ifLe a b t e => do
    if (← a.eval p x) ≤ (← b.eval p x) then t.eval p x else e.eval p x

end LeastSquares
