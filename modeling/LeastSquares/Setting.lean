import LeastSquares.Failure

/-!
# Settings

The value of a named option as it was given.
-/

namespace LeastSquares

/-- What an option was given as. -/
inductive Setting (α : Type) where
  | number (x : Number α)
  | text (s : String)
  /-- Neither a number nor a text. -/
  | other
  deriving Repr

/-- The number of a setting, which the name stands for if there is none. -/
def Setting.toNumber {α : Type} (setting : Setting α) (name : String) :
    Except (Failure α) (Number α) :=
  match setting with
  | number x => .ok x
  | _ => .error (.notANumber name)

end LeastSquares
