/-!
# Entries side by side

Two lists are compared or combined entry by entry. They must have the same length, except that a
list of a single entry stands beside every entry of the other one.
-/

namespace LeastSquares

variable {β γ : Type}

/-- The pairs of entries that stand side by side, `none` if the lengths do not fit. -/
def beside? (xs : List β) (ys : List γ) : Option (List (β × γ)) :=
  if xs.length = ys.length then some (xs.zip ys)
  else match xs, ys with
    | [x], ys => some (ys.map fun y => (x, y))
    | xs, [y] => some (xs.map fun x => (x, y))
    | _, _ => none

/-- Lists of one length stand side by side as they are. -/
theorem beside?_of_length_eq {xs : List β} {ys : List γ} (h : xs.length = ys.length) :
    beside? xs ys = some (xs.zip ys) := if_pos h

end LeastSquares
