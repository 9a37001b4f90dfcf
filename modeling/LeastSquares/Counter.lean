import LeastSquares.Failure

/-!
# Bounded counters

A counter that fails once it goes beyond its maximum, with a category of failures of its own, for
instance that of too many evaluations. A failed increment is still counted.
-/

namespace LeastSquares

/-- The integer part of a number. -/
def Number.toCount {α : Type} [Scalar α] : Number α → Except (Failure α) Int
  | .int n => .ok n
  | .real x =>
    if Scalar.isUndefined x then .error .undefinedCount
    else if isFinite x then .ok (Scalar.truncate x)
    else .error .infiniteCount

/-- A counter with a maximum. -/
structure Counter where
  /-- The category of the failure beyond the maximum. -/
  category : Category
  maximum : Int
  count : Int
  deriving DecidableEq, Repr

namespace Counter

variable {α : Type}

/-- A counter at zero. Its maximum must be positive before its fraction is cut off. -/
def create [Scalar α] (category : Category) (maximum : Number α) : Except (Failure α) Counter := do
  if maximum.isNonpositive then throw (.countNotPositive maximum)
  return ⟨category, ← maximum.toCount, 0⟩

/-- Whether one more can be counted. -/
def canIncrement (c : Counter) : Bool := decide (c.count < c.maximum)

/-- The counter with `amount` added, and whether it is beyond its maximum. -/
def increment (c : Counter) (amount : Int) : Counter × Except (Failure α) Unit :=
  let c := { c with count := c.count + amount }
  (c, if c.maximum < c.count then .error (.exceeded c.category c.maximum) else .ok ())

theorem create_int_of_pos [Scalar α] (category : Category) {k : Int} (h : 0 < k) :
    (create category (.int k) : Except (Failure α) Counter) = .ok ⟨category, k, 0⟩ := by
  have hk : (Number.int k : Number α).isNonpositive = false := by
    simp only [Number.isNonpositive, decide_eq_false_iff_not]
    omega
  simp [create, hk, Number.toCount, bind, Except.bind, pure, Except.pure]

/-- The counter back at zero. -/
def reset (c : Counter) : Counter := { c with count := 0 }

/-- The text of a counter. -/
def text (c : Counter) : String := s!"Incrementor(count={c.count}, maximal_count={c.maximum})"

end Counter

end LeastSquares
