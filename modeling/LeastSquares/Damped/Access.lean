import LeastSquares.Act
import LeastSquares.Damped.Parameter

/-!
# Decompositions with sizes tested at run time

The operations on a decomposition for callers whose number of solved columns and whose vectors
come without proofs of their sizes. Those that use the buffer are actions on the decomposition;
what such an action has written before it fails stays written. Where the sizes fit, the answers are
those of `Decomposition.direction` and `Decomposition.parameter`.
-/

namespace LeastSquares.Decomposition

variable {α : Type} [Scalar α] {m n : Nat}

/-- The vector of the `k`-th reflection. A negative index counts from the last pivot, and from the
last row. -/
def reflectionAt (d : Decomposition α m n) (k : Int) : Except (Failure α) (List α) :=
  let pivot := if k < 0 then n + k else k
  if h : 0 ≤ pivot ∧ pivot.toNat < n then
    let column := (Vec.ofFn fun i => d.buffer i ⟨pivot.toNat, h.2⟩).toList
    .ok (column.drop (if k < 0 then (m + k).toNat else k.toNat))
  else .error .outOfRange

/-- `Qᵀ y` for a vector that must have one entry per row, if there is any reflection to apply. -/
def transposeApplyTo (d : Decomposition α m n) (y : List α) : Except (Failure α) (List α) :=
  match Vec.ofList? m y with
  | some y => .ok (d.transposeApply y).toList
  | none => if n = 0 then .ok y else .error .sizes

/-- Writes the diagonal of `R` onto the first `p` diagonal entries, as far as these exist. -/
def writeDiagonalOf (p : Int) : Act (Decomposition α m n) (Failure α) Unit :=
  .ofFn fun d =>
    (if p.toNat ≤ m ∧ p.toNat ≤ n then .ok () else .error .outOfRange, d.writeDiagonal p.toNat)

/-- Writes row `j` of the leading `p` rows and columns, from behind its diagonal entry on, into
column `j` below that entry. A single entry fills the whole column. -/
def copyRowOf (p j : Nat) : Act (Decomposition α m n) (Failure α) Unit :=
  .ofFn fun d =>
    if h : j < m ∧ j < n then
      let behind := min p n - (j + 1)
      let below := min p m - (j + 1)
      if behind = below ∨ behind = 1 then
        let source (i : Nat) := if behind = below then i else j + 1
        let buffer : Mat α m n := Mat.ofFn fun i k =>
          if hs : (k.val = j ∧ j < i.val ∧ i.val < p) ∧ source i.val < n then
            d.buffer ⟨j, h.1⟩ ⟨source i.val, hs.2⟩
          else d.buffer i k
        (.ok (), { d with buffer })
      else (.error .sizes, d)
    else (.error .outOfRange, d)

/-- The entries of a list at the first `p` pivots' columns; the others are not asked for. -/
def columnsOf (d : Decomposition α m n) (p : Nat) (xs : List α) : Except (Failure α) (Vec α n) :=
  if ∃ k : Fin n, k.val < p ∧ xs.length ≤ (d.order k).val then .error .outOfRange
  else .ok (Vec.ofFn fun c => xs.getD c 0)

/-! ## Damped directions -/

section Short

variable {p : Nat}

variable (hm : p ≤ m) (hn : p ≤ n)

/-- A rotation for a right-hand side of which only the first `known` entries exist. If it needs
another one it stops, with the diagonal entry in the buffer already replaced. -/
def rotateWithin (known : Nat) (w : Damped.Workspace α m n p) (k : Fin p) :
    Except (Mat α m n) (Damped.Workspace α m n p) :=
  if (w.row k == 0) = true ∨ k.val < known then .ok (w.rotate hm hn k)
  else
    let entry := w.buffer (k.castLE hm) (k.castLE hn)
    let (c, s) := Damped.rotation entry (w.row k)
    .error (Mat.ofFn fun i l =>
      if i.val = k.val ∧ l.val = k.val then c * entry + s * w.row k else w.buffer i l)

/-- Rotates row `j` of `D` in, if `D` has an entry for it. What is left of the buffer otherwise is
told. -/
def absorbWithin (d : Decomposition α m n) (known : Nat) (w : Damped.Workspace α m n p) :
    Fin p × Option α → Except (Mat α m n) (Damped.Workspace α m n p)
  | (_, none) => .error w.buffer
  | (j, some entry) => do
    let w ←
      if entry == 0 then pure w
      else
        ((List.finRange p).filter fun k => decide (j ≤ k)).foldlM (rotateWithin hm hn known)
          (w.loadRow j entry)
    return w.finish hm hn j (d.diagonal (j.castLE hn))

/-- The damped direction for a right-hand side or a diagonal that is too short. A right-hand side of
one entry serves for all pivots, if the triangular matrix leaves only the first one to solve for. -/
def shortDirection (qy damping : List α) :
    Act (Decomposition α m n) (Failure α) (Vec α n × List α) :=
  .ofFn fun d =>
    let known := min p qy.length
    let rows := (List.finRange p).map fun j => (j, damping[(d.order (j.castLE hn)).val]?)
    match rows.foldlM (d.absorbWithin hm hn known)
      (d.workspace (Vec.ofFn fun k => qy.getD k 0)) with
    | .error buffer => (.error .outOfRange, { d with buffer })
    | .ok w =>
      let used := { d with buffer := w.buffer }
      let solved := Damped.firstZero w.row
      let x := Triangular.solveUpper solved (used.scratch hm hn) w.row w.rhs
      let result : Except (Failure α) (Vec α p) :=
        if known < solved then .error .outOfRange
        else if known = p then .ok x
        else if h : known = 1 ∧ 0 < p then .ok (Vec.replicate p (x ⟨0, h.2⟩))
        else .error .sizes
      (result.map fun x => (d.scatter x, w.row.toList), used)

end Short

/-- The damped direction for the first `p` columns. A `p` beyond the last column fails at the column
behind it. -/
def directionFor (p : Int) (qy damping : List α) :
    Act (Decomposition α m n) (Failure α) (Vec α n × List α) := do
  for j in List.range (min p.toNat (n + 1)) do
    copyRowOf p.toNat j
  if p < 0 then throw .sizes
  let d ← get
  if h : p.toNat ≤ m ∧ p.toNat ≤ n then
    match d.columnsOf p.toNat damping, Vec.ofList? p.toNat (qy.take p.toNat) with
    | .ok damping, some qy =>
      let r := d.directionBelow h.1 h.2 qy damping
      set r.decomposition
      return (r.direction, r.solution.diagonal.toList)
    | _, _ => shortDirection h.1 h.2 qy damping
  else throw .outOfRange

/-! ## Damping parameters -/

/-- The number of entries of a list up to a bound. A negative bound leaves out that many at the
end. -/
def upTo (bound : Int) (length : Nat) : Nat :=
  if 0 ≤ bound then min bound.toNat length else (length + bound).toNat

theorem upTo_le (bound : Int) (length : Nat) : upTo bound length ≤ length := by
  unfold upTo
  split
  · exact Nat.min_le_right ..
  · omega

/-- The rank as it is told to callers that solve for `p` columns: `p` itself if no column was
negligible. -/
def rankFor (d : Decomposition α m n) (p : Int) : Int := if d.rank = n then p else d.rank

/-- The undamped direction, in pivot order, for a rank that may be negative: then nothing is solved
for and the first entries of `Qᵀ r` stand for themselves. A list of a single entry serves for all
pivots of the rank. -/
def undampedFor (d : Decomposition α m n) (rank : Int) (qy : List α) :
    Except (Failure α) (Vec α n) :=
  let pivots := upTo rank n
  let given := upTo rank qy.length
  let entry (i : Nat) : α := qy.getD (if given = 1 then 0 else i) 0
  if pivots ≠ given ∧ given ≠ 1 then .error .sizes
  else if n < rank then .error .outOfRange
  else if rank < 0 then .ok (Vec.ofFn fun k => if k.val < pivots then entry k else 0)
  else .ok ({ d with rank := rank.toNat }.undamped (Vec.ofFn fun i => entry i))

/-- The first of the products of `p` columns with `Qᵀ r` that cannot be formed; the one behind the
last column never can. -/
def gradientFailure? (m n p : Nat) (qy : List α) : Option (Failure α) :=
  ((List.range (min p (n + 1))).find? fun j =>
      decide (n ≤ j ∨ min (j + 1) m ≠ min (j + 1) qy.length)).map fun j =>
    if n ≤ j then .outOfRange else .sizes

/-- The damping parameter for the first `p` columns, with its direction. -/
def parameterFor (p : Int) (qy : List α) (delta : α) (scaling : List α) (initial : α) :
    Act (Decomposition α m n) (Failure α) (α × Vec α n) := do
  let d ← get
  let rank := d.rankFor p
  let x ← Act.ofExcept (d.undampedFor rank qy)
  let solved := upTo p n
  let D ← Act.ofExcept (d.columnsOf solved scaling)
  let length := norm (Damped.scaled (d.gather (upTo_le p n) D) (x.take (upTo_le p n)))
  if length - delta ≤ 0.1 * delta then return (0, d.toColumns x)
  if p < 0 then throw .sizes
  match gradientFailure? m n p.toNat qy with
  | some f => throw f
  | none =>
    if h : p.toNat ≤ m ∧ p.toNat ≤ n then
      let entries : Vec α m := Vec.ofFn fun i => qy.getD (if qy.length = 1 then 0 else i.val) 0
      let r := { d with rank := rank.toNat }.parameter h.1 h.2 entries delta D initial
      set { r.decomposition with rank := d.rank }
      return (r.lambda, r.direction)
    else
      let (x, _) ← directionFor p qy scaling
      return (initial, x)

end LeastSquares.Decomposition
