import Mathlib.Data.List.FinRange
import Mathlib.Tactic.SplitIfs
import LeastSquares.Linear.Triangular

/-!
# Loops over all indices

What a loop over all indices keeps, and what the sums and the substitutions in triangles read,
whatever the arithmetic.

Results:
* `foldl_finRange₂`, `foldl_finRange`: what two loops keep together, and what one loop keeps, by
  induction on the indices before the one at work;
* `sumOver_congr`, `lessUpOver_congr`, `lessDownOver_congr`: a sum reads the terms that it takes;
* `Triangular.solveUpper_congr` and its like for the other three substitutions: they read a triangle
  above its diagonal.
-/

namespace LeastSquares

variable {α β γ : Type} {n q : Nat}

/-- A relation between two states that each step of two loops carries on holds at their end. -/
theorem foldl_finRange₂ {f : β → Fin n → β} {g : γ → Fin n → γ} {I : Nat → β → γ → Prop} {b : β}
    {c : γ} (h₀ : I 0 b c) (hstep : ∀ (k : Fin n) b c, I k b c → I (k + 1) (f b k) (g c k)) :
    I n ((List.finRange n).foldl f b) ((List.finRange n).foldl g c) := by
  have htake (k : Nat) (hk : k ≤ n) :
      I k (((List.finRange n).take k).foldl f b) (((List.finRange n).take k).foldl g c) := by
    induction k with
    | zero => exact h₀
    | succ k ih =>
      rw [List.take_add_one, List.getElem?_eq_getElem (by rwa [List.length_finRange]),
        List.getElem_finRange, Option.toList_some, List.foldl_append, List.foldl_append]
      exact hstep ⟨k, hk⟩ _ _ (ih (Nat.le_of_succ_le hk))
  have hall := htake n le_rfl
  rwa [List.take_of_length_le (by rw [List.length_finRange])] at hall

/-- A property of the state that each step of a loop carries on holds at its end. -/
theorem foldl_finRange {f : β → Fin n → β} {I : Nat → β → Prop} {b : β} (h₀ : I 0 b)
    (hstep : ∀ (k : Fin n) b, I k b → I (k + 1) (f b k)) : I n ((List.finRange n).foldl f b) :=
  foldl_finRange₂ (g := fun c _ => c) (I := fun k b (_ : Unit) => I k b) (c := ()) h₀
    fun k b _ => hstep k b

variable [Scalar α]

/-! ## Sums -/

section Sums

variable {c : Fin n → Prop} [DecidablePred c] {f g : Fin n → α}

theorem sumOver_congr (h : ∀ i, c i → f i = g i) : sumOver c f = sumOver c g := by
  unfold sumOver
  congr 1
  funext s i
  split_ifs with hi
  · rw [h i hi]
  · rfl

theorem lessUpOver_congr {b : α} (h : ∀ i, c i → f i = g i) :
    lessUpOver c b f = lessUpOver c b g := by
  unfold lessUpOver
  congr 1
  funext s i
  split_ifs with hi
  · rw [h i hi]
  · rfl

theorem lessDownOver_congr {b : α} (h : ∀ i, c i → f i = g i) :
    lessDownOver c b f = lessDownOver c b g := by
  unfold lessDownOver
  congr 1
  funext i s
  split_ifs with hi
  · rw [h i hi]
  · rfl

end Sums

/-! ## Substitution -/

namespace Triangular

variable {T T' : Mat α n n} {d d' b b' : Vec α n}

theorem solveUpper_congr (hT : ∀ i j, i < j → T' i j = T i j) :
    solveUpper q T' d b = solveUpper q T d b := by
  unfold solveUpper
  congr 1
  funext j x
  rw [sumOver_congr fun i hi => by rw [hT j i hi.1]]

theorem solveTransposed_congr (hT : ∀ i j, i < j → T' i j = T i j) :
    solveTransposed T' d b = solveTransposed T d b := by
  unfold solveTransposed
  congr 1
  funext x j
  rw [sumOver_congr fun i hi => by rw [hT i j hi]]

theorem solveUpperByColumns_congr (hT : ∀ i j, i < j → T' i j = T i j)
    (hd : ∀ j : Fin n, j.val < q → d' j = d j) (hb : ∀ j : Fin n, j.val < q → b' j = b j) :
    solveUpperByColumns q T' d' b' = solveUpperByColumns q T d b := by
  unfold solveUpperByColumns
  congr 1
  funext j x
  split_ifs with hj
  · rw [hd j hj, hb j hj, lessDownOver_congr fun i hi => by rw [hT j i hi.1]]
  · rfl

theorem solveTransposedByColumns_congr (hT : ∀ i j, i < j → T' i j = T i j) :
    solveTransposedByColumns T' d b = solveTransposedByColumns T d b := by
  unfold solveTransposedByColumns
  congr 1
  funext x j
  rw [lessUpOver_congr fun i hi => by rw [hT i j hi]]

end Triangular

end LeastSquares
