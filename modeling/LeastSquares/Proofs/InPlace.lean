import LeastSquares.Damped.System
import LeastSquares.LevenbergMarquardt.Trial
import LeastSquares.Proofs.Loops

/-!
# The damped system in place

`Decomposition.direction` copies the triangle below the diagonal of the buffer that it stands in
and eliminates there, one diagonal for two triangles; `Damped.solve` eliminates in a triangle of its
own. They do the same arithmetic in the same order, so whatever the arithmetic they come to the same
end, and the buffer is left as it was above the diagonal.

`Workspace.Holds d j w S` says where the triangle `S` stands in the buffer of `w` when `j` rows of
`D` have been rotated in: its entries above the diagonal below that of the buffer, its diagonal in a
vector of its own in the first `j` rows and on the buffer's diagonal in the others. In the first `j`
rows the diagonal of the buffer is that of `d` again. `Workspace.Follows` adds the row of `D` that
is at work and the right-hand sides.

Results:
* `Workspace.Follows.rotate`: one rotation; `Workspace.Holds.absorb`: a row of `D`, by induction
  on its rotations; `Workspace.Holds.finish`: the diagonal entry restored;
* `Decomposition.Copied.copyRow`, `copyRows_spec`: the triangle copied below the diagonal, by
  induction on its rows;
* `Decomposition.eliminate_holds`: all rows of `D`, by induction on them;
* `Decomposition.direction_eq`: the damped direction is `Damped.solve` of the leading block, and
  what it leaves is `Decomposition.withScratch`;
* `solveTransposedByColumns_scratch`, `solveTransposed_square`, `gradient_eq`, `linearModel_eq`:
  what is read of the buffer is the triangle that the direction left, and the block above the
  diagonal.
-/

namespace LeastSquares

variable {α : Type} [Scalar α] {m n p : Nat} {hm : p ≤ m} {hn : p ≤ n}

namespace Damped.Workspace

/-- The workspace holds the triangle `S`, with `j` of its rows done, in the buffer of `d`. -/
structure Holds (hm : p ≤ m) (hn : p ≤ n) (d : Decomposition α m n) (j : Nat)
    (w : Workspace α m n p) (S : Mat α p p) : Prop where
  /-- Above the diagonal, and below row `p`, the buffer is that of `d`. -/
  kept : ∀ i k, ¬ (k.val ≤ i.val ∧ i.val < p) → w.buffer i k = d.buffer i k
  below : ∀ k i : Fin p, k < i → w.buffer (i.castLE hm) (k.castLE hn) = S k i
  /-- In the rows to come, both triangles have the diagonal of the buffer. -/
  opened : ∀ k : Fin p, j ≤ k.val → w.buffer (k.castLE hm) (k.castLE hn) = S k k
  restored : ∀ k : Fin p, k.val < j →
    w.buffer (k.castLE hm) (k.castLE hn) = d.diagonal (k.castLE hn)
  moved : ∀ k : Fin p, k.val < j → w.row k = S k k
  isUpper : ∀ k i : Fin p, i < k → S k i = 0

/-- The workspace holds the triangle of an elimination, its row of `D` from entry `j` on, and its
right-hand sides. -/
structure Follows (hm : p ≤ m) (hn : p ≤ n) (d : Decomposition α m n) (j : Nat)
    (w : Workspace α m n p) (e : Elimination α p) : Prop extends Holds hm hn d j w e.upper where
  row_eq : ∀ k : Fin p, j ≤ k.val → w.row k = e.row k
  rhs_eq : w.rhs = e.rhs
  rest_eq : w.rest = e.rest

variable {d : Decomposition α m n} {j : Nat} {w : Workspace α m n p}

/-- **One rotation** against a row that is not done yet. It goes down column `k` of the buffer,
which is row `k` of the triangle. -/
theorem Follows.rotate {e : Elimination α p} (h : Follows hm hn d j w e) {k : Fin p}
    (hk : j ≤ k.val) : Follows hm hn d j (w.rotate hm hn k) (e.rotate k) := by
  unfold Workspace.rotate Elimination.rotate
  rw [h.row_eq k hk, h.opened k hk]
  split_ifs with h0
  · exact h
  obtain ⟨c, s⟩ := rotation (e.upper k k) (e.row k)
  -- column `k` from the diagonal down against row `k` from the diagonal on
  have hcolumn {l i : Fin p} (hl : l = k) (hi : k ≤ i)
      (heq : w.buffer (i.castLE hm) (l.castLE hn) = e.upper l i) :
      c * w.buffer (i.castLE hm) (l.castLE hn) + s * w.row i =
        c * e.upper k i + s * e.row i := by
    rw [heq, hl, h.row_eq i (hk.trans hi)]
  refine { kept := ?_, below := ?_, opened := ?_, restored := ?_, moved := ?_, isUpper := ?_
           row_eq := ?_, rhs_eq := ?_, rest_eq := ?_ }
  · intro i l hil
    simp only [Mat.ofFn_apply]
    rw [dif_neg fun hz => hil ⟨hz.1.le.trans hz.2.1, hz.2.2⟩]
    exact h.kept i l hil
  · intro l i hli
    simp only [Mat.ofFn_apply]
    by_cases hl : l = k
    · have hi : k ≤ i := hl ▸ hli.le
      rw [dif_pos ⟨congrArg Fin.val hl, hi, i.isLt⟩, if_pos ⟨hl, hi⟩]
      exact hcolumn hl hi (h.below l i hli)
    · rw [dif_neg fun hz => hl (Fin.ext hz.1), if_neg fun hz => hl hz.1]
      exact h.below l i hli
  · intro l hl
    simp only [Mat.ofFn_apply]
    by_cases hlk : l = k
    · rw [dif_pos ⟨congrArg Fin.val hlk, hlk.ge, l.isLt⟩, if_pos ⟨hlk, hlk.ge⟩]
      exact hcolumn hlk hlk.ge (h.opened l hl)
    · rw [dif_neg fun hz => hlk (Fin.ext hz.1), if_neg fun hz => hlk hz.1]
      exact h.opened l hl
  · intro l hl
    simp only [Mat.ofFn_apply]
    have hlk : l.val ≠ k.val := (Nat.lt_of_lt_of_le hl hk).ne
    rw [dif_neg fun hz => hlk hz.1]
    exact h.restored l hl
  · intro l hl
    have hlk : l < k := Nat.lt_of_lt_of_le hl hk
    simp only [Vec.ofFn_apply, Mat.ofFn_apply]
    rw [if_neg hlk.not_gt, if_neg fun hz => hlk.ne hz.1]
    exact h.moved l hl
  · intro l i hil
    simp only [Mat.ofFn_apply]
    rw [if_neg]
    · exact h.isUpper l i hil
    · rintro ⟨rfl, hle⟩
      exact hil.not_ge hle
  · intro i hi
    simp only [Vec.ofFn_apply]
    split_ifs with hki
    · rw [h.below k i hki, h.row_eq i hi]
    · exact h.row_eq i hi
  · rw [h.rhs_eq, h.rest_eq]
  · rw [h.rhs_eq, h.rest_eq]

/-- **A row of `D`** rotated in, by induction on its rotations: none is against a row that is
done. -/
theorem Holds.absorb {s : System α p} {j : Fin p} (h : Holds hm hn d j w s.upper)
    (hrhs : w.rhs = s.rhs) (entry : α) :
    Holds hm hn d j (w.absorb hm hn j entry) (s.absorb j entry).upper ∧
      (w.absorb hm hn j entry).rhs = (s.absorb j entry).rhs := by
  unfold Workspace.absorb System.absorb
  split_ifs with h0
  · exact ⟨h, hrhs⟩
  set e : Elimination α p := ⟨s.upper, s.rhs, Vec.ofFn fun i => if i = j then entry else 0, 0⟩
  have hload : Follows hm hn d j (w.loadRow j entry) e := by
    refine { h with moved := fun k hk => ?_, row_eq := fun k hk => ?_, rhs_eq := hrhs
                    rest_eq := rfl }
    · rw [loadRow, Vec.ofFn_apply]
      exact (if_pos hk).trans (h.moved k hk)
    · simp only [loadRow, e, Vec.ofFn_apply]
      exact if_neg (not_lt.mpr hk)
  have hall := List.foldl_rel (l := (List.finRange p).filter fun k => decide (j ≤ k))
    (f := Workspace.rotate hm hn) (g := Elimination.rotate) hload fun k hk _ _ hf =>
      hf.rotate (of_decide_eq_true (List.mem_filter.mp hk).2)
  exact ⟨hall.toHolds, hall.rhs_eq⟩

/-- **The diagonal entry restored**: that of `S` has moved to a vector of its own. -/
theorem Holds.finish {S : Mat α p p} {j : Fin p} (h : Holds hm hn d j w S) :
    Holds hm hn d (j + 1) (w.finish hm hn j (d.diagonal (j.castLE hn))) S := by
  have hbuffer (i : Fin m) (k : Fin n) :
      (w.finish hm hn j (d.diagonal (j.castLE hn))).buffer i k =
        if i.val = j.val ∧ k.val = j.val then d.diagonal (j.castLE hn) else w.buffer i k :=
    Mat.ofFn_apply _ i k
  have hrow (k : Fin p) : (w.finish hm hn j (d.diagonal (j.castLE hn))).row k =
      if k = j then w.buffer (j.castLE hm) (j.castLE hn) else w.row k := Vec.set_apply _ _ _ _
  refine { kept := ?_, below := ?_, opened := ?_, restored := ?_, moved := ?_
           isUpper := h.isUpper }
  · intro i k hik
    rw [hbuffer, if_neg fun hz => hik (by omega)]
    exact h.kept i k hik
  · intro k i hki
    rw [hbuffer, if_neg fun hz => hki.ne (Fin.ext (hz.2.trans hz.1.symm))]
    exact h.below k i hki
  · intro k hk
    rw [hbuffer, if_neg fun hz => absurd hz.1 (Nat.ne_of_gt hk)]
    exact h.opened k (Nat.le_of_succ_le hk)
  · intro k hk
    rw [hbuffer]
    split_ifs with hkj
    · obtain rfl : k = j := Fin.ext hkj.1
      rfl
    · exact h.restored k (lt_of_le_of_ne (Nat.le_of_lt_succ hk) fun e => hkj ⟨e, e⟩)
  · intro k hk
    rw [hrow]
    split_ifs with hkj
    · rw [hkj]
      exact h.opened j le_rfl
    · exact h.moved k (lt_of_le_of_ne (Nat.le_of_lt_succ hk) (Fin.val_ne_of_ne hkj))

/-- When all rows are done, the triangle stands below the diagonal of the buffer, and the rest of it
is that of `d`, with its own diagonal. -/
theorem Holds.withScratch_eq {S : Mat α p p} (h : Holds hm hn d p w S) :
    { d with buffer := w.buffer } = d.withScratch S := by
  unfold Decomposition.withScratch
  congr 1
  refine Mat.ext fun i k => ?_
  rw [Mat.ofFn_apply]
  split_ifs with hp hki hik
  · exact h.below ⟨k, hp.2⟩ ⟨i, hp.1⟩ hki
  · have hrestored := h.restored ⟨k, hp.2⟩ hp.2
    rwa [show Fin.castLE hm ⟨k.val, hp.2⟩ = i from Fin.ext hik.symm] at hrestored
  · exact h.kept i k fun hz => by omega
  · exact h.kept i k fun hz => hp ⟨hz.2, Nat.lt_of_le_of_lt hz.1 hz.2⟩

theorem Holds.row_eq_diagonalOf {S : Mat α p p} (h : Holds hm hn d p w S) :
    w.row = diagonalOf S :=
  Vec.ext fun k => by rw [h.moved k k.isLt, diagonalOf, Vec.ofFn_apply]

end Damped.Workspace

namespace Decomposition

open Damped

variable {d : Decomposition α m n}

/-- The first `j` rows of the triangle stand copied below the diagonal, and the rest of the buffer
is that of `d`. -/
structure Copied (hm : p ≤ m) (hn : p ≤ n) (d : Decomposition α m n) (j : Nat) (B : Mat α m n) :
    Prop where
  below : ∀ k i : Fin p, k < i → k.val < j →
    B (i.castLE hm) (k.castLE hn) = d.buffer (k.castLE hm) (i.castLE hn)
  kept : ∀ i k, ¬ (k.val < i.val ∧ i.val < p) → B i k = d.buffer i k

omit [Scalar α] in
/-- **One row copied**: it is read above the diagonal, where nothing has been written. -/
theorem Copied.copyRow {B : Mat α m n} {j : Fin p} (h : Copied hm hn d j B) :
    Copied hm hn d (j + 1) ({ d with buffer := B }.copyRow hm hn j).buffer := by
  refine ⟨fun k i hki hk => ?_, fun i k hik => ?_⟩
  · rw [Decomposition.copyRow, Mat.ofFn_apply]
    split_ifs with hz
    · obtain rfl : k = j := Fin.ext hz.1
      exact h.kept _ _ fun hz => hki.not_gt hz.1
    · refine h.below k i hki (lt_of_le_of_ne (Nat.le_of_lt_succ hk) fun e => hz ?_)
      exact ⟨e, e ▸ hki, i.isLt⟩
  · have hout : ¬ (k.val = j.val ∧ j.val < i.val ∧ i.val < p) := by omega
    rw [Decomposition.copyRow, Mat.ofFn_apply, dif_neg hout]
    exact h.kept i k hik

omit [Scalar α] in
/-- **The triangle copied below the diagonal**, by induction on its rows. -/
theorem copyRows_spec (d : Decomposition α m n) (hm : p ≤ m) (hn : p ≤ n) :
    ∃ B, d.copyRows hm hn = { d with buffer := B } ∧ Copied hm hn d p B := by
  refine foldl_finRange (I := fun j e => ∃ B, e = { d with buffer := B } ∧ Copied hm hn d j B) ?_ ?_
  · exact ⟨d.buffer, rfl, fun _ _ _ hk => absurd hk (Nat.not_lt_zero _), fun _ _ _ => rfl⟩
  · rintro j _ ⟨B, rfl, h⟩
    exact ⟨_, rfl, h.copyRow⟩

theorem block_of_le (d : Decomposition α m n) {k i : Fin p} (hki : k ≤ i) :
    d.block hm hn k i = d.buffer (k.castLE hm) (i.castLE hn) := by
  rw [block, Mat.ofFn_apply, if_pos hki]

/-- **All rows of `D`**, by induction on them: with the triangle copied below the diagonal, the
elimination in the buffer is that of the leading block. -/
theorem eliminate_holds {B : Mat α m n} (hB : Copied hm hn d p B) (rhs D : Vec α p) :
    let w := { d with buffer := B }.eliminate hm hn rhs D
    let s := System.absorbAll ⟨d.block hm hn, rhs⟩ D
    w.Holds hm hn d p s.upper ∧ w.rhs = s.rhs := by
  refine foldl_finRange₂ (I := fun j (w : Workspace α m n p) (s : System α p) =>
    w.Holds hm hn d j s.upper ∧ w.rhs = s.rhs) ⟨?_, rfl⟩ fun j w s h => ?_
  · exact {
      kept := fun i k hik => hB.kept i k fun hz => hik ⟨hz.1.le, hz.2⟩
      below := fun k i hki => (hB.below k i hki k.isLt).trans (block_of_le d hki.le).symm
      opened := fun k _ =>
        (hB.kept _ _ fun hz => lt_irrefl _ hz.1).trans (block_of_le d le_rfl).symm
      restored := fun _ hk => absurd hk (Nat.not_lt_zero _)
      moved := fun _ hk => absurd hk (Nat.not_lt_zero _)
      isUpper := fun k i hik => by rw [block, Mat.ofFn_apply, if_neg hik.not_ge] }
  · obtain ⟨ha, hrhs⟩ := h.1.absorb h.2 (D j)
    exact ⟨ha.finish, hrhs⟩

omit [Scalar α] in
theorem scratch_withScratch (d : Decomposition α m n) (S : Mat α p p) {k i : Fin p} (hki : k < i) :
    (d.withScratch S).scratch hm hn k i = S k i := by
  rw [scratch, Mat.ofFn_apply, withScratch, Mat.ofFn_apply, dif_pos ⟨i.isLt, k.isLt⟩]
  exact if_pos hki

theorem triangleOf_withScratch {S : Mat α p p} (hS : ∀ k i : Fin p, i < k → S k i = 0) :
    (d.withScratch S).triangleOf hm hn (diagonalOf S) = S := by
  refine Mat.ext fun k i => ?_
  rw [triangleOf, Mat.ofFn_apply]
  split_ifs with hki heq
  · exact scratch_withScratch d S hki
  · rw [diagonalOf, Vec.ofFn_apply, heq]
  · exact (hS k i (lt_of_le_of_ne (not_lt.mp hki) (Ne.symm heq))).symm

/-- **The damped direction**: the solution of the damped system of the leading block, laid out by
columns, and the triangle below the diagonal of the buffer. -/
theorem direction_eq (d : Decomposition α m n) (hm : p ≤ m) (hn : p ≤ n) (rhs : Vec α p)
    (D : Vec α n) :
    d.direction hm hn rhs D =
      let s := Damped.solve (d.block hm hn) rhs (d.gather hn D)
      ⟨d.scatter s.direction, s, d.withScratch s.upper⟩ := by
  obtain ⟨B, hd, hB⟩ := d.copyRows_spec hm hn
  obtain ⟨h, hrhs⟩ := eliminate_holds hB rhs (d.gather hn D)
  have hgather : gather { d with buffer := B } hn D = d.gather hn D := rfl
  unfold direction directionBelow
  rw [hd, hgather]
  simp only [h.withScratch_eq, h.row_eq_diagonalOf, hrhs, triangleOf_withScratch h.isUpper]
  rw [Triangular.solveUpper_congr fun k i hki => scratch_withScratch d _ hki]
  rfl

section Parts

variable (d : Decomposition α m n) (hm : p ≤ m) (hn : p ≤ n) (rhs : Vec α p) (D : Vec α n)

theorem direction_direction : (d.direction hm hn rhs D).direction =
    d.scatter (Damped.solve (d.block hm hn) rhs (d.gather hn D)).direction := by rw [direction_eq]

theorem direction_solution : (d.direction hm hn rhs D).solution =
    Damped.solve (d.block hm hn) rhs (d.gather hn D) := by rw [direction_eq]

theorem direction_decomposition : (d.direction hm hn rhs D).decomposition =
    d.withScratch (Damped.solve (d.block hm hn) rhs (d.gather hn D)).upper := by rw [direction_eq]

end Parts

/-! ## What is read of the buffer -/

/-- The triangle that a damped direction left is read above its diagonal. -/
theorem solveTransposedByColumns_scratch (d : Decomposition α m n) (hm : p ≤ m) (hn : p ≤ n)
    (rhs : Vec α p) (D : Vec α n) (t b : Vec α p) :
    Triangular.solveTransposedByColumns
        ((d.direction hm hn rhs D).decomposition.scratch hm hn) t b =
      Triangular.solveTransposedByColumns (d.direction hm hn rhs D).solution.upper t b := by
  rw [direction_solution, direction_decomposition]
  exact Triangular.solveTransposedByColumns_congr fun k i hki => scratch_withScratch d _ hki

theorem square_of_le (d : Decomposition α m n) {i k : Fin p} (hik : i ≤ k) :
    d.square hm hn i k = d.block hm hn i k := by
  rw [square, Mat.ofFn_apply, block_of_le d hik]

theorem solveTransposed_square (d : Decomposition α m n) (hm : p ≤ m) (hn : p ≤ n)
    (t b : Vec α p) :
    Triangular.solveTransposed (d.square hm hn) t b =
      Triangular.solveTransposed (d.block hm hn) t b :=
  Triangular.solveTransposed_congr fun _ _ hik => square_of_le d hik.le

theorem gradient_eq (d : Decomposition α m n) (hm : p ≤ m) (hn : p ≤ n) (qy : Vec α m) :
    d.gradient hm hn qy =
      Vec.ofFn fun k => sumOver (· ≤ k) fun i => d.block hm hn i k * qy (i.castLE hm) := by
  unfold gradient
  refine congrArg Vec.ofFn (funext fun k => sumOver_congr fun i hik => ?_)
  rw [square_of_le d hik]

end Decomposition

theorem LevenbergMarquardt.Search.linearModel_eq (t : LevenbergMarquardt.Proposal α m n) :
    linearModel t = Vec.ofFn fun i => sumOver (i ≤ ·) fun j =>
      t.decomposition.block (Nat.min_le_left m n) (Nat.min_le_right m n) i j *
        t.decomposition.gather (Nat.min_le_right m n) t.step j := by
  unfold linearModel
  refine congrArg Vec.ofFn (funext fun i => sumOver_congr fun j hij => ?_)
  rw [Decomposition.square_of_le _ hij]

end LeastSquares
