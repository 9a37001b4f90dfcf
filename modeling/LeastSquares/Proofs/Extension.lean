import LeastSquares.Proofs.Bracket
import LeastSquares.Proofs.Extended

/-!
# Arithmetics that contain the real numbers

`Extends ι` says that an arithmetic contains the real numbers by `ι` and computes with them as exact
arithmetic does. Nothing is said of a quotient by zero and of the root of a negative number: they
may be anything. So if what is computed from real numbers is the same in every such arithmetic, no
quotient by zero and no root of a negative number went into it. Each lemma here says so of one
operation of the library, `f (x.map ι) = (f x).map ι`, under what it needs to know of its divisors.

Results:
* `map_solveUpper`, `map_solveTransposed`: substitution with a diagonal that is not zero;
* `map_solve`, `map_direction`: damped directions, for every triangle and every diagonal;
* `map_ofJacobian`: decompositions, for every matrix and a threshold that is not negative.
-/

namespace LeastSquares

variable {β : Type} [Scalar β] {m n p q : Nat}

/-- The arithmetic contains the real numbers by `ι`. -/
structure Extends (ι : ℝ → β) : Prop where
  zero : ι 0 = 0
  one : ι 1 = 1
  natCast (k : Nat) : ι k = k
  scientific (mantissa : Nat) (negative : Bool) (exponent : Nat) :
    ι (OfScientific.ofScientific mantissa negative exponent) =
      OfScientific.ofScientific mantissa negative exponent
  neg (a : ℝ) : ι (-a) = -ι a
  add (a b : ℝ) : ι (a + b) = ι a + ι b
  sub (a b : ℝ) : ι (a - b) = ι a - ι b
  mul (a b : ℝ) : ι (a * b) = ι a * ι b
  div (a : ℝ) {b : ℝ} (hb : b ≠ 0) : ι (a / b) = ι a / ι b
  sqrt {a : ℝ} (ha : 0 ≤ a) : ι (Scalar.sqrt a) = Scalar.sqrt (ι a)
  abs (a : ℝ) : ι (Scalar.abs a) = Scalar.abs (ι a)
  finite (a : ℝ) : Scalar.isFinite (ι a) = true
  lt_iff (a b : ℝ) : ι a < ι b ↔ a < b
  le_iff (a b : ℝ) : ι a ≤ ι b ↔ a ≤ b
  beq_eq (a b : ℝ) : (ι a == ι b) = (a == b)
  /-- A length of which a tenth is below a real number is a real number. -/
  length {k : Nat} (v : Vec β k) (x : ℝ) : 0.1 * norm v < ι x → ∃ c, norm v = ι c

/-- Exact arithmetic with infinities is such: its quotients by zero and its roots of negative
numbers are not real. -/
theorem Extended.extends_finite : Extends Extended.finite where
  zero := rfl
  one := rfl
  natCast _ := rfl
  scientific _ _ _ := rfl
  neg _ := rfl
  add _ _ := rfl
  sub a b := congrArg finite (sub_eq_add_neg a b)
  mul _ _ := rfl
  div _ _ hb := (if_pos hb).symm
  sqrt ha := (if_neg (not_lt.mpr ha)).symm
  abs _ := rfl
  finite _ := rfl
  lt_iff _ _ := Iff.rfl
  le_iff _ _ := Iff.rfl
  beq_eq _ _ := rfl
  length v _ := (signRule.norm v).exists_of_tenth

/-- So is exact arithmetic itself. -/
theorem Exact.extends_id : Extends (id : ℝ → ℝ) where
  zero := rfl
  one := rfl
  natCast _ := rfl
  scientific _ _ _ := rfl
  neg _ := rfl
  add _ _ := rfl
  sub _ _ := rfl
  mul _ _ := rfl
  div _ _ _ := rfl
  sqrt _ := rfl
  abs _ := rfl
  finite _ := rfl
  lt_iff _ _ := Iff.rfl
  le_iff _ _ := Iff.rfl
  beq_eq _ _ := rfl
  length v _ _ := ⟨norm v, rfl⟩

/-! ## Data through a function -/

section Maps

variable {α γ : Type} (f : α → γ)

omit [Scalar β]

theorem Vec.map_ofFn (g : Fin n → α) : (Vec.ofFn g).map f = Vec.ofFn fun i => f (g i) :=
  Vec.ext fun i => by rw [Vec.map_apply, Vec.ofFn_apply, Vec.ofFn_apply]

theorem Mat.map_ofFn (g : Fin m → Fin n → α) :
    (Mat.ofFn g).map f = Mat.ofFn fun i j => f (g i j) :=
  Mat.ext fun i j => by rw [Mat.map_apply, Mat.ofFn_apply, Mat.ofFn_apply]

theorem Vec.map_id (v : Vec α n) : v.map id = v := Vec.ext fun i => Vec.map_apply id v i

theorem Mat.map_id (A : Mat α m n) : A.map id = A := Mat.ext fun i j => Mat.map_apply id A i j

theorem Vec.map_take (v : Vec α n) (h : p ≤ n) : (v.map f).take h = (v.take h).map f :=
  Vec.ext fun i => by rw [Vec.map_apply, Vec.take_apply, Vec.take_apply, Vec.map_apply]

theorem Vec.map_set (v : Vec α n) (i : Fin n) (x : α) : (v.map f).set i (f x) = (v.set i x).map f :=
  Vec.ext fun j => by
    rw [Vec.map_apply, Vec.set_apply, Vec.set_apply, Vec.map_apply, apply_ite f]

theorem Vec.map_replicate (x : α) : (Vec.replicate n x).map f = Vec.replicate n (f x) :=
  Vec.map_ofFn f _

/-- A decomposition with all of its numbers through a function. -/
def Decomposition.map (d : Decomposition α m n) : Decomposition γ m n where
  buffer := d.buffer.map f
  order := d.order
  diagonal := d.diagonal.map f
  beta := d.beta.map f
  columnNorm := d.columnNorm.map f
  rank := d.rank

namespace Damped

/-- A system with all of its numbers through a function. -/
def System.map (s : System α p) : System γ p := ⟨s.upper.map f, s.rhs.map f⟩

/-- An elimination with all of its numbers through a function. -/
def Elimination.map (e : Elimination α p) : Elimination γ p :=
  ⟨e.upper.map f, e.rhs.map f, e.row.map f, f e.rest⟩

/-- A solution with all of its numbers through a function. -/
def Solution.map (s : Solution α p) : Solution γ p := ⟨s.direction.map f, s.upper.map f⟩

/-- A search with all of its numbers through a function. -/
def Newton.map (s : Newton α) : Newton γ := ⟨f s.lambda, f s.lower, f s.upper, f s.excess⟩

theorem map_diagonalOf (A : Mat α p p) : diagonalOf (A.map f) = (diagonalOf A).map f := by
  unfold diagonalOf
  simp only [Vec.map_ofFn, Mat.map_apply]

theorem map_diagonal (s : Solution α p) : (s.map f).diagonal = s.diagonal.map f :=
  map_diagonalOf f s.upper

end Damped

namespace Decomposition

/-- A direction with all of its numbers through a function. -/
def Direction.map (r : Direction α m n p) : Direction γ m n p :=
  ⟨r.direction.map f, r.solution.map f, r.decomposition.map f⟩

/-- A parameter with all of its numbers through a function. -/
def Parameter.map (r : Parameter α m n) : Parameter γ m n :=
  ⟨f r.lambda, r.direction.map f, r.decomposition.map f, r.passes.map (Damped.Newton.map f)⟩

variable (d : Decomposition α m n)

theorem map_gather (hn : p ≤ n) (v : Vec α n) :
    (d.map f).gather hn (v.map f) = (d.gather hn v).map f := by
  simp only [gather, map, Vec.map_ofFn, Vec.map_apply]

theorem map_toColumns (v : Vec α n) : (d.map f).toColumns (v.map f) = (d.toColumns v).map f := by
  simp only [toColumns, Vec.map_ofFn, Vec.map_apply]
  rfl

theorem map_withScratch (S : Mat α p p) :
    (d.map f).withScratch (S.map f) = (d.withScratch S).map f := by
  simp only [withScratch, map, Mat.map_ofFn, Mat.map_apply, Vec.map_apply, apply_dite f,
    apply_ite f]

theorem map_swap (k j : Fin n) : (d.map f).swap k j = (d.swap k j).map f := by
  unfold swap map
  simp only [Mat.map_ofFn, Mat.map_apply]

theorem map_writeDiagonal (p : Nat) :
    (d.map f).writeDiagonal p = (d.writeDiagonal p).map f := by
  simp only [writeDiagonal, map, Mat.map_ofFn, Mat.map_apply, Vec.map_apply, apply_ite f]

end Decomposition

end Maps

namespace Extends

variable {ι : ℝ → β} (h : Extends ι)

include h

/-! ## Numbers -/

theorem eq_iff (a b : ℝ) : ι a = ι b ↔ a = b := by
  refine ⟨fun he => le_antisymm ?_ ?_, congrArg ι⟩
  · rw [← h.le_iff, he, h.le_iff]
  · rw [← h.le_iff, ← he, h.le_iff]

theorem beq_zero (a : ℝ) : (ι a == 0) = (a == 0) := by rw [← h.zero, h.beq_eq]

theorem larger (a b : ℝ) : Scalar.larger (ι a) (ι b) = ι (Scalar.larger a b) := by
  unfold Scalar.larger
  simp only [h.lt_iff, apply_ite ι]

theorem smaller (a b : ℝ) : Scalar.smaller (ι a) (ι b) = ι (Scalar.smaller a b) := by
  unfold Scalar.smaller
  simp only [h.lt_iff, apply_ite ι]

theorem isUndefined (a : ℝ) : Scalar.isUndefined (ι a) = false := by
  unfold Scalar.isUndefined
  rw [h.beq_eq, (Exact.beq_iff a a).mpr rfl]
  rfl

theorem largest (a b : ℝ) : Scalar.largest (ι a) (ι b) = ι (Scalar.largest a b) := by
  unfold Scalar.largest
  rw [h.isUndefined, h.isUndefined, Exact.isUndefined_eq, Exact.isUndefined_eq]
  exact h.larger a b

theorem one_div_two_pow (k : Nat) :
    1 / ((Nat.pow 2 k : Nat) : β) = ι (1 / (Nat.pow 2 k : Nat)) := by
  have hne : ((Nat.pow 2 k : Nat) : ℝ) ≠ 0 := Nat.cast_ne_zero.mpr (Nat.pow_pos Nat.two_pos).ne'
  rw [h.div _ hne, h.one, h.natCast]

theorem leastNormal : (Scalar.leastNormal : β) = ι Scalar.leastNormal := by
  unfold Scalar.leastNormal
  -- the exponent as a variable keeps the power from being computed
  generalize 1022 = k
  exact h.one_div_two_pow k

theorem epsilon : (Scalar.epsilon : β) = ι Scalar.epsilon := h.one_div_two_pow 52

/-! ## Sums -/

theorem sum_map (f : Fin n → ℝ) : sum (fun i => ι (f i)) = ι (sum f) := by
  unfold sum
  rw [Fin.foldl_eq_finRange_foldl, Fin.foldl_eq_finRange_foldl, ← h.zero]
  exact List.foldl_hom ι fun a i => (h.add a (f i)).symm

theorem sumOver_map (c : Fin n → Prop) [DecidablePred c] (f : Fin n → ℝ) :
    sumOver c (fun i => ι (f i)) = ι (sumOver c f) := by
  unfold sumOver
  rw [Fin.foldl_eq_finRange_foldl, Fin.foldl_eq_finRange_foldl, ← h.zero]
  refine List.foldl_hom ι fun a i => ?_
  rw [← h.add, apply_ite ι]

theorem lessUpOver_map (c : Fin n → Prop) [DecidablePred c] (b : ℝ) (f : Fin n → ℝ) :
    lessUpOver c (ι b) (fun i => ι (f i)) = ι (lessUpOver c b f) := by
  unfold lessUpOver
  refine List.foldl_hom ι fun a i => ?_
  rw [← h.sub, apply_ite ι]

theorem lessDownOver_map (c : Fin n → Prop) [DecidablePred c] (b : ℝ) (f : Fin n → ℝ) :
    lessDownOver c (ι b) (fun i => ι (f i)) = ι (lessDownOver c b f) := by
  unfold lessDownOver
  refine List.foldr_hom ι fun i a => ?_
  rw [← h.sub, apply_ite ι]

theorem dot_map (u v : Vec ℝ n) : dot (u.map ι) (v.map ι) = ι (dot u v) := by
  unfold dot
  simp only [Vec.map_apply, ← h.mul]
  exact h.sum_map _

theorem norm_map (v : Vec ℝ n) : norm (v.map ι) = ι (norm v) := by
  unfold norm
  rw [h.dot_map, h.sqrt]
  rw [Exact.dot_eq]
  exact Exact.dotProduct_self_nonneg v.get

theorem map_scaled (d v : Vec ℝ p) :
    Damped.scaled (d.map ι) (v.map ι) = (Damped.scaled d v).map ι := by
  unfold Damped.scaled
  simp only [Vec.map_apply, ← h.mul, Vec.map_ofFn]

/-! ## Substitution -/

theorem map_solveUpper {T : Mat ℝ n n} {d b : Vec ℝ n} (hd : ∀ j : Fin n, j.val < q → d j ≠ 0) :
    Triangular.solveUpper q (T.map ι) (d.map ι) (b.map ι) =
      (Triangular.solveUpper q T d b).map ι := by
  unfold Triangular.solveUpper
  rw [← h.zero, ← Vec.map_replicate]
  refine List.foldr_hom (Vec.map ι) fun j x => ?_
  split_ifs with hj
  · simp only [Vec.map_apply, Mat.map_apply, ← h.mul, h.sumOver_map, ← h.sub, ← h.div _ (hd j hj)]
    exact Vec.map_set ι x j _
  · exact Vec.map_set ι x j _

/-- By columns. -/
theorem map_solveUpperByColumns {T : Mat ℝ n n} {d b : Vec ℝ n}
    (hd : ∀ j : Fin n, j.val < q → d j ≠ 0) :
    Triangular.solveUpperByColumns q (T.map ι) (d.map ι) (b.map ι) =
      (Triangular.solveUpperByColumns q T d b).map ι := by
  unfold Triangular.solveUpperByColumns
  rw [← h.zero, ← Vec.map_replicate]
  refine List.foldr_hom (Vec.map ι) fun j x => ?_
  split_ifs with hj
  · simp only [Vec.map_apply, Mat.map_apply, ← h.mul, h.lessDownOver_map, ← h.div _ (hd j hj)]
    exact Vec.map_set ι x j _
  · exact Vec.map_set ι x j _

theorem map_solveTransposed {T : Mat ℝ n n} {d b : Vec ℝ n} (hd : ∀ j, d j ≠ 0) :
    Triangular.solveTransposed (T.map ι) (d.map ι) (b.map ι) =
      (Triangular.solveTransposed T d b).map ι := by
  unfold Triangular.solveTransposed
  rw [← h.zero, ← Vec.map_replicate]
  refine List.foldl_hom (Vec.map ι) fun x j => ?_
  simp only [Vec.map_apply, Mat.map_apply, ← h.mul, h.sumOver_map, ← h.sub, ← h.div _ (hd j)]
  exact Vec.map_set ι x j _

theorem map_solveTransposedByColumns {T : Mat ℝ n n} {d b : Vec ℝ n} (hd : ∀ j, d j ≠ 0) :
    Triangular.solveTransposedByColumns (T.map ι) (d.map ι) (b.map ι) =
      (Triangular.solveTransposedByColumns T d b).map ι := by
  unfold Triangular.solveTransposedByColumns
  rw [← h.zero, ← Vec.map_replicate]
  refine List.foldl_hom (Vec.map ι) fun x j => ?_
  simp only [Vec.map_apply, Mat.map_apply, ← h.mul, h.lessUpOver_map, ← h.div _ (hd j)]
  exact Vec.map_set ι x j _

/-! ## Damped directions -/

/-- A rotation for an entry that is not zero divides by the larger of two numbers and by a root of
at least one. -/
theorem map_rotation (r : ℝ) {d : ℝ} (hd : d ≠ 0) :
    Damped.rotation (ι r) (ι d) = (ι (Damped.rotation r d).1, ι (Damped.rotation r d).2) := by
  have root (x : ℝ) : 1 / Scalar.sqrt (1 + ι (x * x)) = ι (1 / Scalar.sqrt (1 + x * x)) := by
    have hpos : 0 < 1 + x * x := add_pos_of_pos_of_nonneg one_pos (mul_self_nonneg x)
    have hne : Scalar.sqrt (1 + x * x) ≠ 0 := (Real.sqrt_pos.mpr hpos).ne'
    rw [h.div _ hne, h.sqrt hpos.le, h.add, h.one]
  unfold Damped.rotation
  simp only [← h.abs, h.lt_iff]
  split_ifs with hlt
  · simp only [← h.div _ hd, root, ← h.mul]
  · have hr : r ≠ 0 := by
      rintro rfl
      exact hlt (by simpa [Scalar.abs] using hd)
    simp only [← h.div _ hr, root, ← h.mul]

theorem map_rotate (e : Damped.Elimination ℝ p) (k : Fin p) :
    (e.map ι).rotate k = (e.rotate k).map ι := by
  unfold Damped.Elimination.rotate
  change (if (e.row.map ι) k == 0 then _ else _) = _
  rw [Vec.map_apply, h.beq_zero]
  split_ifs with hk
  · rfl
  have hd : e.row k ≠ 0 := fun h0 => hk ((Exact.beq_zero_iff _).mpr h0)
  simp only [Damped.Elimination.map, Mat.map_apply, Vec.map_apply, h.map_rotation _ hd,
    Mat.map_ofFn, Vec.map_ofFn, ← Vec.map_set, apply_ite ι, h.add, h.mul, h.neg]

theorem map_absorb (s : Damped.System ℝ p) (j : Fin p) (x : ℝ) :
    (s.map ι).absorb j (ι x) = (s.absorb j x).map ι := by
  unfold Damped.System.absorb
  rw [h.beq_zero]
  split_ifs
  · rfl
  have hstart : (⟨s.upper.map ι, s.rhs.map ι, Vec.ofFn fun i => if i = j then ι x else 0, 0⟩ :
      Damped.Elimination β p) =
      Damped.Elimination.map ι ⟨s.upper, s.rhs, Vec.ofFn fun i => if i = j then x else 0, 0⟩ := by
    simp only [Damped.Elimination.map, Vec.map_ofFn, apply_ite ι, h.zero]
  have hfold (e : Damped.Elimination ℝ p) (l : List (Fin p)) :
      l.foldl Damped.Elimination.rotate (e.map ι) =
        (l.foldl Damped.Elimination.rotate e).map ι :=
    List.foldl_hom (Damped.Elimination.map ι) h.map_rotate
  simp only [Damped.System.map, hstart, hfold]
  rfl

theorem map_absorbAll (s : Damped.System ℝ p) (d : Vec ℝ p) :
    (s.map ι).absorbAll (d.map ι) = (s.absorbAll d).map ι := by
  unfold Damped.System.absorbAll
  refine List.foldl_hom (Damped.System.map ι) fun s j => ?_
  rw [Vec.map_apply, h.map_absorb]

theorem firstZero_map (v : Vec ℝ p) : Damped.firstZero (v.map ι) = Damped.firstZero v := by
  unfold Damped.firstZero
  simp only [Vec.map_apply, h.beq_zero]

/-- **A damped solve** divides by nothing but entries before the first zero on its diagonal. -/
theorem map_solve (R : Mat ℝ p p) (b d : Vec ℝ p) :
    Damped.solve (R.map ι) (b.map ι) (d.map ι) = (Damped.solve R b d).map ι := by
  unfold Damped.solve Damped.Solution.map
  have hs : (⟨R.map ι, b.map ι⟩ : Damped.System β p) = Damped.System.map ι ⟨R, b⟩ := rfl
  simp only [hs, h.map_absorbAll]
  simp only [Damped.System.map, Damped.map_diagonalOf, h.firstZero_map]
  rw [h.map_solveUpper (Damped.firstZero_spec _).2.1]

section Decomposition

variable (d : Decomposition ℝ m n) (hm : p ≤ m) (hn : p ≤ n)

theorem map_block : (d.map ι).block hm hn = (d.block hm hn).map ι := by
  simp only [Decomposition.block, Decomposition.map, Mat.map_ofFn, Mat.map_apply, apply_ite ι,
    h.zero]

theorem map_scatter (v : Vec ℝ p) : (d.map ι).scatter (v.map ι) = (d.scatter v).map ι := by
  simp only [Decomposition.scatter, Vec.map_ofFn, Vec.map_apply, apply_dite ι, h.zero]
  rfl

/-- **A damped direction**. -/
theorem map_direction (b : Vec ℝ p) (D : Vec ℝ n) :
    (d.map ι).direction hm hn (b.map ι) (D.map ι) = (d.direction hm hn b D).map ι := by
  rw [Decomposition.direction_eq, Decomposition.direction_eq]
  unfold Decomposition.Direction.map
  simp only [h.map_block, Decomposition.map_gather, h.map_solve]
  simp only [Damped.Solution.map, h.map_scatter, Decomposition.map_withScratch]

/-- The undamped direction divides by the diagonal of `R` up to the rank. -/
theorem map_undamped (hd : ∀ k : Fin n, k.val < d.rank → d.diagonal k ≠ 0) (qy : Vec ℝ m) :
    (d.map ι).undamped (qy.map ι) = (d.undamped qy).map ι := by
  unfold Decomposition.undamped
  rw [← h.map_solveUpperByColumns hd]
  simp only [Decomposition.map, Mat.map_ofFn, Vec.map_ofFn, Mat.map_apply, Vec.map_apply,
    apply_dite ι, h.zero]

theorem map_gradient (qy : Vec ℝ m) :
    (d.map ι).gradient hm hn (qy.map ι) = (d.gradient hm hn qy).map ι := by
  rw [Decomposition.gradient_eq, Decomposition.gradient_eq]
  simp only [h.map_block, Mat.map_apply, Vec.map_apply, ← h.mul, h.sumOver_map, Vec.map_ofFn]

end Decomposition

/-! ## Decompositions -/

theorem map_start (J : Mat ℝ m n) :
    Decomposition.start (J.map ι) = (Decomposition.start J).map ι := by
  have hroot (j : Fin n) : Scalar.sqrt (ι (sum fun i => -J i j * -J i j)) =
      ι (Scalar.sqrt (sum fun i => -J i j * -J i j)) := by
    refine (h.sqrt ?_).symm
    rw [Exact.sum_eq]
    exact Finset.sum_nonneg fun i _ => mul_self_nonneg _
  unfold Decomposition.start Decomposition.map
  simp only [Mat.map_apply, ← h.neg, ← h.mul, h.sum_map, hroot, Vec.map_ofFn, Vec.map_replicate,
    ← h.zero]
  congr 1
  exact Mat.ext fun i j => by simp only [Mat.map_apply, h.neg]

section Step

variable (d : Decomposition ℝ m n)

theorem tailSquare_map (k : Nat) (j : Fin n) :
    (d.map ι).tailSquare k j = ι (d.tailSquare k j) := by
  unfold Decomposition.tailSquare
  simp only [Decomposition.map, Mat.map_apply, ← h.mul, h.sumOver_map]

theorem firstLargest_map (v : Vec ℝ n) (k : Fin n) :
    Decomposition.firstLargest (v.map ι) k = Decomposition.firstLargest v k := by
  unfold Decomposition.firstLargest
  simp only [Vec.map_apply, h.lt_iff]

/-- A reflection of a column that is not zero. -/
theorem map_reflect (k : Fin n) (row : Fin m) {square : ℝ} (h0 : 0 < square) :
    (d.map ι).reflect k row (ι square) = (d.reflect k row square).map ι := by
  have hne := (Decomposition.reflect_denominator_pos d (k := k) square row h0).ne'
  rw [Decomposition.reflect_diagonal, if_pos rfl] at hne
  have halpha : (if 0 < ι (d.buffer row k) then -Scalar.sqrt (ι square)
      else Scalar.sqrt (ι square)) =
      ι (if 0 < d.buffer row k then -Scalar.sqrt square else Scalar.sqrt square) := by
    rw [apply_ite ι, h.neg, h.sqrt h0.le]
    simp only [← h.zero, h.lt_iff]
  change square - d.buffer row k *
    (if 0 < d.buffer row k then -Scalar.sqrt square else Scalar.sqrt square) ≠ 0 at hne
  unfold Decomposition.reflect
  simp only [Decomposition.map, Mat.map_apply, halpha]
  generalize (if 0 < d.buffer row k then -Scalar.sqrt square else Scalar.sqrt square) = alpha
    at hne
  simp only [Mat.map_ofFn, Vec.ofFn_apply, apply_ite ι, h.sub, h.mul, ← h.sumOver_map,
    h.div _ hne, h.one, h.zero, ← Vec.map_set]

end Step

/-- The steps of a decomposition whose threshold is not negative divide by a tail beyond it. -/
theorem map_steps {t : ℝ} (ht : 0 ≤ t) {ks : List (Fin n)} {d d' : Decomposition ℝ m n}
    (hs : Decomposition.steps t ks d = .ok d') :
    Decomposition.steps (ι t) ks (d.map ι) = .ok (d'.map ι) := by
  induction ks generalizing d with
  | nil =>
    obtain rfl := Except.ok.inj hs
    rfl
  | cons k ks ih =>
    have hsquares : Vec.ofFn ((d.map ι).tailSquare k) = (Vec.ofFn (d.tailSquare k)).map ι := by
      rw [Vec.map_ofFn]
      exact congrArg Vec.ofFn (funext fun j => h.tailSquare_map d k j)
    rw [Decomposition.steps] at hs ⊢
    simp only [hsquares, h.firstLargest_map, Vec.map_apply, h.finite, h.le_iff] at hs ⊢
    rw [if_neg (by rintro ⟨_, -, hf⟩; exact Bool.noConfusion hf)] at hs ⊢
    split_ifs at hs ⊢ with hle hk
    · obtain rfl := Except.ok.inj hs
      rfl
    · rw [← ih hs, ← h.map_reflect _ _ _ (ht.trans_lt (not_le.mp hle)),
        Decomposition.map_swap]

/-- **Decompositions** are found without a quotient by zero or the root of a negative number, for
every matrix and every threshold that is not negative. -/
theorem map_ofJacobian {t : ℝ} (ht : 0 ≤ t) {J : Mat ℝ m n} {d : Decomposition ℝ m n}
    (hd : Decomposition.ofJacobian J t = .ok d) :
    Decomposition.ofJacobian (J.map ι) (ι t) = .ok (d.map ι) := by
  unfold Decomposition.ofJacobian
  rw [h.map_start]
  exact h.map_steps ht hd

theorem map_transposeApply (d : Decomposition ℝ m n) (y : Vec ℝ m) :
    (d.map ι).transposeApply (y.map ι) = (d.transposeApply y).map ι := by
  unfold Decomposition.transposeApply
  refine List.foldl_hom (Vec.map ι) fun y k => ?_
  simp only [Decomposition.map, Mat.map_apply, Vec.map_apply, Vec.map_ofFn, apply_ite ι, h.sub,
    h.mul, ← h.sumOver_map]

end Extends

end LeastSquares
