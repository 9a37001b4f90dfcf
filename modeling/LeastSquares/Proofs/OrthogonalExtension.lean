import LeastSquares.Proofs.Extension
import LeastSquares.Proofs.Householder

/-!
# The orthogonal factorization in other arithmetics

The reflections of a factorization are formed without a quotient by zero and without the root of a
negative number, for every matrix: a column that is not zero below its row is enlarged by a positive
number and has a length, which its sign keeps away from its first entry. So the factorization of
real numbers is the same in every arithmetic that contains them (`Extends`).

Results:
* `Reflection.signedLength_ne`: what a reflection divides by;
* `Extends.map_ofTail`: a reflection;
* `Extends.map_factor`: the factorization.
-/

namespace LeastSquares

variable {α γ : Type} {m n : Nat}

/-! ## Every number through a function -/

/-- A matrix that is given by its rows. -/
theorem Mat.map_mk (f : α → γ) (g : Fin m → Vec α n) :
    (⟨Vec.ofFn g⟩ : Mat α m n).map f = ⟨Vec.ofFn fun i => (g i).map f⟩ := by
  refine Mat.ext fun i j => ?_
  rw [Mat.map_apply]
  change f (Vec.ofFn g i j) = (Vec.ofFn fun i => (g i).map f) i j
  rw [Vec.ofFn_apply, Vec.ofFn_apply, Vec.map_apply]

/-- A reflection with all of its numbers through a function. -/
def Reflection.map (f : α → γ) (r : Reflection α m) : Reflection γ m :=
  ⟨r.vector.map f, f r.factor, f r.image⟩

/-- A factorization with all of its numbers through a function. -/
def Orthogonal.map (f : α → γ) (o : Orthogonal α m n) : Orthogonal γ m n :=
  ⟨o.q.map f, o.r.map f, o.order⟩

/-! ## A reflection in steps -/

namespace Reflection

section

variable [Scalar α] (x : Vec α m) (k : Fin m)

/-- What a vector is enlarged by before its reflection is formed. -/
def enlargement : α := if hypotenuse (x k) (normOver (k < ·) x) < tiny then 1 / tiny else 1

/-- The length of the enlarged entries from `k` down, with the sign that the first has not. -/
def signedLength (scale : α) : α :=
  let length := hypotenuse (x k * scale) (normOver (k < ·) fun i => x i * scale)
  if x k * scale < 0 then length else -length

/-- The reflection of the enlarged entries from `k` down onto a vector of the given first entry. -/
def onto (scale image : α) : Reflection α m where
  vector := Vec.ofFn fun i =>
    if i < k then 0 else if i = k then 1 else x i * scale * (1 / (x k * scale - image))
  factor := (image - x k * scale) / image
  image := image / scale

theorem ofTail_eq : ofTail x k =
    if normOver (k < ·) x == 0 then ⟨Vec.replicate m 0, 0, x k⟩
    else onto x k (enlargement x k) (signedLength x k (enlargement x k)) := rfl

end

theorem enlargement_pos (x : Vec ℝ m) (k : Fin m) : 0 < enlargement x k := by
  unfold enlargement
  split_ifs
  · exact one_div_pos.mpr tiny_pos
  · exact one_pos

/-- A column that is not zero below its row has a length, which the sign keeps away from its first
entry. -/
theorem signedLength_ne {x : Vec ℝ m} {k : Fin m} (h : tailSquare x k ≠ 0) {scale : ℝ}
    (hscale : 0 < scale) :
    signedLength x k scale ≠ 0 ∧ x k * scale - signedLength x k scale ≠ 0 := by
  have hsum : 0 < scale ^ 2 * (x k ^ 2 + tailSquare x k) :=
    mul_pos (pow_pos hscale 2) <| add_pos_of_nonneg_of_pos (sq_nonneg _) <|
      lt_of_le_of_ne (tailSquare_nonneg x k) (Ne.symm h)
  have hlength := Real.sqrt_pos.mpr hsum
  unfold signedLength
  simp only [hypotenuse_scaled]
  refine ⟨?_, sub_signed_ne_zero hlength⟩
  split_ifs
  · exact hlength.ne'
  · exact neg_ne_zero.mpr hlength.ne'

end Reflection

/-! ## In other arithmetics -/

namespace Extends

variable {β : Type} [Scalar β] {ι : ℝ → β} (h : Extends ι)

include h

theorem largestOver_map (p : Fin m → Prop) [DecidablePred p] (f : Fin m → ℝ) :
    largestOver p (fun i => ι (f i)) = ι (largestOver p f) := by
  unfold largestOver
  rw [Fin.foldl_eq_finRange_foldl, Fin.foldl_eq_finRange_foldl, ← h.zero]
  refine List.foldl_hom ι fun a i => ?_
  rw [← h.abs, h.larger, apply_ite ι]

theorem normOver_map (p : Fin m → Prop) [DecidablePred p] (f : Fin m → ℝ) :
    normOver p (fun i => ι (f i)) = ι (normOver p f) := by
  unfold normOver
  simp only [h.largestOver_map, h.beq_zero]
  split_ifs with h0
  · exact h.zero.symm
  · have hscale : largestOver p f ≠ 0 := fun e => h0 ((Exact.beq_zero_iff _).mpr e)
    simp only [← h.div _ hscale, ← h.mul, h.sumOver_map]
    rw [← h.sqrt, h.mul]
    rw [Exact.sumOver_eq]
    refine Finset.sum_nonneg fun i _ => ?_
    split_ifs
    exacts [mul_self_nonneg _, le_rfl]

theorem hypotenuse_map (a b : ℝ) : hypotenuse (ι a) (ι b) = ι (hypotenuse a b) := by
  unfold hypotenuse
  simp only [← h.abs, h.larger, h.smaller, h.beq_zero]
  split_ifs with h0
  · rfl
  · have hlong : Scalar.larger (Scalar.abs a) (Scalar.abs b) ≠ 0 := by
      rw [Exact.beq_zero_iff, Exact.smaller_eq] at h0
      rw [Exact.larger_eq]
      exact ((lt_of_le_of_ne (le_min (abs_nonneg a) (abs_nonneg b)) (Ne.symm h0)).trans_le
        min_le_max).ne'
    rw [← h.div _ hlong, ← h.mul, ← h.one, ← h.add, ← h.sqrt, h.mul]
    exact add_nonneg zero_le_one (mul_self_nonneg _)

theorem normOver_get (p : Fin m → Prop) [DecidablePred p] (x : Vec ℝ m) :
    normOver p (x.map ι).get = ι (normOver p x.get) := by
  rw [← h.normOver_map]
  exact congrArg _ (funext (Vec.map_apply ι x))

theorem enlargement_map (x : Vec ℝ m) (k : Fin m) :
    Reflection.enlargement (x.map ι) k = ι (Reflection.enlargement x k) := by
  have htiny : (Reflection.tiny : β) = ι Reflection.tiny := by
    unfold Reflection.tiny
    generalize 969 = e
    exact h.one_div_two_pow e
  unfold Reflection.enlargement
  rw [Vec.map_apply, h.normOver_get, h.hypotenuse_map, htiny, apply_ite ι,
    h.div _ Reflection.tiny_pos.ne', h.one]
  simp only [h.lt_iff]

theorem signedLength_map (x : Vec ℝ m) (k : Fin m) (scale : ℝ) :
    Reflection.signedLength (x.map ι) k (ι scale) = ι (Reflection.signedLength x k scale) := by
  unfold Reflection.signedLength
  simp only [Vec.map_apply, ← h.mul, h.normOver_map, h.hypotenuse_map, ← h.zero, h.lt_iff,
    apply_ite ι, h.neg]

/-- A reflection divides by its image, by what the image is away from the first entry, and by what
the vector was enlarged by. -/
theorem map_onto (x : Vec ℝ m) (k : Fin m) {scale image : ℝ} (hscale : scale ≠ 0)
    (himage : image ≠ 0) (hne : x k * scale - image ≠ 0) :
    Reflection.onto (x.map ι) k (ι scale) (ι image) = (Reflection.onto x k scale image).map ι := by
  unfold Reflection.onto Reflection.map
  simp only [Vec.map_ofFn, Vec.map_apply, apply_ite ι, h.zero, h.one, h.mul, h.sub, h.div _ hscale,
    h.div _ himage, h.div _ hne]

theorem map_ofTail (x : Vec ℝ m) (k : Fin m) :
    Reflection.ofTail (x.map ι) k = (Reflection.ofTail x k).map ι := by
  rw [Reflection.ofTail_eq, Reflection.ofTail_eq, h.normOver_get, h.beq_zero, h.enlargement_map,
    h.signedLength_map, Vec.map_apply]
  split_ifs with h0
  · simp only [Reflection.map, Vec.map_replicate, h.zero]
  · have htail : Reflection.tailSquare x k ≠ 0 := fun e => by
      rw [Exact.beq_zero_iff, normOver_eq] at h0
      exact h0 ((congrArg Real.sqrt e).trans Real.sqrt_zero)
    have hpos := Reflection.enlargement_pos x k
    obtain ⟨hlength, hne⟩ := Reflection.signedLength_ne htail hpos
    exact h.map_onto x k hpos.ne' hlength hne

theorem map_apply (r : Reflection ℝ m) (y : Vec ℝ m) :
    (r.map ι).apply (y.map ι) = (r.apply y).map ι := by
  unfold Reflection.apply Reflection.map
  simp only [h.dot_map, Vec.map_ofFn, Vec.map_apply, h.sub, h.mul]

theorem map_reflectColumn (f : Orthogonal ℝ m n) (row : Fin m) (k : Fin n) :
    (f.map ι).reflect row k = (f.reflect row k).map ι := by
  have hcolumn (j : Fin n) : (Vec.ofFn fun i => (f.r.map ι) i j) =
      (Vec.ofFn fun i => f.r i j).map ι := by
    simp only [Vec.map_ofFn, Mat.map_apply]
  have hrow (i : Fin m) : (f.q.map ι).rows i = (f.q.rows i).map ι :=
    Vec.ext fun j => (Mat.map_apply ι f.q i j).trans (Vec.map_apply ι (f.q.rows i) j).symm
  unfold Orthogonal.reflect Orthogonal.map
  simp only [hcolumn, hrow, h.map_ofTail, h.map_apply]
  simp only [Mat.map_mk, Mat.map_ofFn, Mat.map_apply, Vec.ofFn_apply, Vec.map_apply, apply_ite ι,
    h.zero, Reflection.map]

/-- **The factorization** finds no quotient by zero and no root of a negative number, for every
matrix. -/
theorem map_factor (A : Mat ℝ m n) :
    Orthogonal.factor false (A.map ι) = (Orthogonal.factor false A).map ι := by
  have hstart : Orthogonal.start (A.map ι) = (Orthogonal.start A).map ι := by
    unfold Orthogonal.start Orthogonal.map Mat.identity
    simp only [Mat.map_ofFn, apply_ite ι, h.zero, h.one]
  unfold Orthogonal.factor
  rw [hstart]
  refine List.foldl_hom (Orthogonal.map ι) fun f k => ?_
  by_cases hk : k.val < m
  · simp only [dif_pos hk, Bool.false_eq_true, if_false]
    exact h.map_reflectColumn f _ k
  · simp only [dif_neg hk]

end Extends

end LeastSquares
