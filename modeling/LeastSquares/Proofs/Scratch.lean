import Mathlib.Data.List.Basic
import Mathlib.Logic.Equiv.Basic
import Mathlib.Tactic.SplitIfs
import LeastSquares.Damped.Access
import LeastSquares.Scalar.Double
import LeastSquares.Proofs.Signs

/-!
# The scratch of a decomposition

A damped direction is found in the buffer that it reads the triangle from. What it leaves there,
`direction_eq`, is the transpose of another triangle below the diagonal of the first `p` rows and
columns, `IsScratch`, and the diagonal of `R` on it. `Agrees p d d'` says that two decompositions
differ there at most. Whatever the arithmetic, what a decomposition is asked for depends on it up to
`Agrees` only, and leaves one that agrees with it, if the diagonal of `R` stands in the buffer
(`Written`).

Results:
* `Agrees.direction_eq`, `Agrees.newton_eq`, `Agrees.parameter_eq`: damped directions and damping
  parameters are the same for decompositions that agree;
* `Written.withScratch`, `Written.newton`, `Written.parameter`: what they leave agrees;
* `directionFor_after`, `parameterFor_after`: a caller is told the same, with sizes that fit;
* `replies_eq_fresh`: in every sequence of requests each is answered as by the decomposition before
  the first one, and every trial of a run is that of the decomposition its outer iteration began
  with.
-/

namespace LeastSquares

variable {α : Type} {m n p q : Nat}

namespace Decomposition

/-! ## Decompositions that agree -/

/-- The entries below the diagonal of the first `p` rows. -/
def IsScratch (p : Nat) (i : Fin m) (k : Fin n) : Prop := k.val < i.val ∧ i.val < p

/-- The columns stand in some order, and the diagonal of `R` stands in the buffer up to `p`. -/
structure Written (p : Nat) (d : Decomposition α m n) : Prop where
  order : Function.Injective d.order
  diagonal_eq : ∀ (i : Fin m) (k : Fin n), i.val = k.val → k.val < p → d.buffer i k = d.diagonal k

/-- Two decompositions that differ in their scratch at most. The diagonal and the upper triangle of
the first `p` columns, all rows from `p` on and all columns from `p` on are the same. -/
structure Agrees (p : Nat) (d d' : Decomposition α m n) : Prop where
  order_eq : d'.order = d.order
  diagonal_eq : d'.diagonal = d.diagonal
  beta_eq : d'.beta = d.beta
  columnNorm_eq : d'.columnNorm = d.columnNorm
  rank_eq : d'.rank = d.rank
  buffer_eq : ∀ i k, ¬ IsScratch p i k → d'.buffer i k = d.buffer i k

variable {d d' d'' : Decomposition α m n}

theorem not_isScratch_of_le {i : Fin m} {k : Fin n} (h : i.val ≤ k.val) : ¬ IsScratch p i k :=
  fun hs => Nat.lt_irrefl _ (Nat.lt_of_lt_of_le hs.1 h)

theorem Agrees.refl (d : Decomposition α m n) : Agrees p d d :=
  ⟨rfl, rfl, rfl, rfl, rfl, fun _ _ _ => rfl⟩

theorem Agrees.trans (h : Agrees p d d') (h' : Agrees p d' d'') : Agrees p d d'' :=
  ⟨h'.order_eq.trans h.order_eq, h'.diagonal_eq.trans h.diagonal_eq, h'.beta_eq.trans h.beta_eq,
    h'.columnNorm_eq.trans h.columnNorm_eq, h'.rank_eq.trans h.rank_eq,
    fun i k hs => (h'.buffer_eq i k hs).trans (h.buffer_eq i k hs)⟩

theorem Agrees.written (h : Agrees p d d') (hd : d.Written p) : d'.Written p where
  order := h.order_eq ▸ hd.order
  diagonal_eq i k hik hk := by
    rw [h.buffer_eq i k (not_isScratch_of_le (Nat.le_of_eq hik)), h.diagonal_eq,
      hd.diagonal_eq i k hik hk]

theorem Agrees.withRank (h : Agrees p d d') (r : Nat) :
    Agrees p { d with rank := r } { d' with rank := r } :=
  ⟨h.order_eq, h.diagonal_eq, h.beta_eq, h.columnNorm_eq, rfl, h.buffer_eq⟩

theorem Written.withRank (h : d.Written p) (r : Nat) : Written p { d with rank := r } :=
  ⟨h.order, h.diagonal_eq⟩

theorem Agrees.gather_eq (h : Agrees p d d') (hq : q ≤ n) (v : Vec α n) :
    d'.gather hq v = d.gather hq v := by
  unfold gather
  rw [h.order_eq]

theorem Agrees.pivotOf_eq (h : Agrees p d d') (c : Fin n) : d'.pivotOf c = d.pivotOf c := by
  unfold pivotOf
  rw [h.order_eq]

theorem Agrees.toColumns_eq (h : Agrees p d d') (v : Vec α n) :
    d'.toColumns v = d.toColumns v := by
  unfold toColumns
  simp only [h.pivotOf_eq]

/-- A damped solve overwrites all of the scratch. -/
theorem Agrees.withScratch_eq (h : Agrees p d d') (S : Mat α p p) :
    d'.withScratch S = d.withScratch S := by
  have hb : (d'.withScratch S).buffer = (d.withScratch S).buffer := by
    refine Mat.ext fun i k => ?_
    simp only [withScratch, Mat.ofFn_apply, h.diagonal_eq]
    split_ifs with hp hlt heq
    · rfl
    · rfl
    · exact h.buffer_eq i k fun hs => hlt hs.1
    · exact h.buffer_eq i k fun hs => hp ⟨hs.2, Nat.lt_trans hs.1 hs.2⟩
  obtain ⟨h₁, h₂, h₃, h₄, h₅, -⟩ := h
  cases d
  cases d'
  simp_all [withScratch]

/-- The diagonal of `R` is back in its place after a damped solve. -/
theorem Written.withScratch (h : d.Written p) (S : Mat α p p) : Agrees p d (d.withScratch S) := by
  refine ⟨rfl, rfl, rfl, rfl, rfl, fun i k hs => ?_⟩
  simp only [Decomposition.withScratch, Mat.ofFn_apply]
  split_ifs with hp hlt heq
  · exact absurd ⟨hlt, hp.1⟩ hs
  · exact (h.diagonal_eq i k heq hp.2).symm
  · rfl
  · rfl

variable [Scalar α]

theorem Agrees.block_eq (h : Agrees p d d') (hm : q ≤ m) (hn : q ≤ n) :
    d'.block hm hn = d.block hm hn := by
  refine Mat.ext fun i k => ?_
  simp only [block, Mat.ofFn_apply]
  split_ifs with hik
  · exact h.buffer_eq _ _ (not_isScratch_of_le hik)
  · rfl

theorem Written.block_diagonal (h : d.Written p) (hm : p ≤ m) (hn : p ≤ n) (k : Fin p) :
    d.block hm hn k k = d.diagonal (k.castLE hn) := by
  simp only [block, Mat.ofFn_apply]
  exact (if_pos (Nat.le_refl _)).trans (h.diagonal_eq _ _ rfl k.isLt)

theorem Agrees.undamped_eq (h : Agrees p d d') (qy : Vec α m) :
    d'.undamped qy = d.undamped qy := by
  unfold undamped
  rw [h.rank_eq, h.diagonal_eq]
  refine Triangular.solveUpperByColumns_congr (fun i j hij => ?_) (fun _ _ => rfl) fun _ _ => rfl
  simp only [Mat.ofFn_apply]
  split_ifs with hi
  · exact h.buffer_eq _ _ (not_isScratch_of_le (Nat.le_of_lt hij))
  · rfl

/-! ## Damped directions and damping parameters -/

section Typed

variable {hm : p ≤ m} {hn : p ≤ n} {qy : Vec α m} {δ : α} {D : Vec α n}

theorem Agrees.gradient_eq (h : Agrees p d d') : d'.gradient hm hn qy = d.gradient hm hn qy := by
  rw [Decomposition.gradient_eq, Decomposition.gradient_eq, h.block_eq hm hn]

theorem Agrees.direction_eq (h : Agrees p d d') (b : Vec α p) :
    d'.direction hm hn b D = d.direction hm hn b D := by
  rw [Decomposition.direction_eq, Decomposition.direction_eq]
  unfold scatter
  simp only [h.block_eq hm hn, h.gather_eq hn, h.pivotOf_eq, h.withScratch_eq]

theorem Written.direction (h : d.Written p) (hm : p ≤ m) (hn : p ≤ n) (b : Vec α p) (D : Vec α n) :
    Agrees p d (d.direction hm hn b D).decomposition := by
  rw [direction_decomposition]
  exact h.withScratch _

theorem Agrees.newton_eq (h : Agrees p d d') (left : Nat) (s : Damped.Newton α) :
    newton hm hn qy δ D left s d' = newton hm hn qy δ D left s d := by
  unfold newton
  simp only [h.direction_eq, h.gather_eq hn]

theorem Written.newton (h : d.Written p) (left : Nat) (s : Damped.Newton α) :
    Agrees p d (newton hm hn qy δ D left s d).decomposition := by
  induction left generalizing s d with
  | zero =>
    unfold Decomposition.newton
    simp only [ite_self]
    exact h.direction hm hn _ _
  | succ left ih =>
    unfold Decomposition.newton
    simp only
    split_ifs
    · exact h.direction hm hn _ _
    · have ht := h.direction hm hn (qy.take hm) (D.map (sqrt s.leaveZero.lambda * ·))
      exact ht.trans (ih (ht.written h) _)

theorem Agrees.newtonStart_eq (h : Agrees p d d') (i : α) :
    d'.newtonStart hm hn qy δ D i = d.newtonStart hm hn qy δ D i := by
  unfold newtonStart
  simp only [h.undamped_eq, h.gather_eq hn, h.block_eq hm hn, h.gradient_eq, h.diagonal_eq,
    h.rank_eq]

theorem Agrees.undampedExcess_eq (h : Agrees p d d') :
    SignRule.undampedExcess d' hn qy δ D = SignRule.undampedExcess d hn qy δ D := by
  unfold SignRule.undampedExcess
  rw [h.undamped_eq, h.gather_eq]

/-- **The damping parameter** and its direction do not depend on the scratch. -/
theorem Agrees.parameter_eq (h : Agrees p d d') (hm : p ≤ m) (hn : p ≤ n) (qy : Vec α m) (δ : α)
    (D : Vec α n) (i : α) :
    (d'.parameter hm hn qy δ D i).lambda = (d.parameter hm hn qy δ D i).lambda ∧
      (d'.parameter hm hn qy δ D i).direction = (d.parameter hm hn qy δ D i).direction := by
  simp only [Decomposition.parameter_eq, h.undampedExcess_eq, h.newtonStart_eq, h.newton_eq,
    h.undamped_eq, h.toColumns_eq]
  split_ifs
  · exact ⟨rfl, rfl⟩
  · exact ⟨rfl, rfl⟩

theorem Written.parameter (h : d.Written p) (hm : p ≤ m) (hn : p ≤ n) (qy : Vec α m) (δ : α)
    (D : Vec α n) (i : α) :
    Agrees p d (d.parameter hm hn qy δ D i).decomposition := by
  rw [parameter_eq]
  split_ifs
  · exact .refl d
  · exact h.newton _ _

end Typed

/-! ## Answers to a caller -/

section Access

variable {β γ : Type}

theorem columnsOf_toList (d : Decomposition α m n) (p : Nat) (v : Vec α n) :
    d.columnsOf p v.toList = .ok v := by
  unfold columnsOf
  rw [if_neg]
  · refine congrArg Except.ok (Vec.ext fun c => ?_)
    rw [Vec.ofFn_apply]
    simp [Vec.toList, Vec.get]
  · rintro ⟨k, -, hk⟩
    rw [Vec.length_toList] at hk
    omega

omit [Scalar α] in
theorem ofList?_take (v : Vec α m) (h : p ≤ m) :
    Vec.ofList? p (v.toList.take p) = some (v.take h) := by
  have e : v.toList.take p = (v.take h).toList := by
    refine List.ext_getElem (by simp [h]) fun i h₁ h₂ => ?_
    simp [Vec.toList, Vec.take, Vec.ofFn, Vec.get]
  rw [e, Vec.ofList?_toList]

omit [Scalar α] in
theorem getD_toList (v : Vec α n) (i : Fin n) (x : α) : v.toList.getD i x = v i := by
  simp [Vec.toList, Vec.get]

omit [Scalar α] in
theorem after_get (d : Decomposition α m n) :
    (get : Act (Decomposition α m n) (Failure α) (Decomposition α m n)).after d = (.ok d, d) := rfl

/-! ### Directions -/

omit [Scalar α] in
theorem copyRowOf_after (hm : p ≤ m) (hn : p ≤ n) (j : Fin p) (d : Decomposition α m n) :
    (copyRowOf p j).after d = (.ok (), d.copyRow hm hn j) := by
  have hin : j.val < m ∧ j.val < n := ⟨by omega, by omega⟩
  have hsame : min p n - (j.val + 1) = min p m - (j.val + 1) := by omega
  have hcolumn (i : Fin m) (h : i.val < p) : i.val < n := by omega
  unfold copyRowOf copyRow
  simp only [Act.after_ofFn, hin, hsame, and_self, dite_true, true_or, if_true]
  congr 2
  refine Mat.ext fun i k => ?_
  rw [Mat.ofFn_apply, Mat.ofFn_apply]
  by_cases h : k.val = j.val ∧ j.val < i.val ∧ i.val < p
  · rw [dif_pos ⟨h, hcolumn i h.2.2⟩, dif_pos h]
    rfl
  · rw [dif_neg fun hz => h hz.1, dif_neg h]

omit [Scalar α] in
/-- The loop of a caller copies the rows of the triangle, one after the other. -/
theorem copyRows_after (hm : p ≤ m) (hn : p ≤ n) (l : List (Fin p)) (d : Decomposition α m n) :
    (forIn (l.map Fin.val) PUnit.unit fun j _ => do
        copyRowOf p j
        pure (ForInStep.yield PUnit.unit) : Act (Decomposition α m n) (Failure α) PUnit).after d =
      (.ok PUnit.unit, l.foldl (copyRow hm hn) d) := by
  induction l generalizing d with
  | nil => rfl
  | cons j l ih =>
    rw [List.map_cons, List.forIn_cons, Act.after_bind, Act.after_bind, copyRowOf_after hm hn]
    exact ih (d.copyRow hm hn j)

theorem directionFor_eq (hm : p ≤ m) (hn : p ≤ n) (qy : Vec α m) (D : Vec α n) :
    directionFor (α := α) (m := m) (n := n) p qy.toList D.toList = (do
      for j in List.range p do copyRowOf p j
      let d ← get
      let r := d.directionBelow hm hn (qy.take hm) D
      set r.decomposition
      return (r.direction, r.solution.diagonal.toList)) := by
  have hmin : min p (n + 1) = p := by omega
  have hneg : ¬ ((p : Int) < 0) := by omega
  unfold directionFor
  simp only [Int.toNat_natCast, hmin, if_neg hneg, hm, hn, and_self, dite_true, columnsOf_toList,
    ofList?_take _ hm]

/-- **The damped direction of a caller** is that of the decomposition, whatever the scratch is. -/
theorem Agrees.directionFor_after (h : Agrees p d d') (hm : p ≤ m) (hn : p ≤ n) (qy : Vec α m)
    (D : Vec α n) :
    let r := d.direction hm hn (qy.take hm) D
    (directionFor p qy.toList D.toList).after d' =
      (.ok (r.direction, r.solution.diagonal.toList), r.decomposition) := by
  rw [directionFor_eq hm hn, ← h.direction_eq, Act.after_bind, ← List.map_coe_finRange_eq_range,
    copyRows_after hm hn]
  rfl

/-! ### Parameters -/

theorem Agrees.undampedFor_eq (h : Agrees p d d') (r : Int) (qy : List α) :
    d'.undampedFor r qy = d.undampedFor r qy := by
  unfold undampedFor
  simp only [(h.withRank r.toNat).undamped_eq]

omit [Scalar α] in
theorem Agrees.rankFor_eq (h : Agrees p d d') (q : Int) : d'.rankFor q = d.rankFor q := by
  unfold rankFor
  simp only [h.rank_eq]

theorem Agrees.columnsOf_eq (h : Agrees p d d') (q : Nat) (xs : List α) :
    d'.columnsOf q xs = d.columnsOf q xs := by
  unfold columnsOf
  simp only [h.order_eq]

theorem parameterFor_eq (hm : p ≤ m) (hn : p ≤ n) (qy : List α) (δ : α) (D : List α) (i : α) :
    parameterFor (m := m) (n := n) p qy δ D i = (do
      let d ← get
      let rank := d.rankFor p
      let x ← Act.ofExcept (d.undampedFor rank qy)
      let D ← Act.ofExcept (d.columnsOf (upTo p n) D)
      if norm (Damped.scaled (d.gather (upTo_le p n) D) (x.take (upTo_le p n))) - δ ≤ 0.1 * δ then
        return (0, d.toColumns x)
      else
        match gradientFailure? m n p qy with
        | some f => throw f
        | none =>
          let r := { d with rank := rank.toNat }.parameter hm hn
            (Vec.ofFn fun i => qy.getD (if qy.length = 1 then 0 else i.val) 0) δ D i
          set { r.decomposition with rank := d.rank }
          return (r.lambda, r.direction)) := by
  have hneg : ¬ ((p : Int) < 0) := by omega
  have h := parameterFor.eq_1 (m := m) (n := n) p qy δ D i
  simp only [Int.toNat_natCast, if_neg hneg, dif_pos (And.intro hm hn)] at h
  exact h

theorem undampedFor_toList (hm : d.rank ≤ m) (hn : d.rank ≤ n) (qy : Vec α m) :
    d.undampedFor d.rank qy.toList = .ok (d.undamped qy) := by
  have hupTo {k : Nat} (hk : d.rank ≤ k) : upTo d.rank k = d.rank := by
    unfold upTo
    rw [if_pos (Int.natCast_nonneg _), Int.toNat_natCast]
    exact Nat.min_eq_left hk
  unfold undampedFor
  simp only [Vec.length_toList, hupTo hn, hupTo hm]
  rw [if_neg (by simp), if_neg (by omega), if_neg (by omega)]
  refine congrArg Except.ok ?_
  refine Triangular.solveUpperByColumns_congr (fun _ _ _ => rfl) (fun _ _ => rfl) fun j hj => ?_
  have hj : j.val < d.rank := hj
  have hjm : j.val < m := by omega
  have e : (if d.rank = 1 then 0 else j.val) = (⟨j.val, hjm⟩ : Fin m).val := by
    split_ifs with h1
    · exact (Nat.lt_one_iff.mp (h1 ▸ hj)).symm
    · rfl
  simp only [Vec.ofFn_apply, hjm, dite_true]
  rw [e, getD_toList]

omit [Scalar α] in
theorem gradientFailure?_toList (hn : p ≤ n) (qy : Vec α m) :
    gradientFailure? m n p qy.toList = none := by
  unfold gradientFailure?
  rw [Option.map_eq_none_iff, List.find?_eq_none]
  intro j hj
  rw [List.mem_range] at hj
  rw [decide_eq_true_iff, Vec.length_toList]
  omega

/-- **The damping parameter of a caller** is that of the decomposition. -/
theorem parameterFor_after (hm : p ≤ m) (hn : p ≤ n) (hr : d.rank ≤ p) (qy : Vec α m) (δ : α)
    (D : Vec α n) (i : α) :
    let r := d.parameter hm hn qy δ D i
    ((parameterFor p qy.toList δ D.toList i).after d).1 = .ok (r.lambda, r.direction) := by
  have hrank : d.rankFor p = d.rank := by
    unfold rankFor
    split_ifs <;> omega
  have hupTo : upTo p n = p := by
    unfold upTo
    rw [if_pos (Int.natCast_nonneg _), Int.toNat_natCast]
    exact Nat.min_eq_left hn
  have hlength {q : Nat} (hq : q ≤ n) (e : q = p) (x : Vec α n) :
      norm (Damped.scaled (d.gather hq D) (x.take hq)) =
        norm (Damped.scaled (d.gather hn D) (x.take hn)) := by
    subst e
    rfl
  have hentries : (Vec.ofFn fun i : Fin m =>
      qy.toList.getD (if qy.toList.length = 1 then 0 else i.val) 0) = qy := by
    refine Vec.ext fun i => ?_
    have e : (if qy.toList.length = 1 then 0 else i.val) = i.val := by
      rw [Vec.length_toList]
      split_ifs
      · omega
      · rfl
    rw [Vec.ofFn_apply, e, getD_toList]
  have hself : ({ d with rank := (d.rank : Int).toNat } : Decomposition α m n) = d := rfl
  rw [parameterFor_eq hm hn]
  simp only [Act.after_bind, after_get, hrank, undampedFor_toList (Nat.le_trans hr hm)
    (Nat.le_trans hr hn), Act.after_ofExcept, columnsOf_toList, hlength (upTo_le p n) hupTo,
    gradientFailure?_toList hn, hentries, hself]
  by_cases hfit : SignRule.undampedExcess d hn qy δ D ≤ 0.1 * δ
  · rw [parameter_eq, if_pos hfit, if_pos (by exact hfit)]
    rfl
  · rw [if_neg (by exact hfit)]
    rfl

/-! ### Actions that keep to the scratch -/

/-- On decompositions that agree with `d` the action ends in the same way, and it leaves one that
agrees with `d`. -/
structure ScratchFree (p : Nat) (d : Decomposition α m n)
    (a : Act (Decomposition α m n) (Failure α) β) : Prop where
  answer_eq : ∀ d', Agrees p d d' → (a.after d').1 = (a.after d).1
  agrees : ∀ d', Agrees p d d' → Agrees p d (a.after d').2

omit [Scalar α] in
theorem scratchFree_pure (b : β) :
    ScratchFree p d (pure b : Act (Decomposition α m n) (Failure α) β) :=
  ⟨fun _ _ => rfl, fun _ h => h⟩

omit [Scalar α] in
theorem ScratchFree.bind {a : Act (Decomposition α m n) (Failure α) β}
    {f : β → Act (Decomposition α m n) (Failure α) γ} (ha : ScratchFree p d a)
    (hf : ∀ b, ScratchFree p d (f b)) : ScratchFree p d (a >>= f) := by
  have key (d') (h : Agrees p d d') : ((a >>= f).after d').1 = ((a >>= f).after d).1 ∧
      Agrees p d ((a >>= f).after d').2 := by
    have e := ha.answer_eq d' h
    have g := ha.agrees d' h
    have g₀ := ha.agrees d (.refl d)
    simp only [Act.after_bind]
    rcases hd : a.after d with ⟨f₀ | b, d₁⟩ <;> rcases hd' : a.after d' with ⟨f₁ | b', d₁'⟩ <;>
      rw [hd] at e g₀ <;> rw [hd'] at e g <;> cases e
    · exact ⟨rfl, g⟩
    · exact ⟨((hf b).answer_eq _ g).trans ((hf b).answer_eq _ g₀).symm, (hf b).agrees _ g⟩
  exact ⟨fun d' h => (key d' h).1, fun d' h => (key d' h).2⟩

theorem Written.scratchFree_directionFor (h : d.Written p) (hm : p ≤ m) (hn : p ≤ n)
    (qy : Vec α m) (D : Vec α n) : ScratchFree p d (directionFor p qy.toList D.toList) where
  answer_eq d' hd := by
    rw [hd.directionFor_after hm hn, (Agrees.refl d).directionFor_after hm hn]
  agrees d' hd := by
    rw [hd.directionFor_after hm hn]
    exact h.direction hm hn _ _

theorem Written.scratchFree_parameterFor (h : d.Written p) (hm : p ≤ m) (hn : p ≤ n)
    (qy : List α) (δ : α) (D : List α) (i : α) :
    ScratchFree p d (parameterFor p qy δ D i) := by
  have key (d') (hd' : Agrees p d d') :
      ((parameterFor p qy δ D i).after d').1 = ((parameterFor p qy δ D i).after d).1 ∧
        Agrees p d ((parameterFor p qy δ D i).after d').2 := by
    rw [parameterFor_eq hm hn]
    simp only [Act.after_bind, after_get, hd'.rankFor_eq, hd'.undampedFor_eq, hd'.columnsOf_eq,
      Act.after_ofExcept]
    cases d.undampedFor (d.rankFor p) qy with
    | error f => exact ⟨rfl, hd'⟩
    | ok x =>
      cases d.columnsOf (upTo p n) D with
      | error f => exact ⟨rfl, hd'⟩
      | ok D =>
        simp only [hd'.gather_eq, hd'.toColumns_eq]
        by_cases hfit :
            norm (Damped.scaled (d.gather (upTo_le p n) D) (x.take (upTo_le p n))) - δ ≤ 0.1 * δ
        · simp only [if_pos hfit]
          exact ⟨rfl, hd'⟩
        simp only [if_neg hfit]
        generalize (Vec.ofFn fun i : Fin m => qy.getD (if qy.length = 1 then 0 else i.val) 0) = b
        cases gradientFailure? m n p qy with
        | some f => exact ⟨rfl, hd'⟩
        | none =>
          obtain ⟨hl, hx⟩ := (hd'.withRank (d.rankFor p).toNat).parameter_eq hm hn b δ D i
          have hw := ((hd'.written h).withRank (d.rankFor p).toNat).parameter hm hn b δ D i
          exact ⟨congrArg Except.ok (Prod.ext hl hx), hd'.trans (hw.withRank d'.rank)⟩
  exact ⟨fun d' h => (key d' h).1, fun d' h => (key d' h).2⟩

/-! ## Sequences of requests -/

/-- What a caller asks of a decomposition. -/
inductive Request (α : Type) (m n : Nat) where
  | direction (rhs : Vec α m) (damping : Vec α n)
  | parameter (rhs : Vec α m) (delta : α) (scaling : Vec α n) (initial : α)

/-- What the caller is told: a direction with the diagonal of the triangle it was found from, or a
damping parameter with its direction. -/
inductive Reply (α : Type) (n : Nat) where
  | direction (x : Vec α n) (diagonal : List α)
  | parameter (lambda : α) (x : Vec α n)

/-- A request for the first `p` columns. -/
def Request.act (p : Nat) : Request α m n → Act (Decomposition α m n) (Failure α) (Reply α n)
  | direction rhs damping => do
    let (x, diagonal) ← directionFor p rhs.toList damping.toList
    return .direction x diagonal
  | parameter rhs delta scaling initial => do
    let (lambda, x) ← parameterFor p rhs.toList delta scaling.toList initial
    return .parameter lambda x

/-- The reply that a decomposition has for a request. -/
def Request.reply (hm : p ≤ m) (hn : p ≤ n) (d : Decomposition α m n) : Request α m n → Reply α n
  | direction rhs damping =>
    let r := d.direction hm hn (rhs.take hm) damping
    .direction r.direction r.solution.diagonal.toList
  | parameter rhs delta scaling initial =>
    let r := d.parameter hm hn rhs delta scaling initial
    .parameter r.lambda r.direction

theorem Request.act_after (hm : p ≤ m) (hn : p ≤ n) (hr : d.rank ≤ p) (q : Request α m n) :
    ((q.act p).after d).1 = .ok (q.reply hm hn d) := by
  cases q with
  | direction rhs damping =>
    unfold Request.act
    rw [Act.after_bind, (Agrees.refl d).directionFor_after hm hn]
    rfl
  | parameter rhs δ D i =>
    have e := parameterFor_after hm hn hr rhs δ D i
    unfold Request.act
    rw [Act.after_bind]
    rcases ha : (parameterFor p rhs.toList δ D.toList i).after d with ⟨x, d₁⟩
    rw [ha] at e
    subst e
    rfl

theorem Written.scratchFree_act (h : d.Written p) (hm : p ≤ m) (hn : p ≤ n)
    (q : Request α m n) : ScratchFree p d (q.act p) := by
  cases q with
  | direction rhs damping =>
    exact (h.scratchFree_directionFor hm hn rhs damping).bind fun _ => scratchFree_pure _
  | parameter rhs δ D i =>
    exact (h.scratchFree_parameterFor hm hn rhs.toList δ D.toList i).bind fun _ =>
      scratchFree_pure _

/-- The replies to a list of requests, each made to the decomposition that the one before left, and
the decomposition that is left in the end. -/
def replies (p : Nat) : List (Request α m n) → Decomposition α m n →
    List (Except (Failure α) (Reply α n)) × Decomposition α m n
  | [], d => ([], d)
  | q :: qs, d =>
    let r := (q.act p).after d
    let rs := replies p qs r.2
    (r.1 :: rs.1, rs.2)

theorem Written.replies_spec (h : d.Written p) (hm : p ≤ m) (hn : p ≤ n)
    (qs : List (Request α m n)) (hd : Agrees p d d') :
    (replies p qs d').1 = qs.map (fun q => ((q.act p).after d).1) ∧
      Agrees p d (replies p qs d').2 := by
  induction qs generalizing d' with
  | nil => exact ⟨rfl, hd⟩
  | cons q qs ih =>
    have hq := h.scratchFree_act hm hn q
    obtain ⟨hr, ha⟩ := ih (hq.agrees d' hd)
    exact ⟨congrArg₂ List.cons (hq.answer_eq d' hd) hr, ha⟩

end Access

/-! ## Decompositions of a Jacobian -/

omit [Scalar α] in
theorem writeDiagonal_written (hd : Function.Injective d.order) (p : Nat) :
    (d.writeDiagonal p).Written p where
  order := hd
  diagonal_eq i k hik hk := by
    simp only [writeDiagonal, Mat.ofFn_apply]
    exact if_pos ⟨hik, hk⟩

omit [Scalar α] in
theorem swap_order_injective (hd : Function.Injective d.order) (k j : Fin n) :
    Function.Injective (d.swap k j).order := by
  have e (c : Fin n) : (d.swap k j).order c = d.order (Equiv.swap k j c) := Vec.ofFn_apply _ c
  intro a b hab
  rw [e, e] at hab
  exact (Equiv.swap k j).injective (hd hab)

theorem steps_order {t : α} {ks : List (Fin n)} (hd : Function.Injective d.order)
    (h : steps t ks d = .ok d') : Function.Injective d'.order := by
  induction ks generalizing d with
  | nil =>
    obtain rfl := Except.ok.inj h
    exact hd
  | cons k ks ih =>
    rw [steps] at h
    simp only at h
    split_ifs at h
    · obtain rfl := Except.ok.inj h
      exact hd
    · refine ih ?_ h
      exact swap_order_injective hd k _

/-- Whatever the arithmetic, the columns of a decomposition stand in some order. -/
theorem ofJacobian_order {J : Mat α m n} {t : α} (h : ofJacobian J t = .ok d) :
    Function.Injective d.order :=
  steps_order (fun i j hij => by simpa [start] using hij) h

end Decomposition

/-! ## Trials -/

namespace LevenbergMarquardt

open Decomposition

variable [Scalar α] {o : Options α} {s : Search α m n}

/-- The search with the decomposition `d` in place of its own. -/
def Search.withDecomposition (s : Search α m n) (d : Decomposition α m n) : Search α m n :=
  { s with decomposition := d }

/-- The trial is that of the decomposition `d`: the same step is tried, and judged in the same
way. -/
structure Search.TriesAs (s : Search α m n) (d : Decomposition α m n) : Prop where
  lambda_eq : s.propose.lambda = (s.withDecomposition d).propose.lambda
  step_eq : s.propose.step = (s.withDecomposition d).propose.step
  length_eq : s.propose.length = (s.withDecomposition d).propose.length
  radius_eq : s.propose.radius = (s.withDecomposition d).propose.radius
  point_eq : s.propose.point = (s.withDecomposition d).propose.point
  assess_eq : ∀ e, s.assess s.propose e =
    (s.withDecomposition d).assess (s.withDecomposition d).propose e

theorem propose_agrees (h : s.decomposition.Written (min m n)) :
    Agrees (min m n) s.decomposition s.propose.decomposition :=
  h.parameter _ _ _ _ _ _

theorem triesAs_of_agrees {d : Decomposition α m n} (h : d.Written (min m n))
    (ha : Agrees (min m n) d s.decomposition) : s.TriesAs d := by
  have hs : Agrees (min m n) d s.propose.decomposition := ha.trans (propose_agrees (ha.written h))
  have hd : Agrees (min m n) d (s.withDecomposition d).propose.decomposition :=
    propose_agrees (s := s.withDecomposition d) h
  have hgather (v : Vec α n) : s.propose.decomposition.gather (Nat.min_le_right m n) v =
      (s.withDecomposition d).propose.decomposition.gather (Nat.min_le_right m n) v :=
    (hs.gather_eq _ v).trans (hd.gather_eq _ v).symm
  have hblock : s.propose.decomposition.block (Nat.min_le_left m n) (Nat.min_le_right m n) =
      (s.withDecomposition d).propose.decomposition.block (Nat.min_le_left m n)
        (Nat.min_le_right m n) := (hs.block_eq _ _).trans (hd.block_eq _ _).symm
  obtain ⟨hl, hx⟩ := ha.parameter_eq (Nat.min_le_left m n) (Nat.min_le_right m n) s.projected
    s.region.radius s.region.scaling s.region.lambda
  have hlambda : s.propose.lambda = (s.withDecomposition d).propose.lambda := hl
  have hstep : s.propose.step = (s.withDecomposition d).propose.step :=
    congrArg (Vec.map fun x => -x) hx
  have hgatherStep := hgather s.propose.step
  rw [congrArg ((s.withDecomposition d).propose.decomposition.gather _) hstep] at hgatherStep
  have hlength : s.propose.length = (s.withDecomposition d).propose.length :=
    congrArg₂ (fun D x => norm (Damped.scaled D x)) (hgather s.region.scaling) hgatherStep
  have hmodel : Search.linearModel s.propose =
      Search.linearModel (s.withDecomposition d).propose := by
    rw [Search.linearModel_eq, Search.linearModel_eq]
    exact congrArg₂ (fun (R : Mat α (min m n) (min m n)) (x : Vec α (min m n)) =>
      Vec.ofFn fun i => sumOver (i ≤ ·) fun j => R i j * x j) hblock hgatherStep
  refine ⟨hlambda, hstep, hlength, ?_, ?_, fun e => ?_⟩
  · exact congrArg (fun l => if s.region.fresh then Scalar.smaller s.region.radius l
      else s.region.radius) hlength
  · exact congrArg (fun x : Vec α n => Vec.ofFn fun c => s.standing.point c + x c) hstep
  · unfold Search.assess
    rw [hmodel, hlambda, hlength]
    rfl

/-- The trials of an outer iteration leave the decomposition that it began with, up to the
scratch. -/
theorem Reached.agrees {e₀ : Evaluation α m n} {bs : List (Evaluation α m n)}
    (h : Reached o e₀ bs s) :
    ∃ d, ofJacobian s.base.jacobian o.rankingThreshold = .ok d ∧
      Agrees (min m n) (d.writeDiagonal (min m n)) s.decomposition := by
  induction h with
  | first hs =>
    obtain ⟨d, hd, rfl⟩ := Search.of_start_eq_ok hs
    exact ⟨d, hd, .refl _⟩
  | retried _ hn ih =>
    obtain ⟨-, -, rfl⟩ := Search.of_outcome_eq_retry hn
    obtain ⟨d, hd, ha⟩ := ih
    have hw := ha.written (writeDiagonal_written (ofJacobian_order hd) _)
    exact ⟨d, hd, ha.trans (propose_agrees hw)⟩
  | renewed _ _ hs _ =>
    obtain ⟨d, hd, rfl⟩ := Search.of_start_eq_ok hs
    exact ⟨d, hd, .refl _⟩

/-- **Headline.** Whatever the arithmetic and whatever the scratch holds, in every sequence of
requests each is answered as by the decomposition before the first one, and all that is not scratch
stays as it is. So every trial of a run is that of the decomposition its outer iteration began
with. -/
theorem replies_eq_fresh {d : Decomposition α m n} (hm : p ≤ m) (hn : p ≤ n) (h : d.Written p)
    (qs : List (Request α m n)) :
    (∀ d', Agrees p d d' →
      (replies p qs d').1 = qs.map (fun q => ((q.act p).after d).1) ∧
        Agrees p d (replies p qs d').2) ∧
    (d.rank ≤ p → ∀ q : Request α m n, ((q.act p).after d).1 = .ok (q.reply hm hn d)) ∧
    ∀ (o : Options α) (e₀ : Evaluation α m n) (bs : List (Evaluation α m n)) (s : Search α m n),
      Reached o e₀ bs s → ∃ d₀, ofJacobian s.base.jacobian o.rankingThreshold = .ok d₀ ∧
        s.TriesAs (d₀.writeDiagonal (min m n)) := by
  refine ⟨fun d' hd => h.replies_spec hm hn qs hd, fun hr q => q.act_after hm hn hr,
    fun o e₀ bs s hs => ?_⟩
  obtain ⟨d₀, hd₀, ha⟩ := hs.agrees
  exact ⟨d₀, hd₀, triesAs_of_agrees (writeDiagonal_written (ofJacobian_order hd₀) _) ha⟩

/-- The triangle with the rows `(2, 1)` and `(0, 3)`, for columns that changed places, with a
scratch that was used. -/
def usedTriangle : Decomposition Float 2 2 where
  buffer := Mat.ofFn fun i k =>
    if i = k then (if k.val = 0 then 2 else 3) else if i < k then 1 else 7
  order := Vec.ofFn Fin.rev
  diagonal := Vec.ofFn fun k => if k.val = 0 then 2 else 3
  beta := Vec.replicate 2 0
  columnNorm := Vec.replicate 2 1
  rank := 2

theorem usedTriangle_written : usedTriangle.Written 2 where
  order i j h := by simpa [usedTriangle] using h
  diagonal_eq i k hik _ := by
    obtain rfl := Fin.ext hik
    simp [usedTriangle]

theorem replies_eq_fresh_usedTriangle :
    usedTriangle.Written 2 ∧ ∀ x y : Vec Float 2,
      (∀ d', Agrees 2 usedTriangle d' →
        (replies 2 [.direction x y, .parameter x 1 y 0, .direction x y] d').1 =
          [.direction x y, .parameter x 1 y 0, .direction x y].map
            fun q : Request Float 2 2 => ((q.act 2).after usedTriangle).1) ∧
      (((Request.parameter x 1 y 0).act 2).after usedTriangle).1 =
        .ok ((Request.parameter x 1 y 0).reply (Nat.le_refl 2) (Nat.le_refl 2) usedTriangle) := by
  refine ⟨usedTriangle_written, fun x y => ?_⟩
  obtain ⟨hall, hfresh, -⟩ := replies_eq_fresh (Nat.le_refl 2) (Nat.le_refl 2) usedTriangle_written
    [.direction x y, .parameter x 1 y 0, .direction x y]
  exact ⟨fun d' hd => (hall d' hd).1, hfresh (Nat.le_refl 2) _⟩

end LevenbergMarquardt

end LeastSquares
