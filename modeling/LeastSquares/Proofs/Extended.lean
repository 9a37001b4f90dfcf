import Mathlib.Analysis.Real.Sqrt
import Mathlib.Tactic.Linarith
import LeastSquares.Proofs.Exact
import LeastSquares.Proofs.Signs

/-!
# Exact arithmetic with infinities

The real numbers with two infinities and an undefined number as a `Scalar`. On finite numbers the
operations are the exact ones; the others are those of floating-point arithmetic: a quotient by zero
is infinite, or undefined if zero is divided, and so are the root of a negative number and the
difference of infinities undefined. Every comparison with an undefined number fails.

Results:
* `lt_trans`: the order is transitive;
* `isFinite_of_sumOver`: the terms of a finite sum are finite;
* `signRule`: that a number is not strictly below zero is a reading of "not negative" that the
  arithmetic keeps, with the undefined number among them.
-/

namespace LeastSquares

/-- A real number, an infinity with its sign, or undefined. -/
inductive Extended where
  | finite (x : ℝ)
  | infinite (negative : Bool)
  | undefined

namespace Extended

/-! ## Operations -/

/-- The number with the other sign. -/
noncomputable def neg : Extended → Extended
  | finite x => finite (-x)
  | infinite s => infinite (!s)
  | undefined => undefined

/-- The sum. Infinities of both signs have none. -/
noncomputable def add : Extended → Extended → Extended
  | finite x, finite y => finite (x + y)
  | finite _, infinite s => infinite s
  | infinite s, finite _ => infinite s
  | infinite s, infinite t => if s = t then infinite s else undefined
  | _, _ => undefined

/-- An infinity of the given sign times a real number. Zero has no such product. -/
noncomputable def stretch (s : Bool) (x : ℝ) : Extended :=
  if x = 0 then undefined else infinite (s ^^ decide (x < 0))

/-- The product. -/
noncomputable def mul : Extended → Extended → Extended
  | finite x, finite y => finite (x * y)
  | finite x, infinite s => stretch s x
  | infinite s, finite x => stretch s x
  | infinite s, infinite t => infinite (s ^^ t)
  | _, _ => undefined

/-- The quotient. Zero as a divisor counts as positive. -/
noncomputable def div : Extended → Extended → Extended
  | finite x, finite y =>
    if y ≠ 0 then finite (x / y) else if x = 0 then undefined else infinite (decide (x < 0))
  | finite _, infinite _ => finite 0
  | infinite s, finite y => infinite (s ^^ decide (y < 0))
  | _, _ => undefined

/-- The square root. -/
noncomputable def root : Extended → Extended
  | finite x => if x < 0 then undefined else finite √x
  | infinite s => if s then undefined else infinite false
  | undefined => undefined

/-- The absolute value. -/
noncomputable def magnitude : Extended → Extended
  | finite x => finite |x|
  | infinite _ => infinite false
  | undefined => undefined

/-- Strictly below. -/
def Below : Extended → Extended → Prop
  | finite x, finite y => x < y
  | finite _, infinite s => s = false
  | infinite s, finite _ => s = true
  | infinite s, infinite t => s = true ∧ t = false
  | _, _ => False

/-- At or below. -/
def AtMost : Extended → Extended → Prop
  | finite x, finite y => x ≤ y
  | finite _, infinite s => s = false
  | infinite s, finite _ => s = true
  | infinite s, infinite t => s = true ∨ t = false
  | _, _ => False

/-- Equality, which an undefined number has with none. -/
noncomputable def same : Extended → Extended → Bool
  | finite x, finite y => decide (x = y)
  | infinite s, infinite t => s == t
  | _, _ => false

noncomputable instance : Scalar Extended where
  zero := finite 0
  one := finite 1
  add := add
  sub a b := add a (neg b)
  mul := mul
  div := div
  neg := neg
  natCast k := finite k
  ofScientific m s e := finite (OfScientific.ofScientific m s e)
  lt := Below
  le := AtMost
  beq := same
  sqrt := root
  abs := magnitude
  isFinite
    | finite _ => true
    | _ => false
  truncate
    | finite x => if 0 ≤ x then ⌊x⌋ else ⌈x⌉
    | _ => 0
  decLt _ _ := Classical.dec _
  decLe _ _ := Classical.dec _

/-! ## Order -/

theorem lt_trans {a b c : Extended} (hab : a < b) (hbc : b < c) : a < c := by
  change Below a b at hab
  change Below b c at hbc
  change Below a c
  cases a <;> cases b <;> cases c <;> simp_all [Below]
  exact hab.trans hbc

theorem le_of_lt {a b : Extended} (h : a < b) : a ≤ b := by
  change Below a b at h
  change AtMost a b
  cases a <;> cases b <;> simp_all [Below, AtMost]
  exact h.le

theorem not_lt_of_le {a b : Extended} (h : a ≤ b) : ¬ b < a := by
  change AtMost a b at h
  change ¬ Below b a
  cases a <;> cases b <;> simp_all [Below, AtMost]
  rcases h with rfl | rfl <;> simp

/-! ## Finite numbers -/

section Finite

variable {n : Nat}

/-- A finite sum has finite terms. -/
theorem isFinite_of_add {a b : Extended} (h : isFinite (a + b) = true) :
    isFinite a = true ∧ isFinite b = true := by
  cases a with
  | finite x =>
    cases b with
    | finite y => exact ⟨rfl, rfl⟩
    | _ => cases h
  | infinite s =>
    cases b with
    | infinite t =>
      change isFinite (if s = t then infinite s else undefined) = true at h
      split_ifs at h
    | _ => cases h
  | undefined => cases b <;> cases h

theorem isFinite_of_mul_self {a : Extended} (h : isFinite (a * a) = true) : isFinite a = true := by
  cases a with
  | finite x => rfl
  | _ => cases h

theorem isFinite_of_neg {a : Extended} (h : isFinite (-a) = true) : isFinite a = true := by
  cases a with
  | finite x => rfl
  | _ => cases h

theorem isFinite_of_sqrt {a : Extended} (h : isFinite (sqrt a) = true) : isFinite a = true := by
  cases a with
  | finite x => rfl
  | infinite s => cases s <;> cases h
  | undefined => cases h

theorem isFinite_of_foldl {p : Fin n → Prop} [DecidablePred p] {f : Fin n → Extended}
    {l : List (Fin n)} {a : Extended}
    (h : isFinite (l.foldl (fun s i => if p i then s + f i else s) a) = true) :
    isFinite a = true ∧ ∀ i ∈ l, p i → isFinite (f i) = true := by
  induction l generalizing a with
  | nil => exact ⟨h, fun _ hi => absurd hi List.not_mem_nil⟩
  | cons j l ih =>
    obtain ⟨ha, hl⟩ := ih h
    change isFinite (if p j then a + f j else a) = true at ha
    by_cases hj : p j
    · rw [if_pos hj] at ha
      obtain ⟨ha, hf⟩ := isFinite_of_add ha
      exact ⟨ha, List.forall_mem_cons.mpr ⟨fun _ => hf, hl⟩⟩
    · rw [if_neg hj] at ha
      exact ⟨ha, List.forall_mem_cons.mpr ⟨fun hp => absurd hp hj, hl⟩⟩

theorem isFinite_of_sumOver {p : Fin n → Prop} [DecidablePred p] {f : Fin n → Extended}
    (h : isFinite (sumOver p f) = true) {i : Fin n} (hi : p i) : isFinite (f i) = true := by
  rw [sumOver, Fin.foldl_eq_finRange_foldl] at h
  exact (isFinite_of_foldl h).2 i (List.mem_finRange i) hi

end Finite

/-! ## Signs -/

/-- Not strictly below zero. -/
def NotNegative (a : Extended) : Prop := ¬ a.Below (finite 0)

theorem notNegative_finite {x : ℝ} : (finite x).NotNegative ↔ 0 ≤ x := not_lt

theorem notNegative_infinite {s : Bool} : (infinite s).NotNegative ↔ s = false := by
  cases s <;> simp [NotNegative, Below]

theorem notNegative_undefined : undefined.NotNegative := id

theorem NotNegative.add {a b : Extended} (ha : a.NotNegative) (hb : b.NotNegative) :
    (add a b).NotNegative := by
  cases a <;> cases b <;>
    simp_all [Extended.add, notNegative_finite, notNegative_infinite, notNegative_undefined]
  exact add_nonneg ha hb

theorem notNegative_stretch {x : ℝ} (hx : 0 ≤ x) : (stretch false x).NotNegative := by
  unfold stretch
  split_ifs
  · exact notNegative_undefined
  · exact notNegative_infinite.mpr (by simpa using hx)

theorem NotNegative.mul {a b : Extended} (ha : a.NotNegative) (hb : b.NotNegative) :
    (mul a b).NotNegative := by
  cases a <;> cases b <;>
    simp_all [Extended.mul, notNegative_finite, notNegative_infinite, notNegative_undefined,
      notNegative_stretch]
  exact mul_nonneg ha hb

theorem NotNegative.div {a b : Extended} (ha : a.NotNegative) (hb : b.NotNegative) :
    (div a b).NotNegative := by
  cases a with
  | finite x =>
    cases b with
    | finite y =>
      have hx := notNegative_finite.mp ha
      simp only [Extended.div]
      split_ifs
      · exact notNegative_finite.mpr (div_nonneg hx (notNegative_finite.mp hb))
      · exact notNegative_undefined
      · exact notNegative_infinite.mpr (decide_eq_false (not_lt.mpr hx))
    | infinite t => exact notNegative_finite.mpr le_rfl
    | undefined => exact notNegative_undefined
  | infinite s =>
    cases b with
    | finite y =>
      obtain rfl := notNegative_infinite.mp ha
      refine notNegative_infinite.mpr ?_
      rw [decide_eq_false (not_lt.mpr (notNegative_finite.mp hb))]
      rfl
    | infinite t => exact notNegative_undefined
    | undefined => exact notNegative_undefined
  | undefined => cases b <;> exact notNegative_undefined

theorem notNegative_mul_self (a : Extended) : (mul a a).NotNegative := by
  cases a with
  | finite x => exact notNegative_finite.mpr (mul_self_nonneg x)
  | infinite s => exact notNegative_infinite.mpr (Bool.xor_self s)
  | undefined => exact notNegative_undefined

theorem notNegative_root (a : Extended) : (root a).NotNegative := by
  unfold root
  cases a with
  | finite x =>
    simp only
    split_ifs
    · exact notNegative_undefined
    · exact notNegative_finite.mpr (Real.sqrt_nonneg x)
  | infinite s =>
    cases s
    · exact notNegative_infinite.mpr rfl
    · exact notNegative_undefined
  | undefined => exact notNegative_undefined

/-- What lies strictly above a number that is not negative is not negative. -/
theorem NotNegative.of_below {a b : Extended} (ha : a.NotNegative) (hab : a.Below b) :
    b.NotNegative := by
  cases a <;> cases b <;> simp_all [Below, notNegative_finite, notNegative_infinite]
  exact ha.trans hab.le

theorem notNegative_of_not_below {a : Extended} {x : ℝ} (hx : 0 ≤ x)
    (h : ¬ a.Below (finite x)) : a.NotNegative := by
  cases a with
  | finite y => exact notNegative_finite.mpr (hx.trans (not_lt.mp h))
  | infinite s => exact notNegative_infinite.mpr (Bool.eq_false_iff.mpr h)
  | undefined => exact notNegative_undefined

/-- A number that is not negative and of which a tenth is below a real number is real. -/
theorem NotNegative.exists_of_tenth {a : Extended} {x : ℝ} (ha : a.NotNegative)
    (h : 0.1 * a < finite x) : ∃ y, a = finite y := by
  cases a with
  | finite y => exact ⟨y, rfl⟩
  | infinite s =>
    obtain rfl := notNegative_infinite.mp ha
    have htop : (0.1 : Extended) * infinite false = infinite false := by
      change stretch false (0.1 : ℝ) = _
      unfold stretch
      rw [if_neg (by norm_num), decide_eq_false (by norm_num)]
      rfl
    rw [htop] at h
    exact absurd h Bool.false_ne_true
  | undefined => exact absurd h id

/-- A difference that is not at most a multiple of the number that was subtracted: from a finite
number as for the reals; from an infinite one it is at most that or undefined. -/
theorem notNegative_excess {a δ : Extended} {x : ℝ} (hx : 0 < x) (hδ : δ.NotNegative)
    (h : ¬ AtMost (add a (neg δ)) (mul (finite x) δ)) : (add a (neg δ)).NotNegative := by
  cases δ with
  | finite d =>
    have hd := notNegative_finite.mp hδ
    cases a with
    | finite y =>
      have hlt : x * d < y + -d := not_le.mp h
      exact notNegative_finite.mpr ((mul_nonneg hx.le hd).trans hlt.le)
    | infinite s => exact notNegative_infinite.mpr (Bool.eq_false_iff.mpr h)
    | undefined => exact notNegative_undefined
  | infinite t =>
    obtain rfl := notNegative_infinite.mp hδ
    have hmul : mul (finite x) (infinite false) = infinite false := by
      simp [mul, stretch, hx.ne', hx.le]
    rw [hmul] at h
    cases a with
    | finite y => exact absurd (Or.inl rfl) h
    | infinite s =>
      cases s
      · exact notNegative_undefined
      · exact absurd (Or.inl rfl) h
    | undefined => exact notNegative_undefined
  | undefined => cases a <;> exact notNegative_undefined

/-- **The sign rule** of exact arithmetic with infinities. -/
theorem signRule : SignRule NotNegative where
  natCast k := notNegative_finite.mpr (Nat.cast_nonneg k)
  zero := notNegative_finite.mpr le_rfl
  one := notNegative_finite.mpr zero_le_one
  scientific _ _ _ := notNegative_finite.mpr (NNRat.cast_nonneg _)
  add := NotNegative.add
  mul := NotNegative.mul
  div := NotNegative.div
  mul_self := notNegative_mul_self
  sqrt := notNegative_root
  of_lt := NotNegative.of_below
  excess hδ hne := notNegative_excess (by norm_num) hδ hne
  of_not_lt_tenth hne := notNegative_of_not_below (by norm_num) hne

end Extended

end LeastSquares
