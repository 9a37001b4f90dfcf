import LeastSquares.Proofs.Deferral

/-!
# Attempts at a deferred model call

Every question to an evaluation but that for its point reads residuals or Jacobian, and some read
them more than once. In a deferred evaluation each of these reads makes the model call if the values
are not known yet. `Query.inquiry` is a question with its reads one by one, in their order, each on
the evaluation as the one before it left it. `P.transcript` has a caller's questions one after the
other: each answer, and the calls that were made for it.

Results:
* `Query.inquiry_attempts`: a question makes one attempt at the model call, however often it reads;
* `Query.inquiry_after`: so it is answered as `Deferred.ask` says;
* `Problem.transcript_defers`: the law of a whole transcript, `Problem.Defers`;
* `Problem.defersCalls`: the evaluations of a problem with its model calls deferred.
-/

namespace LeastSquares

variable {α β γ σ : Type} {m n : Nat}

/-- What a caller does with an evaluation: an action on the evaluation and on the caller's state. -/
abbrev Inquiry (σ α : Type) (m n : Nat) : Type → Type := Act (Deferred α m n × σ) (Failure α)

namespace Inquiry

open Deferred

/-! ## Reads -/

section Reads

variable (compute : Compute σ α m n)

/-- The point. -/
def point : Inquiry σ α m n (Vec α n) := .ofFn fun (d, w) => (.ok d.point, d, w)

/-- Residuals and Jacobian, which are kept once they are found. -/
def values : Inquiry σ α m n (Vec α m × Mat α m n) :=
  .ofFn fun (d, w) =>
    match d.values with
    | some v => (.ok v, d, w)
    | none =>
      match (compute d.point).after w with
      | (.ok v, w) => (.ok v, { d with values := some v }, w)
      | (.error f, w) => (.error f, d, w)

def residuals : Inquiry σ α m n (Vec α m) := Prod.fst <$> values compute

def jacobian : Inquiry σ α m n (Mat α m n) := Prod.snd <$> values compute

/-- The number of observations, which is that of the residuals. -/
def observationSize : Inquiry σ α m n Nat := (fun _ => m) <$> residuals compute

variable [Scalar α]

def cost : Inquiry σ α m n α := Residuals.cost <$> residuals compute

def chiSquare : Inquiry σ α m n α := Residuals.chiSquare <$> residuals compute

/-- The cost is read first, then the number of observations. -/
def rms : Inquiry σ α m n α := do
  let c ← cost compute
  let size ← observationSize compute
  if size = 0 then Act.ofExcept (.error .divisionByZero)
  else return sqrt (c * c / (size : α))

/-- The message about missing degrees of freedom names the number of observations, which is read
again for it. -/
def reducedChiSquare (fitted : Number α) : Inquiry σ α m n α := do
  let freedom := Number.countLess (← observationSize compute) fitted
  if freedom.isNonpositive then
    Act.ofExcept (.error (.degreesOfFreedom (← observationSize compute) fitted))
  else return (← chiSquare compute) / freedom.value

def covariances (threshold : Number α) : Inquiry σ α m n (Mat α n n) := do
  Act.ofExcept (Jacobian.covariances (← jacobian compute) threshold)

def sigma (threshold : Number α) : Inquiry σ α m n (Vec α n) := do
  let C ← covariances compute threshold
  return Vec.ofFn fun i => sqrt (C i i)

/-- The sizes of point and residuals, and the cost. -/
def description : Inquiry σ α m n (Answer α) := do
  let _ ← point
  let size ← observationSize compute
  return .description n size (← cost compute)

end Reads

end Inquiry

/-- A question, with its reads. -/
def Query.inquiry [Scalar α] (compute : Deferred.Compute σ α m n) (q : Query α) :
    Inquiry σ α m n (Answer α) :=
  match q with
  | point => (fun p => .vector p.toList) <$> Inquiry.point
  | residuals => (fun r => .vector r.toList) <$> Inquiry.residuals compute
  | jacobian => (fun J => .matrix J.toLists) <$> Inquiry.jacobian compute
  | observationSize => .count <$> Inquiry.observationSize compute
  | cost => .number <$> Inquiry.cost compute
  | chiSquare => .number <$> Inquiry.chiSquare compute
  | rms => .number <$> Inquiry.rms compute
  | description => Inquiry.description compute
  | reducedChiSquare fitted => .number <$> Inquiry.reducedChiSquare compute fitted
  | covariances threshold => (fun C => .matrix C.toLists) <$> Inquiry.covariances compute threshold
  | sigma threshold => (fun s => .vector s.toList) <$> Inquiry.sigma compute threshold

/-! ## One attempt -/

namespace Inquiry

open Deferred

variable {compute : Compute σ α m n} {a : Inquiry σ α m n β}

/-- **One attempt** at the values is what the inquiry begins with. If that fails, it is the end, and
nothing is kept. Otherwise the inquiry goes on as one that begins with the values known. -/
def Attempts (compute : Compute σ α m n) (a : Inquiry σ α m n β) : Prop :=
  ∀ d w, a.after (d, w) = match (d.force compute).after w with
    | (.error f, w') => (.error f, d, w')
    | (.ok e, w') => a.after (.ofEvaluation e, w')

/-- What comes after the first read has no part in the attempt. -/
theorem Attempts.bind (ha : a.Attempts compute) (f : β → Inquiry σ α m n γ) :
    (a >>= f).Attempts compute := fun d w => by
  rw [Act.after_bind, ha d w]
  rcases (d.force compute).after w with ⟨x | e, w'⟩
  · rfl
  · exact (Act.after_bind a f _).symm

theorem Attempts.map (ha : a.Attempts compute) (f : β → γ) : (f <$> a).Attempts compute := by
  rw [map_eq_pure_bind]
  exact ha.bind _

/-- The point is read without an attempt. -/
theorem Attempts.point_bind (ha : a.Attempts compute) :
    (point >>= fun _ => a).Attempts compute := fun d w => by
  have hpoint (d : Deferred α m n) (w : σ) :
      (point >>= fun _ => a : Inquiry σ α m n β).after (d, w) = a.after (d, w) :=
    Act.after_bind _ _ _
  simp only [hpoint]
  exact ha d w

theorem attempts_values : (values compute).Attempts compute := fun d w => by
  obtain ⟨p, v⟩ := d
  unfold values force
  rw [Act.after_ofFn]
  cases v with
  | some v => rfl
  | none =>
    simp only
    rw [Act.after_bind]
    rcases (compute p).after w with ⟨f | v, w'⟩ <;> rfl

theorem attempts_residuals : (residuals compute).Attempts compute := attempts_values.map _

theorem attempts_observationSize : (observationSize compute).Attempts compute :=
  attempts_residuals.map _

/-! ## Known values -/

variable (e : Evaluation α m n) (w : σ)

theorem map_ofEvaluation {x : Except (Failure α) β}
    (h : a.after (.ofEvaluation e, w) = (x, .ofEvaluation e, w)) (f : β → γ) :
    (f <$> a).after (.ofEvaluation e, w) = (x.map f, .ofEvaluation e, w) := by
  rw [Act.after_map, h]

variable [Scalar α]

theorem rms_ofEvaluation :
    (rms compute).after (.ofEvaluation e, w) = (e.rms, .ofEvaluation e, w) := by
  unfold rms Evaluation.rms Residuals.rms
  rw [Act.after_bind]
  change (if m = 0 then _ else _ : Inquiry σ α m n α).after (.ofEvaluation e, w) = _
  split <;> rfl

theorem reducedChiSquare_ofEvaluation (fitted : Number α) :
    (reducedChiSquare compute fitted).after (.ofEvaluation e, w) =
      (Residuals.reducedChiSquare e.residuals fitted, .ofEvaluation e, w) := by
  unfold reducedChiSquare Residuals.reducedChiSquare
  rw [Act.after_bind]
  change (if (Number.countLess m fitted).isNonpositive then _ else _ : Inquiry σ α m n α).after
    (.ofEvaluation e, w) = _
  simp only
  split <;> rfl

theorem covariances_ofEvaluation (threshold : Number α) :
    (covariances compute threshold).after (.ofEvaluation e, w) =
      (Jacobian.covariances e.jacobian threshold, .ofEvaluation e, w) := by
  unfold covariances
  exact Act.after_bind _ _ _

theorem sigma_ofEvaluation (threshold : Number α) :
    (sigma compute threshold).after (.ofEvaluation e, w) =
      (Jacobian.sigma e.jacobian threshold, .ofEvaluation e, w) := by
  unfold sigma Jacobian.sigma
  rw [Act.after_bind, covariances_ofEvaluation]
  cases Jacobian.covariances e.jacobian threshold <;> rfl

end Inquiry

namespace Query

open Deferred Inquiry

variable [Scalar α] {compute : Compute σ α m n}

/-- **A question makes one attempt**, whichever read is its first. -/
theorem inquiry_attempts (compute : Compute σ α m n) {q : Query α} (h : q.isPoint = false) :
    (q.inquiry compute).Attempts compute := by
  have hresiduals : (Inquiry.residuals compute).Attempts compute := attempts_residuals
  have hsize : (Inquiry.observationSize compute).Attempts compute := attempts_observationSize
  cases q with
  | point => cases h
  | residuals => exact hresiduals.map _
  | jacobian => exact (attempts_values.map _).map _
  | observationSize => exact hsize.map _
  | cost => exact (hresiduals.map _).map _
  | chiSquare => exact (hresiduals.map _).map _
  | rms => exact ((hresiduals.map _).bind _).map _
  | description => exact (hsize.bind _).point_bind
  | reducedChiSquare fitted => exact (hsize.bind _).map _
  | covariances threshold => exact ((attempts_values.map _).bind _).map _
  | sigma threshold => exact (((attempts_values.map _).bind _).bind _).map _

/-- Once the values are known, every read finds them, and the answer is that of the evaluation. -/
theorem inquiry_ofEvaluation (q : Query α) (e : Evaluation α m n) (w : σ) :
    (q.inquiry compute).after (.ofEvaluation e, w) = (e.ask q, .ofEvaluation e, w) := by
  cases q with
  | rms => exact map_ofEvaluation e w (rms_ofEvaluation e w) _
  | reducedChiSquare fitted =>
    exact map_ofEvaluation e w (reducedChiSquare_ofEvaluation e w fitted) _
  | covariances threshold =>
    exact map_ofEvaluation e w (covariances_ofEvaluation e w threshold) _
  | sigma threshold => exact map_ofEvaluation e w (sigma_ofEvaluation e w threshold) _
  | _ => rfl

/-- **A question is answered** as by an evaluation that attempts its model call first. -/
theorem inquiry_after (compute : Compute σ α m n) (q : Query α) (d : Deferred α m n) (w : σ) :
    (q.inquiry compute).after (d, w) = d.ask compute q w := by
  by_cases h : q.isPoint = true
  · cases q with
    | point => rfl
    | _ => cases h
  rw [q.inquiry_attempts compute (Bool.eq_false_iff.mpr h)]
  unfold ask
  rw [if_neg h]
  rcases (d.force compute).after w with ⟨f | e, w'⟩
  · rfl
  · exact q.inquiry_ofEvaluation e w'

end Query

/-! ## The calls of a model evaluation -/

/-- The calls of one model evaluation. A value that fails is not followed by a Jacobian. -/
def Model.calls (model : Model σ α n) (p : Vec α n) (w : σ) : List (Entry α n) :=
  match model with
  | joint _ => [.both p]
  | split value _ =>
    match ((value p).after w).1 with
    | .error _ => [.value p]
    | .ok _ => [.value p, .jacobian p]

namespace Problem

variable (P : Problem σ α m n)

theorem journaled_call_after (p : Vec α n) (w : σ) (l : List (Entry α n)) :
    (P.journaled.model.call p).after (w, l) =
      (((P.model.call p).after w).1, ((P.model.call p).after w).2, l ++ P.model.calls p w) := by
  unfold journaled Model.journaled Model.call Model.calls
  cases P.model with
  | joint f => rfl
  | split value jacobian =>
    simp only [Act.after_bind, Act.entered, Act.after_ofFn]
    rcases (value p).after w with ⟨x | v, w₁⟩
    · rfl
    simp only [← List.append_cons l (.value p) [.jacobian p]]
    rcases (jacobian p).after w₁ with ⟨x | J, w₂⟩ <;> rfl

variable [Scalar α]

/-- A model evaluation adds its calls to the journal. -/
theorem journaled_compute_after (p : Vec α n) (w : σ) (l : List (Entry α n)) :
    (P.journaled.compute p).after (w, l) =
      (((P.compute p).after w).1, ((P.compute p).after w).2, l ++ P.model.calls p w) := by
  unfold compute
  simp only [Act.after_bind, Act.after_mapError, journaled_call_after]
  rcases (P.model.call p).after w with ⟨x | ⟨v, J⟩, w'⟩
  · rfl
  simp only [Except.mapError, Act.after_ofExcept]
  cases v.vector "model value" "model value" m with
  | error f => rfl
  | ok v =>
    simp only
    cases J.matrix "model jacobian" m n <;> rfl

end Problem

/-! ## Transcripts -/

/-- What the caller sees of one question: the answer, the state it leaves, and the calls of model
and Jacobian that were made for it. -/
structure Reply (σ α : Type) (n : Nat) where
  answer : Except (Failure α) (Answer α)
  state : σ
  calls : List (Entry α n)

namespace Problem

variable [Scalar α] (P : Problem σ α m n)

/-- A caller's questions to one evaluation, one after the other. Each is asked in the state that the
caller is in then, whatever has been done since the last one. -/
def transcript (P : Problem σ α m n) : Deferred α m n → List (σ × Query α) → List (Reply σ α n)
  | _, [] => []
  | d, (w, q) :: asked =>
    match (q.inquiry P.journaled.compute).after (d, w, []) with
    | (answer, d, w, calls) => ⟨answer, w, calls⟩ :: P.transcript d asked

/-- **The law of a deferred evaluation** at a point: the replies to questions that are asked while
its values are not known. -/
inductive Defers (p : Vec α n) : List (σ × Query α) → List (Reply σ α n) → Prop
  | done : Defers p [] []
  /-- The point is known without a call. -/
  | point {w : σ} {asked : List (σ × Query α)} {replies : List (Reply σ α n)}
      (h : Defers p asked replies) :
      Defers p ((w, .point) :: asked) (⟨.ok (.vector p.toList), w, []⟩ :: replies)
  /-- Any other question makes one model evaluation. If that fails, so does the question. -/
  | failed {w w' : σ} {q : Query α} {asked : List (σ × Query α)} {f : Failure α}
      {replies : List (Reply σ α n)} (hq : q.isPoint = false)
      (hc : (P.compute p).after w = (.error f, w')) (h : Defers p asked replies) :
      Defers p ((w, q) :: asked) (⟨.error f, w', P.model.calls p w⟩ :: replies)
  /-- If it does not fail, it is the last: this question and all later ones are answered by the
  evaluation that it found. -/
  | found {w w' : σ} {q : Query α} {asked : List (σ × Query α)} {r : Vec α m} {J : Mat α m n}
      (hq : q.isPoint = false) (hc : (P.compute p).after w = (.ok (r, J), w')) :
      Defers p ((w, q) :: asked) (⟨Evaluation.ask ⟨p, r, J⟩ q, w', P.model.calls p w⟩ ::
        asked.map fun (w, q) => ⟨Evaluation.ask ⟨p, r, J⟩ q, w, []⟩)

/-- An evaluation whose values are known makes no call. -/
theorem transcript_ofEvaluation (e : Evaluation α m n) (asked : List (σ × Query α)) :
    P.transcript (.ofEvaluation e) asked = asked.map fun (w, q) => ⟨e.ask q, w, []⟩ := by
  induction asked with
  | nil => rfl
  | cons x asked ih =>
    obtain ⟨w, q⟩ := x
    unfold transcript
    rw [q.inquiry_ofEvaluation]
    exact congrArg _ ih

/-- A question whose model call is outstanding, for the caller who keeps a journal. -/
theorem ask_journaled (p : Vec α n) {q : Query α} (hq : q.isPoint = false) (w : σ) :
    (⟨p, none⟩ : Deferred α m n).ask P.journaled.compute q (w, []) =
      match (P.compute p).after w with
      | (.error f, w') => (.error f, ⟨p, none⟩, w', P.model.calls p w)
      | (.ok (r, J), w') => (Evaluation.ask ⟨p, r, J⟩ q, .ofEvaluation ⟨p, r, J⟩, w',
          P.model.calls p w) := by
  unfold Deferred.ask Deferred.force
  rw [if_neg (hq ▸ Bool.false_ne_true), Act.after_bind, journaled_compute_after, List.nil_append]
  rcases (P.compute p).after w with ⟨f | ⟨r, J⟩, w'⟩ <;> rfl

/-- **Every transcript keeps the law.** -/
theorem transcript_defers (p : Vec α n) (asked : List (σ × Query α)) :
    P.Defers p asked (P.transcript ⟨p, none⟩ asked) := by
  -- a question that finds nothing leaves the evaluation as it was
  induction asked with
  | nil => exact .done
  | cons x asked ih =>
    obtain ⟨w, q⟩ := x
    unfold transcript
    rw [q.inquiry_after]
    cases hq : q.isPoint with
    | true =>
      cases q with
      | point => exact .point ih
      | _ => cases hq
    | false =>
      rw [P.ask_journaled p hq]
      rcases hc : (P.compute p).after w with ⟨f | ⟨r, J⟩, w'⟩
      · exact .failed hq hc ih
      · simp only [transcript_ofEvaluation]
        exact .found hq hc

/-- **The evaluations of a problem that defers its model calls.** -/
structure DefersCalls : Prop where
  /-- To get one, the validator is asked and nobody else. -/
  evaluate : ∀ p w, ((P.withDeferral true).evaluate p).after w =
    (((P.validate p).after w).1.map fun q => ⟨q, none⟩, ((P.validate p).after w).2)
  /-- A question is answered by its reads, one by one. -/
  ask : ∀ (d : Deferred α m n) (q : Query α) (w : σ),
    d.ask P.compute q w = (q.inquiry P.compute).after (d, w)
  defers : ∀ p asked, P.Defers p asked (P.transcript ⟨p, none⟩ asked)
  /-- One that is not deferred answers without calls from the start. -/
  known : ∀ e asked,
    P.transcript (.ofEvaluation e) asked = asked.map fun (w, q) => ⟨e.ask q, w, []⟩
  /-- Their descriptions differ in the name alone. -/
  described : ∀ parameters observations cost, ∃ text, ∀ deferred,
    describeEvaluation deferred parameters observations cost = evaluationKind deferred ++ text

/-- **Headline.** Questions to a deferred evaluation, in any number and order, make model calls
until one succeeds and never again. From then on they are answered by what it found, as those to an
evaluation that is not deferred. -/
theorem defersCalls : P.DefersCalls where
  evaluate := P.evaluate_withDeferral_true
  ask d q w := (q.inquiry_after P.compute d w).symm
  defers := P.transcript_defers
  known := P.transcript_ofEvaluation
  described parameters observations cost := by
    unfold describeEvaluation
    simp only [String.append_assoc]
    exact ⟨_, fun _ => rfl⟩

end Problem

end LeastSquares
