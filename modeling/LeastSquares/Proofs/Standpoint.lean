import LeastSquares.Proofs.Calls
import LeastSquares.Proofs.Descent
import LeastSquares.Proofs.RowExchanges
import LeastSquares.Proofs.Spectra

/-!
# Where a run stands, and what its checker is asked

A trial of the trust-region method moves the run to its evaluation if it is accepted, and leaves it
where it stood if it is not. `standpoint e₀ ts` is where a run that began at `e₀` stands after the
trials `ts`. `Run.Chained` says that a run keeps to it: every trial is made there, with the cost and
the point of that evaluation, the run returns it, and the checker is asked once about every accepted
trial, each time with the evaluation that the last question was about. The Gauss-Newton method has
no trials to reject: its checker is asked about every two consecutive evaluations
(`GaussNewton.Run.Chained`).

All of this holds whatever the operations of the arithmetic return. Of its comparisons one rule is
used: that a number is at most another one excludes that it is above it.

Results:
* `LevenbergMarquardt.Runs.chained`, `GaussNewton.Runs.chained`: every run is such;
* `optimizers_chained`: so is what the optimizers do with a problem.
-/

namespace LeastSquares

variable {α σ : Type} {m n : Nat}

/-! ## The trust-region method -/

namespace LevenbergMarquardt

variable [Scalar α]

/-- Where a run that began at `e` stands after trials: at the last one that was accepted. -/
def standpoint (e : Evaluation α m n) (ts : List (Trial α m n)) : Evaluation α m n :=
  (ts.filterMap Trial.accepted?).getLast?.getD e

theorem standpoint_cons (e : Evaluation α m n) (t : Trial α m n) (ts : List (Trial α m n)) :
    standpoint e (t :: ts) = standpoint (t.accepted?.getD e) ts := by
  unfold standpoint
  cases ht : t.accepted? with
  | none => rw [List.filterMap_cons_none ht, Option.getD_none]
  | some e' => rw [List.filterMap_cons_some ht, List.getLast?_cons, Option.getD_some,
      Option.getD_some]

theorem standpoint_concat (e : Evaluation α m n) (ts : List (Trial α m n)) (t : Trial α m n) :
    standpoint e (ts ++ [t]) = t.accepted?.getD (standpoint e ts) := by
  unfold standpoint
  rw [List.filterMap_append]
  cases ht : t.accepted? with
  | none => rw [List.filterMap_cons_none ht, List.filterMap_nil, List.append_nil, Option.getD_none]
  | some e' => rw [List.filterMap_cons_some ht, List.filterMap_nil, List.getLast?_concat,
      Option.getD_some, Option.getD_some]

/-- **A trial of a run that stands at `e`**, made from the caller's state `w`. -/
structure Trial.Stands (P : Problem σ α m n) (e : Evaluation α m n) (w : σ) (t : Trial α m n) :
    Prop where
  base_eq : t.search.base = e
  /-- Cost and point are those of the evaluation. -/
  standing_eq : t.search.standing = .ofEvaluation e
  /-- So they are after the trial, at the evaluation it leaves the run at. -/
  after_eq : ∀ a v, t.progress = .made a v →
    t.search.standingAfter a = .ofEvaluation (t.accepted?.getD e)
  /-- The evaluation and the verdict are what the caller answered. -/
  answered : ∀ a v, t.progress = .made a v → ∃ w₁,
    (P.evaluation t.proposal.point).after w = (.ok a.evaluation, w₁) ∧
      v = (t.question? P).bind fun q =>
        ((P.consult q.iteration q.previous q.current).after w₁).1.toOption.join

/-- **A run that keeps to where it stands**, from `e₀` and the caller's state `w` on. -/
structure Run.Chained (P : Problem σ α m n) (e₀ : Evaluation α m n) (w : σ) (r : Run σ α m n) :
    Prop where
  stands : ∀ ts t rest, r.trials = ts ++ t :: rest →
    t.Stands P (standpoint e₀ ts) (P.replay (ts.flatMap (Trial.calls P)) w)
  result : ∀ found, r.result = .ok found → found.evaluation = standpoint e₀ r.trials
  /-- The checker, if there is one, is asked about the accepted trials. -/
  asked : (r.questions P).map Question.current = if P.checker.isSome then r.accepted else []
  /-- A question compares with what the one before it was about, the first one with `e₀`. -/
  linked : (r.questions P).map Question.previous =
    (e₀ :: (r.questions P).map Question.current).dropLast
  numbered : (r.questions P).Pairwise fun q q' => q.iteration < q'.iteration
  /-- A verdict to stop ends the run at the evaluation it is about. -/
  stops : ∀ ts t rest a, r.trials = ts ++ t :: rest → t.progress = .made a (some true) →
    rest = [] ∧ ∃ found, r.result = .ok found ∧ found.evaluation = a.evaluation ∧
      found.iterations = t.iteration

variable {o : Options α} {P : Problem σ α m n} {left used iteration : Nat} {s : Search α m n}
  {w w₁ w' : σ} {e e₀ : Evaluation α m n} {v : Option Bool} {r : Run σ α m n}

/-- What holds where a run begins, and of every evaluation of a trial that is made where it holds,
holds wherever the run stands. -/
theorem Run.Chained.of_standpoint (h : r.Chained P e₀ w) {p : Evaluation α m n → Prop} (h₀ : p e₀)
    (hstep : ∀ t ∈ r.trials, p t.search.base → ∀ a v, t.progress = .made a v → p a.evaluation)
    {ts rest : List (Trial α m n)} (heq : r.trials = ts ++ rest) : p (standpoint e₀ ts) := by
  induction ts using List.reverseRecOn generalizing rest with
  | nil => exact h₀
  | append_singleton ts t ih =>
    rw [List.append_assoc, List.singleton_append] at heq
    have hbase : p t.search.base := (h.stands ts t rest heq).base_eq ▸ ih heq
    rw [standpoint_concat]
    cases ht : t.accepted? with
    | none => exact ih heq
    | some e =>
      obtain ⟨a, v, hp, -, rfl⟩ := Trial.made_of_accepted? ht
      exact hstep t (heq ▸ List.mem_append_right ts List.mem_cons_self) hbase a v hp

/-- So it holds of the base of every trial. -/
theorem Run.Chained.of_base (h : r.Chained P e₀ w) {p : Evaluation α m n → Prop} (h₀ : p e₀)
    (hstep : ∀ t ∈ r.trials, p t.search.base → ∀ a v, t.progress = .made a v → p a.evaluation)
    {t : Trial α m n} (ht : t ∈ r.trials) : p t.search.base := by
  obtain ⟨ts, rest, heq⟩ := List.append_of_mem ht
  exact (h.stands ts t rest heq).base_eq ▸ h.of_standpoint h₀ hstep heq

/-! ### Parts of a run -/

theorem chained_error (f : Failure α) : (Run.ending (.error f) w : Run σ α m n).Chained P e₀ w where
  stands ts t rest h :=
    absurd h.symm (List.append_ne_nil_of_right_ne_nil ts (List.cons_ne_nil t rest))
  result _ h := by cases h
  asked := by split <;> rfl
  linked := rfl
  numbered := .nil
  stops ts t rest _ h :=
    absurd h.symm (List.append_ne_nil_of_right_ne_nil ts (List.cons_ne_nil t rest))

theorem chained_ok (evaluations iterations : Nat) :
    (Run.ending (.ok ⟨e₀, evaluations, iterations⟩) w : Run σ α m n).Chained P e₀ w where
  stands ts t rest h :=
    absurd h.symm (List.append_ne_nil_of_right_ne_nil ts (List.cons_ne_nil t rest))
  result found h := by
    cases h
    rfl
  asked := by split <;> rfl
  linked := rfl
  numbered := .nil
  stops ts t rest _ h :=
    absurd h.symm (List.append_ne_nil_of_right_ne_nil ts (List.cons_ne_nil t rest))

theorem Run.Chained.begunAt (h : r.Chained P e₀ w) (e : Evaluation α m n) :
    (r.begunAt e).Chained P e₀ w :=
  ⟨h.stands, h.result, h.asked, h.linked, h.numbered, h.stops⟩

omit [Scalar α] in
/-- What is proved of the trials of a run is proved of its first one and of those that follow. -/
theorem of_split {p : List (Trial α m n) → Trial α m n → List (Trial α m n) → Prop}
    {t₀ : Trial α m n} {l : List (Trial α m n)} (h₀ : p [] t₀ l)
    (h : ∀ ts t rest, l = ts ++ t :: rest → p (t₀ :: ts) t rest) :
    ∀ ts t rest, t₀ :: l = ts ++ t :: rest → p ts t rest := by
  intro ts t rest heq
  cases ts with
  | nil =>
    obtain ⟨rfl, rfl⟩ := List.cons.inj heq
    exact h₀
  | cons t' ts =>
    obtain ⟨rfl, htail⟩ := List.cons.inj heq
    exact h ts t rest htail

theorem Run.questions_after (t : Trial α m n) (r : Run σ α m n) :
    (r.after t).questions P = (t.question? P).toList ++ r.questions P := by
  change (t :: r.trials).filterMap _ = _
  rw [List.filterMap_cons]
  cases t.question? P <;> rfl

/-- The question about a trial: about its evaluation, if that was accepted, and its base. -/
theorem Trial.question?_eq (t : Trial α m n) : t.question? P =
    if P.checker.isSome then t.accepted?.map fun e => ⟨t.iteration, t.search.base, e⟩
    else none := by
  unfold Trial.question? Trial.accepted?
  cases t.progress with
  | unaffordable => cases P.checker.isSome <;> rfl
  | failed => cases P.checker.isSome <;> rfl
  | made a v =>
    dsimp only
    cases a.isAccepted <;> cases P.checker.isSome <;> rfl

/-- **A trial before a run** that goes on from where the trial leaves it. -/
theorem Run.Chained.after_trial {t : Trial α m n} (h : r.Chained P (t.accepted?.getD e) w')
    (ht : t.Stands P e w) (hw : P.replay (t.calls P) w = w')
    (hq : ∀ q, t.question? P = some q → ∀ q' ∈ r.questions P, q.iteration < q'.iteration)
    (hstop : ∀ a, t.progress = .made a (some true) → r.trials = [] ∧
      ∃ found, r.result = .ok found ∧ found.evaluation = a.evaluation ∧
        found.iterations = t.iteration) : (r.after t).Chained P e w where
  stands := by
    refine of_split ht fun ts t' rest heq => ?_
    rw [standpoint_cons, List.flatMap_cons, Problem.replay_append, hw]
    exact h.stands ts t' rest heq
  result found hf := (h.result found hf).trans (standpoint_cons e t r.trials).symm
  asked := by
    have haccepted : (r.after t).accepted = t.accepted?.toList ++ r.accepted := by
      change (t :: r.trials).filterMap _ = _
      rw [List.filterMap_cons]
      cases t.accepted? <;> rfl
    rw [Run.questions_after, List.map_append, h.asked, haccepted, Trial.question?_eq]
    cases P.checker.isSome with
    | false => rfl
    | true => cases t.accepted? <;> rfl
  linked := by
    have hasked := h.asked
    have hlinked := h.linked
    rw [Run.questions_after, List.map_append, List.map_append, hlinked, Trial.question?_eq]
    cases hc : P.checker.isSome with
    | false =>
      rw [hc, if_neg Bool.false_ne_true] at hasked
      rw [hasked]
      rfl
    | true =>
      cases haccepted : t.accepted? with
      | none => rfl
      | some e' =>
        change t.search.base :: (e' :: _).dropLast = (e :: e' :: _).dropLast
        rw [ht.base_eq]
        rfl
  numbered := by
    rw [Run.questions_after]
    cases hquestion : t.question? P with
    | none => exact h.numbered
    | some q => exact List.pairwise_cons.mpr ⟨hq q hquestion, h.numbered⟩
  stops ts t' rest a heq := of_split (p := fun _ t' rest => t'.progress = .made a (some true) →
      rest = [] ∧ ∃ found, (r.after t).result = .ok found ∧ found.evaluation = a.evaluation ∧
        found.iterations = t'.iteration)
    (hstop a) (fun ts t' rest heq => h.stops ts t' rest a heq) ts t' rest heq

/-! ### Runs -/

/-- A run that goes on after a judged trial does so from where the trial leaves it. -/
theorem Search.standingAfter_eq (hs : s.standing = .ofEvaluation s.base) (iteration : Nat)
    (e : Evaluation α m n) (v : Option Bool) : s.standingAfter (s.assess s.propose e) =
      .ofEvaluation ((s.trial iteration e v).accepted?.getD s.base) := by
  have haccepted : (s.trial iteration e v).accepted? =
      if (s.assess s.propose e).isAccepted then some e else none := rfl
  rw [haccepted, Search.standingAfter, hs]
  cases (s.assess s.propose e).isAccepted <;> rfl

/-- A judged trial is one of a run that stands at its base. -/
theorem Search.trial_stands (hs : s.standing = .ofEvaluation s.base)
    (he : (P.evaluation s.propose.point).after w = (.ok e, w₁))
    (hv : v = ((s.consult P iteration e).after w₁).1.toOption.join) :
    (s.trial iteration e v).Stands P s.base w where
  base_eq := rfl
  standing_eq := hs
  after_eq a v' ha := by
    cases ha
    exact s.standingAfter_eq hs iteration e v
  answered a v' ha := by
    cases ha
    refine ⟨w₁, he, hv.trans ?_⟩
    have hquestion : (s.trial iteration e v).question? P =
        if (s.assess s.propose e).isAccepted && P.checker.isSome
        then some ⟨iteration, s.base, e⟩ else none := rfl
    rw [hquestion, Search.consult]
    cases (s.assess s.propose e).isAccepted with
    | false => rfl
    | true =>
      cases hc : P.checker with
      | none =>
        unfold Problem.consult
        rw [hc]
        rfl
      | some c => rfl

/-- A verdict is one on an accepted trial, and a run stops there if it says so. -/
theorem Judges.outcome_eq_stop (hj : Judges P iteration s w e (some true) w') :
    s.outcome o e (some true) = .stop e ∧ (s.trial iteration e (some true)).accepted? = some e := by
  obtain ⟨w₁, -, hc⟩ := hj
  unfold Search.consult at hc
  by_cases ha : (s.assess s.propose e).isAccepted = true
  · refine ⟨?_, if_pos ha⟩
    have hstanding : (s.standingAfter (s.assess s.propose e)).evaluation = e := by
      rw [Search.standingAfter, if_pos ha]
      rfl
    unfold Search.outcome Search.next
    simp only [ha, hstanding]
    rfl
  · rw [if_neg ha] at hc
    cases hc

/-- A trial is retried only if it was not accepted. -/
theorem Search.accepted?_of_retry
    (hle : ∀ ratio : α, acceptRatio ≤ ratio → ¬ ratio < acceptRatio) {s' : Search α m n}
    (hn : s.outcome o e v = .retry s') (iteration : Nat) :
    (s.trial iteration e v).accepted? = none ∧
      s'.base = s.base ∧ s'.standing = s.standingAfter (s.assess s.propose e) := by
  obtain ⟨-, hlt, rfl⟩ := Search.of_outcome_eq_retry hn
  refine ⟨if_neg fun ha => ?_, rfl, rfl⟩
  exact hle _ (of_decide_eq_true ha) hlt

/-- A retried search stands where the one before it did. -/
theorem Search.stands_of_retry
    (hle : ∀ ratio : α, acceptRatio ≤ ratio → ¬ ratio < acceptRatio) {s' : Search α m n}
    (hs : s.standing = .ofEvaluation s.base) (hn : s.outcome o e v = .retry s') :
    s'.standing = .ofEvaluation s'.base := by
  obtain ⟨haccepted, hbase, hstanding⟩ := Search.accepted?_of_retry hle hn 0
  rw [hstanding, s.standingAfter_eq hs 0 e v, haccepted, hbase]
  rfl

/-- The next outer iteration begins at the evaluation where the trial leaves the run. -/
theorem Search.standing_of_renew {st : Standing α m n} {rg : Region α n}
    (hs : s.standing = .ofEvaluation s.base) (hn : s.outcome o e v = .renew st rg)
    (iteration : Nat) : st = .ofEvaluation ((s.trial iteration e v).accepted?.getD s.base) := by
  obtain ⟨-, -, rfl, -⟩ := Search.of_outcome_eq_renew hn
  exact s.standingAfter_eq hs iteration e v

/-- The questions of a run are those of its outer iterations. -/
theorem Runs.le_iteration (h : Runs o P left used iteration s w r) :
    ∀ q ∈ r.questions P, iteration ≤ q.iteration := by
  have hafter {iteration : Nat} {t : Trial α m n} {r : Run σ α m n} (ht : t.iteration = iteration)
      (hr : ∀ q ∈ r.questions P, iteration ≤ q.iteration) :
      ∀ q ∈ (r.after t).questions P, iteration ≤ q.iteration := by
    intro q hq
    rw [Run.questions_after, List.mem_append, Option.mem_toList, Trial.question?_eq] at hq
    rcases hq with hq | hq
    · obtain ⟨-, hq⟩ := Option.ite_none_right_eq_some.mp hq
      obtain ⟨e, -, rfl⟩ := Option.map_eq_some_iff.mp hq
      exact ht.ge
    · exact hr q hq
  have hnone {iteration : Nat} {q : Question α m n} (hq : q ∈ ([] : List (Question α m n))) :
      iteration ≤ q.iteration := absurd hq List.not_mem_nil
  induction h with
  | exhausted | failed | unanswered | stopped | stuck | overdue | undecomposed | orthogonal =>
    exact hafter rfl fun _ => hnone
  | retried _ _ _ ih => exact hafter rfl ih
  | renewed _ _ _ _ _ _ ih => exact hafter rfl fun q hq => (Nat.le_succ _).trans (ih q hq)

/-- A judged trial before a run that goes on from where it leaves the run. -/
theorem Judges.chained (o : Options α) (hj : Judges P iteration s w e v w')
    (hs : s.standing = .ofEvaluation s.base)
    (hr : r.Chained P ((s.trial iteration e v).accepted?.getD s.base) w')
    (hq : (s.trial iteration e v).accepted? = none ∨ ∀ q ∈ r.questions P, iteration < q.iteration)
    (hstop : s.outcome o e v = .stop e → v = some true → r.trials = [] ∧
      ∃ found, r.result = .ok found ∧ found.evaluation = e ∧ found.iterations = iteration) :
    (r.after (s.trial iteration e v)).Chained P s.base w := by
  have hreplay : P.replay ((s.trial iteration e v).calls P) w = w' := by
    obtain ⟨w₁, he, hc⟩ := hj
    rw [Search.replay_trial he, hc]
  have hstands : (s.trial iteration e v).Stands P s.base w := by
    obtain ⟨w₁, he, hc⟩ := hj
    exact Search.trial_stands hs he (by rw [hc]; rfl)
  refine hr.after_trial hstands hreplay (fun q hquestion q' hq' => ?_) fun a ha => ?_
  · rw [Trial.question?_eq] at hquestion
    obtain ⟨-, hquestion⟩ := Option.ite_none_right_eq_some.mp hquestion
    obtain ⟨e', haccepted, rfl⟩ := Option.map_eq_some_iff.mp hquestion
    rcases hq with hnone | hq
    · cases haccepted.symm.trans hnone
    · exact hq q' hq'
  · cases ha
    exact hstop hj.outcome_eq_stop.1 rfl

/-- A trial without an evaluation leaves the run where it stands. -/
theorem Run.Chained.after_unmade {t : Trial α m n} (h : r.Chained P s.base w')
    (hs : s.standing = .ofEvaluation s.base) (ht : t.search = s)
    (hmade : ∀ a v, t.progress ≠ .made a v) (hw : P.replay (t.calls P) w = w') :
    (r.after t).Chained P s.base w := by
  subst ht
  have haccepted : t.accepted? = none := by
    unfold Trial.accepted?
    cases hp : t.progress with
    | unaffordable | failed => rfl
    | made a v => exact absurd hp (hmade a v)
  have hstands : t.Stands P t.search.base w :=
    ⟨rfl, hs, fun a v hp => absurd hp (hmade a v), fun a v hp => absurd hp (hmade a v)⟩
  refine Run.Chained.after_trial (by rwa [haccepted]) hstands hw ?_ fun a ha =>
    absurd ha (hmade a _)
  intro q hquestion
  rw [Trial.question?_eq, haccepted] at hquestion
  obtain ⟨-, hquestion⟩ := Option.ite_none_right_eq_some.mp hquestion
  cases hquestion

/-- **Every run** from a search that stands at its base is chained. -/
theorem Runs.chained (hle : ∀ ratio : α, acceptRatio ≤ ratio → ¬ ratio < acceptRatio)
    (h : Runs o P left used iteration s w r)
    (hs : s.standing = .ofEvaluation s.base) : r.Chained P s.base w := by
  -- a run that ends with its first trial has no questions after it
  have hlast {iteration : Nat} {q : Question α m n} (hq : q ∈ ([] : List (Question α m n))) :
      iteration < q.iteration := absurd hq List.not_mem_nil
  induction h with
  | exhausted used iteration s w =>
    exact Run.Chained.after_unmade (chained_error _) hs rfl (fun _ _ h => by cases h) rfl
  | failed he =>
    exact Run.Chained.after_unmade (chained_error _) hs rfl (fun _ _ h => by cases h)
      (congrArg Prod.snd he)
  | @unanswered left used iteration s w e w₁ f w' he hc =>
    have hstands := Search.trial_stands (v := none) hs he (by rw [hc]; rfl)
    have hreplay : P.replay ((s.trial iteration e none).calls P) w = w' := by
      rw [Search.replay_trial he, hc]
    exact (chained_error f).after_trial hstands hreplay (fun _ _ _ => hlast) fun a ha => by cases ha
  | @stopped left used iteration s w e v w' e' hj hn =>
    have hstanding := s.standingAfter_eq hs iteration e v
    obtain rfl := Search.of_outcome_eq_stop hn
    rw [hstanding] at hn ⊢
    refine hj.chained o hs (chained_ok _ _) (.inr fun _ => hlast) fun hstop _ => ?_
    exact ⟨rfl, _, rfl, Next.stop.inj (hn.symm.trans hstop), rfl⟩
  | stuck hj hn =>
    refine hj.chained o hs (chained_error _) (.inr fun _ => hlast) fun hstop _ => ?_
    cases hn.symm.trans hstop
  | @retried left used iteration s w e v w' s' r hj hn hr ih =>
    obtain ⟨haccepted, hbase, -⟩ := Search.accepted?_of_retry hle hn iteration
    have hchained : r.Chained P ((s.trial iteration e v).accepted?.getD s.base) w' := by
      rw [haccepted, Option.getD_none, ← hbase]
      exact ih (Search.stands_of_retry hle hs hn)
    refine hj.chained o hs hchained (.inl haccepted) fun hstop _ => ?_
    cases hn.symm.trans hstop
  | overdue hj hn hi =>
    refine hj.chained o hs (chained_error _) (.inr fun _ => hlast) fun hstop _ => ?_
    cases hn.symm.trans hstop
  | undecomposed hj hn hi hc =>
    refine hj.chained o hs ((chained_error _).begunAt _) (.inr fun _ => hlast) fun hstop _ => ?_
    cases hn.symm.trans hstop
  | @orthogonal left used iteration s w e v w' st rg s' hj hn hi hc hmax =>
    obtain rfl := Search.standing_of_renew hs hn iteration
    refine hj.chained o hs ((chained_ok _ _).begunAt _) (.inr fun _ => hlast) fun hstop _ => ?_
    cases hn.symm.trans hstop
  | @renewed left used iteration s w e v w' st rg s' r hj hn hi hc hmax hr ih =>
    obtain rfl := Search.standing_of_renew hs hn iteration
    obtain ⟨d, -, rfl⟩ := Search.of_start_eq_ok hc
    refine hj.chained o hs ((ih rfl).begunAt _) (.inr hr.le_iteration) fun hstop _ => ?_
    cases hn.symm.trans hstop

/-! ### Courses -/

/-- The evaluations that a course makes, in order: that of its start point and those of its trials,
accepted or not. -/
def Course.found (c : Course σ α m n) : List (Evaluation α m n) :=
  c.start.found?.toList ++ c.trials.filterMap fun t => t.progress.found?.map Assessment.evaluation

omit [Scalar α] in
theorem Course.mem_found {c : Course σ α m n} {t : Trial α m n} (ht : t ∈ c.trials)
    {a : Assessment α m n} {v : Option Bool} (hp : t.progress = .made a v) :
    a.evaluation ∈ c.found :=
  List.mem_append_right _ (List.mem_filterMap.mpr ⟨t, ht, by rw [hp]; rfl⟩)

omit [Scalar α] in
/-- The evaluations of a course are that of its start point and those of its trials. -/
theorem Course.of_mem_found {c : Course σ α m n} {e : Evaluation α m n} (h : e ∈ c.found) :
    c.start.found? = some e ∨ ∃ t ∈ c.trials, ∃ a v, t.progress = .made a v ∧ a.evaluation = e := by
  rcases List.mem_append.mp h with h | h
  · exact .inl (Option.mem_toList.mp h)
  · obtain ⟨t, ht, he⟩ := List.mem_filterMap.mp h
    cases hp : t.progress with
    | unaffordable | failed =>
      rw [hp] at he
      cases he
    | made a v =>
      rw [hp] at he
      exact .inr ⟨t, ht, a, v, hp, Option.some.inj he⟩

/-- **A course that keeps to where it stands**, from the caller's state `w` on. -/
structure Course.Chained (P : Problem σ α m n) (w : σ) (c : Course σ α m n) : Prop where
  /-- No calls are made but those of its start point and its trials. -/
  state_eq : c.state = P.replay (c.calls P) w
  unbegun : c.start.found? = none → c.trials = [] ∧ ∃ f, c.result = .error f
  begun : ∀ e₀, c.start.found? = some e₀ → ∃ w₁,
    (P.evaluation P.start).after w = (.ok e₀, w₁) ∧ c.toRun.Chained P e₀ w₁

/-- **Every course** is chained. -/
theorem Courses.chained (hle : ∀ ratio : α, acceptRatio ≤ ratio → ¬ ratio < acceptRatio)
    {o : Options (Number α)}
    {c : Course σ α m n} (h : Courses o P w c) : c.Chained P w := by
  have hbegun {e₀ e : Evaluation α m n} {w₁ : σ} {r : Run σ α m n}
      (he : (P.evaluation P.start).after w = (.ok e₀, w₁)) (hr : r.Chained P e₀ w₁)
      (hfound : some e₀ = some e) :
      ∃ w₁, (P.evaluation P.start).after w = (.ok e, w₁) ∧ r.Chained P e w₁ := by
    obtain rfl := Option.some.inj hfound
    exact ⟨w₁, he, hr⟩
  refine ⟨h.state_eq, fun hnone => ?_, fun e hsome => ?_⟩
  · cases h with
    | refused | failed => exact ⟨rfl, _, rfl⟩
    | infinite | undecomposed | orthogonal | begun => cases hnone
  · cases h with
    | refused | failed => cases hsome
    | infinite _ _ he _ => exact hbegun he (chained_error _) hsome
    | undecomposed _ _ he _ _ => exact hbegun he ((chained_error _).begunAt _) hsome
    | orthogonal _ _ he _ _ _ => exact hbegun he ((chained_ok 1 1).begunAt _) hsome
    | begun _ _ he _ hs _ hr =>
      obtain ⟨d, -, rfl⟩ := Search.of_start_eq_ok hs
      exact hbegun he ((hr.chained hle rfl).begunAt _) hsome

end LevenbergMarquardt

/-! ## The Gauss-Newton method -/

namespace GaussNewton

/-- The questions about every two consecutive evaluations, the first one in iteration `k`. -/
def consecutive (k : Nat) : List (Evaluation α m n) → List (Question α m n)
  | e :: e' :: es => ⟨k, e, e'⟩ :: consecutive (k + 1) (e' :: es)
  | _ => []

/-- The evaluations of a run, in order. -/
def Run.found (r : Run σ α m n) : List (Evaluation α m n) :=
  r.visits.filterMap fun v => v.progress.found?

theorem Run.found_after (v : Visit α m n) (r : Run σ α m n) :
    (r.after v).found = v.progress.found?.toList ++ r.found := by
  change (v :: r.visits).filterMap _ = _
  rw [List.filterMap_cons]
  cases v.progress.found? <;> rfl

variable [Spectral α]

/-- **An iteration after `done` others** whose last evaluation was `previous`, from the caller's
state `w` on. -/
structure Visit.Follows (method : Option Method) (P : Problem σ α m n) (done : Nat)
    (previous : Option (Evaluation α m n)) (w : σ) (v : Visit α m n) : Prop where
  iteration_eq : v.iteration = done + 1
  previous_eq : v.previous = previous
  /-- The evaluation and the verdict are what the caller answered. -/
  answered : ∀ e verdict, v.progress = .made e verdict → ∃ w₁,
    (P.evaluation (pointAfter method P previous)).after w = (.ok e, w₁) ∧
      verdict = v.question?.bind fun q =>
        ((P.consult q.iteration q.previous q.current).after w₁).1.toOption.join

/-- **A run that asks about consecutive evaluations**, after `done` iterations, the last of which
was evaluated to `previous`, and from the caller's state `w` on. -/
structure Run.Chained (method : Option Method) (P : Problem σ α m n) (done : Nat)
    (previous : Option (Evaluation α m n)) (w : σ) (r : Run σ α m n) : Prop where
  follows : ∀ vs v rest, r.visits = vs ++ v :: rest →
    v.Follows method P (done + vs.length)
      ((vs.filterMap fun v => v.progress.found?).getLast?.or previous)
      (P.replay (vs.flatMap (Visit.calls method P)) w)
  /-- The first evaluation of all has none to be compared with. -/
  asked : r.questions = match previous with
    | none => consecutive (done + 2) r.found
    | some p => consecutive (done + 1) (p :: r.found)
  /-- A verdict to stop ends the run at the evaluation it is about. -/
  stops : ∀ vs v rest e, r.visits = vs ++ v :: rest → v.progress = .made e (some true) →
    rest = [] ∧ r.result = .ok ⟨e, v.iteration, v.iteration⟩
  /-- Nothing else makes a run return. -/
  result : ∀ found, r.result = .ok found →
    ∃ v ∈ r.visits, v.progress = .made found.evaluation (some true)

variable {method : Option Method} {c : Checker σ α} {P : Problem σ α m n}
  {iterations evaluations done : Nat} {previous : Option (Evaluation α m n)} {point : Vec α n}
  {w w₁ w' : σ} {e : Evaluation α m n} {v : Visit α m n} {verdict : Option Bool} {r : Run σ α m n}

/-! ### Parts of a run -/

theorem chained_error (f : Failure α) :
    (Run.ending (.error f) w : Run σ α m n).Chained method P done previous w where
  follows vs v rest h :=
    absurd h.symm (List.append_ne_nil_of_right_ne_nil vs (List.cons_ne_nil v rest))
  asked := by cases previous <;> rfl
  stops vs v rest _ h :=
    absurd h.symm (List.append_ne_nil_of_right_ne_nil vs (List.cons_ne_nil v rest))
  result _ h := by cases h

omit [Spectral α] in
/-- Nothing comes before the first iteration and after the last one of a run that makes one. -/
theorem of_singleton {v v' : Visit α m n} {vs rest : List (Visit α m n)}
    (h : [v] = vs ++ v' :: rest) : vs = [] ∧ v' = v ∧ rest = [] := by
  cases vs with
  | nil =>
    obtain ⟨rfl, rfl⟩ := List.cons.inj h
    exact ⟨rfl, rfl, rfl⟩
  | cons v'' vs =>
    obtain ⟨-, htail⟩ := List.cons.inj h
    exact absurd htail.symm (List.append_ne_nil_of_right_ne_nil vs (List.cons_ne_nil v' rest))

/-- A run of one iteration. -/
theorem Visit.Follows.chained (hv : v.Follows method P done previous w)
    {result : Except (Failure α) (Optimum α m n)}
    (hstop : ∀ e, v.progress = .made e (some true) → result = .ok ⟨e, done + 1, done + 1⟩)
    (hresult : ∀ found, result = .ok found → v.progress = .made found.evaluation (some true)) :
    ((Run.ending result w').after v).Chained method P done previous w where
  follows vs v' rest h := by
    obtain ⟨rfl, rfl, -⟩ := of_singleton h
    exact hv
  asked := by
    have hprevious := hv.previous_eq
    have hiteration := hv.iteration_eq
    have hquestions : ((Run.ending result w').after v).questions = v.question?.toList := by
      change [v].filterMap _ = _
      rw [List.filterMap_cons]
      cases v.question? <;> rfl
    have hfound : ((Run.ending result w').after v).found = v.progress.found?.toList :=
      (Run.found_after v _).trans (List.append_nil _)
    rw [hquestions, hfound]
    unfold Visit.question?
    rw [hprevious, hiteration]
    cases v.progress <;> cases previous <;> rfl
  stops vs v' rest e h hp := by
    obtain ⟨-, rfl, rfl⟩ := of_singleton h
    rw [hv.iteration_eq]
    exact ⟨rfl, hstop e hp⟩
  result found hf := ⟨v, List.mem_singleton_self v, hresult found hf⟩

/-- **An iteration before a run** that goes on from its evaluation. -/
theorem Visit.Follows.chained_after (hv : v.Follows method P done previous w)
    (hp : v.progress = .made e verdict) (hne : verdict ≠ some true)
    (hw : P.replay (v.calls method P) w = w') (h : r.Chained method P (done + 1) (some e) w') :
    (r.after v).Chained method P done previous w where
  follows vs v' rest heq := by
    cases vs with
    | nil =>
      obtain ⟨rfl, -⟩ := List.cons.inj heq
      exact hv
    | cons v'' vs =>
      obtain ⟨rfl, htail⟩ := List.cons.inj heq
      have hfollows := h.follows vs v' rest htail
      have hlast : ((v :: vs).filterMap fun v => v.progress.found?).getLast?.or previous =
          (vs.filterMap fun v => v.progress.found?).getLast?.or (some e) := by
        rw [List.filterMap_cons_some (by rw [hp]; rfl), List.getLast?_cons]
        cases (vs.filterMap fun v => v.progress.found?).getLast? <;> rfl
      rw [hlast, List.flatMap_cons, Problem.replay_append, hw, List.length_cons,
        ← Nat.add_assoc, Nat.add_right_comm]
      exact hfollows
  asked := by
    have hquestion : v.question? = previous.map fun p => ⟨done + 1, p, e⟩ := by
      unfold Visit.question?
      rw [hp, hv.previous_eq, hv.iteration_eq]
    have hfound : (r.after v).found = e :: r.found := by
      rw [Run.found_after, hp]
      rfl
    have hquestions : (r.after v).questions = v.question?.toList ++ r.questions := by
      change (v :: r.visits).filterMap _ = _
      rw [List.filterMap_cons]
      cases v.question? <;> rfl
    rw [hquestions, hquestion, h.asked, hfound]
    cases previous <;> rfl
  stops vs v' rest e' heq hp' := by
    cases vs with
    | nil =>
      obtain ⟨rfl, -⟩ := List.cons.inj heq
      cases hp.symm.trans hp'
      exact absurd rfl hne
    | cons v'' vs =>
      obtain ⟨-, htail⟩ := List.cons.inj heq
      exact h.stops vs v' rest e' htail hp'
  result found hf := by
    obtain ⟨v', hmem, hp'⟩ := h.result found hf
    exact ⟨v', List.mem_cons_of_mem v hmem, hp'⟩

/-- An iteration whose evaluation was made, with the verdict on it, if there is one. -/
theorem follows_made (hc : P.checker = some c)
    (he : (P.evaluation (pointAfter method P previous)).after w = (.ok e, w₁))
    (hv : verdict = ((consult c (done + 1) previous e).after w₁).1.toOption.join) :
    (⟨done + 1, previous, .made e verdict⟩ : Visit α m n).Follows method P done previous w where
  iteration_eq := rfl
  previous_eq := rfl
  answered e' verdict' hp := by
    cases hp
    refine ⟨w₁, he, hv.trans ?_⟩
    cases previous with
    | none => rfl
    | some p =>
      change _ = ((P.consult (done + 1 : Nat) p e).after w₁).1.toOption.join
      unfold Problem.consult
      rw [hc]
      rfl

/-- An iteration without an evaluation. -/
theorem follows_unmade {progress : Progress (Evaluation α m n)}
    (hmade : ∀ e verdict, progress ≠ .made e verdict) :
    (⟨done + 1, previous, progress⟩ : Visit α m n).Follows method P done previous w :=
  ⟨rfl, rfl, fun e verdict hp => absurd hp (hmade e verdict)⟩

/-- **Every run** asks about consecutive evaluations. -/
theorem Runs.chained (h : Runs method c P iterations evaluations done previous point w r)
    (hc : P.checker = some c) (hp : point = pointAfter method P previous) :
    r.Chained method P done previous w := by
  induction h with
  | overdue evaluations done previous point w =>
    exact chained_error _
  | exhausted iterations done previous point w =>
    exact (follows_unmade fun _ _ h => by cases h).chained (fun _ h => by cases h)
      fun _ h => by cases h
  | failed he =>
    exact (follows_unmade fun _ _ h => by cases h).chained (fun _ h => by cases h)
      fun _ h => by cases h
  | unanswered he hv =>
    subst hp
    exact (follows_made hc he (by rw [hv]; rfl)).chained (fun _ h => by cases h)
      fun _ h => by cases h
  | stopped he hv =>
    subst hp
    refine (follows_made hc he (by rw [hv]; rfl)).chained (fun e' hp => ?_) fun found hf => ?_
    · cases hp
      rfl
    · cases hf
      rfl
  | unsolved he hv hne hs =>
    subst hp
    refine (follows_made hc he (by rw [hv]; rfl)).chained (fun e' hp => ?_)
      fun _ h => by cases h
    cases hp
    exact absurd rfl hne
  | stepped he hv hne hs hr ih =>
    subst hp
    refine (follows_made hc he (by rw [hv]; rfl)).chained_after rfl hne ?_ (ih ?_)
    · rw [replay_visit hc he, hv]
    · simp only [pointAfter, hs]

/-- **Solving a problem** asks about consecutive evaluations, from the first one of all on. -/
theorem optimize_chained (method : Option Method) (P : Problem σ α m n) (w : σ) :
    (optimize method P w).Chained method P 0 none w := by
  by_cases hb : 1 ≤ P.maxEvaluations ∧ 1 ≤ P.maxIterations
  · rw [optimize_eq hb.1 hb.2]
    cases hc : P.checker with
    | none => exact chained_error _
    | some c => exact (runs_run method c P _ _ 0 none P.start w).chained hc rfl
  · obtain ⟨f, hf⟩ := optimize_of_no_budget (P := P) (by omega) method w
    rw [hf]
    exact chained_error f

end GaussNewton

/-! ## Both optimizers -/

/-- The evaluations that an optimizer makes, in order. -/
def Optimizer.found [Spectral α] (opt : Optimizer α) (P : Problem σ α m n) (w : σ) :
    List (Evaluation α m n) :=
  match opt with
  | levenbergMarquardt o => (LevenbergMarquardt.optimize o P w).found
  | gaussNewton method => (GaussNewton.optimize method P w).found

/-- Every evaluation that an optimizer makes is one of the problem. -/
theorem Optimizer.exists_evaluation [Spectral α]
    (hle : ∀ ratio : α, LevenbergMarquardt.acceptRatio ≤ ratio →
      ¬ ratio < LevenbergMarquardt.acceptRatio)
    {opt : Optimizer α} {P : Problem σ α m n} {w : σ} {e : Evaluation α m n}
    (he : e ∈ opt.found P w) : ∃ p w₁ w₂, (P.evaluation p).after w₁ = (.ok e, w₂) := by
  cases opt with
  | levenbergMarquardt o =>
    have h := (LevenbergMarquardt.courses_optimize o P w).chained hle
    cases hstart : (LevenbergMarquardt.optimize o P w).start.found? with
    | none =>
      obtain hsome | ⟨t, ht, -⟩ := LevenbergMarquardt.Course.of_mem_found he
      · cases hstart.symm.trans hsome
      · rw [(h.unbegun hstart).1] at ht
        exact absurd ht List.not_mem_nil
    | some e₀ =>
      obtain ⟨w₁, he₀, hrun⟩ := h.begun e₀ hstart
      obtain hsome | ⟨t, ht, a, v, hp, rfl⟩ := LevenbergMarquardt.Course.of_mem_found he
      · obtain rfl := Option.some.inj (hstart.symm.trans hsome)
        exact ⟨_, _, _, he₀⟩
      · obtain ⟨ts, rest, heq⟩ := List.append_of_mem ht
        obtain ⟨w₂, heval, -⟩ := (hrun.stands ts t rest heq).answered a v hp
        exact ⟨_, _, _, heval⟩
  | gaussNewton method =>
    obtain ⟨v, hv, hfound⟩ := List.mem_filterMap.mp he
    obtain ⟨vs, rest, heq⟩ := List.append_of_mem hv
    cases hp : v.progress with
    | unaffordable | failed =>
      rw [hp] at hfound
      cases hfound
    | made e' verdict =>
      rw [hp] at hfound
      obtain rfl := Option.some.inj hfound
      obtain ⟨w₁, heval, -⟩ :=
        ((GaussNewton.optimize_chained method P w).follows vs v rest heq).answered _ _ hp
      exact ⟨_, _, _, heval⟩

/-- **Where a run stands and what its checker is asked**, for every model, validator and checker and
whatever the arithmetic returns, if no ratio is at once at and below the accepting one. -/
theorem optimizers_chained [Spectral α]
    (hle : ∀ ratio : α, LevenbergMarquardt.acceptRatio ≤ ratio →
      ¬ ratio < LevenbergMarquardt.acceptRatio)
    (o : LevenbergMarquardt.Options (Number α)) (method : Option Method) (P : Problem σ α m n)
    (w : σ) :
    (LevenbergMarquardt.optimize o P w).Chained P w ∧
      (GaussNewton.optimize method P w).Chained method P 0 none w ∧
      (GaussNewton.optimize method P w).state =
        P.replay ((GaussNewton.optimize method P w).calls method P) w :=
  ⟨(LevenbergMarquardt.courses_optimize o P w).chained hle,
    GaussNewton.optimize_chained method P w, GaussNewton.optimize_state method P w⟩

/-- The line through the origin, with a checker and a second iteration. -/
noncomputable def checkedLine : Problem Unit ℝ 1 1 :=
  { LevenbergMarquardt.lineProblem ℝ with
    checker := some (.rms (.int 0) (.int 0)), maxIterations := 2 }

/-- The Gauss-Newton method takes a step there, and asks the checker about it. -/
theorem checkedLine_asked [Exact.Factorizations] :
    (GaussNewton.optimize (some .lu) checkedLine ()).questions ≠ [] := by
  have heval (p : Vec ℝ 1) : (checkedLine.evaluation p).after () =
      (.ok (LevenbergMarquardt.lineAt p), ()) := LevenbergMarquardt.line_evaluation p
  have hpivot : ¬ Scalar.abs ((LevenbergMarquardt.lineAt checkedLine.start).jacobian.gram 0 0) <
      Method.negligible := by
    rw [Mat.gram_apply, Exact.sum_eq, Fin.sum_univ_one, LevenbergMarquardt.lineAt, Mat.ofFn_apply,
      Method.negligible]
    change ¬ |(1 : ℝ) * 1| < 1e-11
    norm_num
  obtain ⟨step, hsolve⟩ := Method.exists_step_lu
    (r := (LevenbergMarquardt.lineAt checkedLine.start).residuals) rfl hpivot rfl
  obtain ⟨v, rest, hvisits⟩ := GaussNewton.exists_second (P := checkedLine) rfl (by decide)
    (by decide) (heval _) hsolve (heval _)
  rw [GaussNewton.Run.questions, hvisits]
  exact List.cons_ne_nil _ _

theorem optimizers_chained_line :
    let _ := Exact.factorizations
    (∀ ratio : ℝ, LevenbergMarquardt.acceptRatio ≤ ratio →
      ¬ ratio < LevenbergMarquardt.acceptRatio) ∧
      (LevenbergMarquardt.optimize (LevenbergMarquardt.exactOptions ℝ) checkedLine ()).Chained
        checkedLine () ∧
      (GaussNewton.optimize (some .lu) checkedLine ()).Chained (some .lu) checkedLine 0 none () ∧
      (GaussNewton.optimize (some .lu) checkedLine ()).questions ≠ [] := by
  intro _
  have hle (ratio : ℝ) (h : LevenbergMarquardt.acceptRatio ≤ ratio) :
      ¬ ratio < LevenbergMarquardt.acceptRatio := not_lt.mpr h
  obtain ⟨hLM, hGN, -⟩ :=
    optimizers_chained hle (LevenbergMarquardt.exactOptions ℝ) (some .lu) checkedLine ()
  exact ⟨hle, hLM, hGN, checkedLine_asked⟩

end LeastSquares
