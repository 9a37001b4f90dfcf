/-!
# Actions

A model, a validator or a checker may remember its calls, and may fail. So a call is an action on
a state `σ` that belongs to the caller: it ends with a result or a failure, and in both cases
with a new state.
-/

namespace LeastSquares

/-- An action on a state `σ`, which stays changed if the action fails with an `ε`. -/
abbrev Act (σ ε : Type) : Type → Type := ExceptT ε (StateM σ)

namespace Act

variable {σ ε β : Type}

/-- The action's end: result or failure, and the state after it. -/
def after (a : Act σ ε β) (s : σ) : Except ε β × σ := (ExceptT.run a).run s

/-- The action with the given end for each state. -/
def ofFn (f : σ → Except ε β × σ) : Act σ ε β := ExceptT.mk fun s => f s

/-- The action with its failures renamed. -/
def mapError {ε' : Type} (f : ε → ε') (a : Act σ ε β) : Act σ ε' β :=
  ofFn fun s => ((a.after s).1.mapError f, (a.after s).2)

/-- A result or a failure that no state is needed for. -/
def ofExcept (e : Except ε β) : Act σ ε β := ExceptT.mk fun s => (e, s)

@[simp] theorem after_ofFn (f : σ → Except ε β × σ) (s : σ) : (ofFn f).after s = f s := rfl

@[simp] theorem after_ofExcept (e : Except ε β) (s : σ) :
    (ofExcept e : Act σ ε β).after s = (e, s) := rfl

@[simp] theorem after_mapError {ε' : Type} (f : ε → ε') (a : Act σ ε β) (s : σ) :
    (a.mapError f).after s = ((a.after s).1.mapError f, (a.after s).2) := rfl

@[simp] theorem after_pure (b : β) (s : σ) : (pure b : Act σ ε β).after s = (.ok b, s) := rfl

theorem after_bind {γ : Type} (a : Act σ ε β) (f : β → Act σ ε γ) (s : σ) :
    (a >>= f).after s = match a.after s with
      | (.ok b, s) => (f b).after s
      | (.error e, s) => (.error e, s) := by
  simp only [after, ExceptT.run_bind, StateT.run_bind]
  change _ = match (ExceptT.run a).run s with
      | (.ok b, s) => (f b).after s
      | (.error e, s) => (.error e, s)
  rcases h : (ExceptT.run a).run s with ⟨e | b, t⟩
  · simp [bind]
    rfl
  · simp [bind, after]

theorem after_map {γ : Type} (f : β → γ) (a : Act σ ε β) (s : σ) :
    (f <$> a).after s = ((a.after s).1.map f, (a.after s).2) := by
  rw [map_eq_pure_bind, after_bind]
  rcases a.after s with ⟨e | b, t⟩ <;> rfl

end Act

end LeastSquares
