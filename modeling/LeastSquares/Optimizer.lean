import LeastSquares.GaussNewton
import LeastSquares.LevenbergMarquardt.Run

/-!
# Optimizers by name

An optimizer is chosen by its name, in any mixture of cases, and set up by named options.
-/

namespace LeastSquares

variable {α σ : Type} {m n : Nat}

/-- An optimizer with its settings. -/
inductive Optimizer (α : Type) where
  | levenbergMarquardt (options : LevenbergMarquardt.Options (Number α))
  /-- The solver is missing if the option that names it was no text. -/
  | gaussNewton (method : Option Method)

/-- A consultation of the checker: the iteration, the two costs and the verdict. -/
structure Consultation (α : Type) where
  iteration : Nat
  previousCost : α
  currentCost : α
  verdict : Bool

/-- A search for the damping parameter: the radius, and the parameter before and after. -/
structure ParameterSearch (α : Type) where
  radius : α
  before : α
  found : α

/-- What a run leaves: how it ended, what was seen on the way, and the caller's state. -/
structure Outcome (σ α : Type) (m n : Nat) where
  result : Except (Failure α) (Optimum α m n)
  searches : List (ParameterSearch α)
  consultations : List (Consultation α)
  state : σ

namespace Optimizer

/-- The full name. -/
def name : Optimizer α → String
  | levenbergMarquardt _ => "levenberg-marquardt"
  | gaussNewton _ => "gauss-newton"

/-- The class of an optimizer, by name. -/
def kind : Optimizer α → String
  | levenbergMarquardt _ => "LevenbergMarquardtOptimizer"
  | gaussNewton _ => "GaussNewtonOptimizer"

/-- The text of a Gauss-Newton optimizer, which names its solver. -/
def text? : Optimizer α → Option (Except (Failure α) String)
  | levenbergMarquardt _ => none
  | gaussNewton none => some (.error (.noSuchSetting "name"))
  | gaussNewton (some method) =>
    some (.ok ("GaussNewtonOptimizer(decomposition=" ++ method.name.toUpper ++ ")"))

/-- The name of the option that chooses the linear solver. -/
def decompositionName : String := "decomposition"

/-- The names of the settings. -/
def settingNames : Optimizer α → List String
  | levenbergMarquardt o =>
    LevenbergMarquardt.Options.stepFactorName :: o.bounded.map fun (setting, _) => setting.name
  | gaussNewton _ => [decompositionName]

/-- The settings, by name. -/
def config : Optimizer α → Except (Failure α) (List (String × Setting α))
  | opt@(levenbergMarquardt o) =>
    .ok ([("optimizer", .text opt.name),
      (LevenbergMarquardt.Options.stepFactorName, .number o.initialStepFactor)] ++
      o.bounded.map fun (setting, x) => (setting.name, .number x))
  | gaussNewton none => .error (.noSuchSetting "value")
  | opt@(gaussNewton (some method)) =>
    .ok [("optimizer", .text opt.name), (decompositionName, .text method.name)]

/-- A letter in lower case. Beside the Latin capitals only the Kelvin sign has a lower-case form
among the letters of the names. -/
def lowerLetter (c : Char) : Char := if c = '\u212A' then 'k' else c.toLower

/-- A name in lower case. -/
def lowered (s : String) : String := s.map lowerLetter

/-- The full name for a name or an alias in any mixture of cases. -/
def fullName (name : String) : String :=
  match lowered name with
  | "lm" | "levenberg_marquardt" => "levenberg-marquardt"
  | "gn" | "gauss_newton" => "gauss-newton"
  | other => other

/-- The linear solver of a name in any mixture of cases. -/
def methodOf (name : String) : Except (Failure α) Method :=
  match Method.ofName? (lowered name) with
  | some method => .ok method
  | none => .error (.unknownDecomposition name)

section

variable [Scalar α]

/-- A trust-region optimizer with some options replaced. All their names are tested before the
first of their values. -/
def withOptions (o : LevenbergMarquardt.Options (Number α)) (given : List (String × Setting α)) :
    Except (Failure α) (Optimizer α) := do
  let o ← given.foldlM
    (fun o (name, setting) =>
      match LevenbergMarquardt.Options.replace? o name setting with
      | some o => .ok o
      | none => .error (.unknownOption name))
    (o.map Setting.number)
  return .levenbergMarquardt (← o.check)

/-- A Gauss-Newton optimizer with the given options. Only a text names a linear solver; anything
else is accepted and leaves the optimizer without one. -/
def withDecomposition (given : List (String × Setting α)) :
    Except (Failure α) (Optimizer α) := do
  match given.find? fun g => g.1 != decompositionName with
  | some (name, _) => throw (.unknownOption name)
  | none =>
    match given with
    | [] => return .gaussNewton (some .qr)
    | (_, .text name) :: _ => return .gaussNewton (some (← methodOf name))
    | (_, _) :: _ => return .gaussNewton none

/-- The optimizer of a name with the given options. -/
def ofName (name : String) (given : List (String × Setting α)) :
    Except (Failure α) (Optimizer α) :=
  match fullName name with
  | "levenberg-marquardt" => withOptions .standard given
  | "gauss-newton" => withDecomposition given
  | _ => .error (.unknownOptimizer name)

/-- An optimizer that stands already; it takes no options. -/
def reuse (opt : Optimizer α) (given : List (String × Setting α)) :
    Except (Failure α) (Optimizer α) :=
  if given.isEmpty then .ok opt else .error .optionsWithOptimizer

/-- An optimizer with one setting replaced. -/
def replace (opt : Optimizer α) (name : String) (setting : Setting α) :
    Except (Failure α) (Optimizer α) :=
  if opt.settingNames.contains name then
    match opt with
    | levenbergMarquardt o => withOptions o [(name, setting)]
    | gaussNewton _ => withDecomposition [(name, setting)]
  else .error (.noSuchSetting name)

end

variable [Spectral α]

/-- The consultation that a trial records. -/
def consultationOf (iteration : Nat) (previous : Evaluation α m n) (current : Evaluation α m n)
    (verdict : Option Bool) : Option (Consultation α) :=
  verdict.map fun v => ⟨iteration, previous.cost, current.cost, v⟩

/-- Solves a problem. -/
def optimize (opt : Optimizer α) (P : Problem σ α m n) (w : σ) : Outcome σ α m n :=
  match opt with
  | levenbergMarquardt o =>
    let r := LevenbergMarquardt.optimize o P w
    { result := r.result
      searches := r.trials.map fun t =>
        ⟨t.search.region.radius, t.search.region.lambda, t.proposal.lambda⟩
      consultations := r.trials.filterMap fun t =>
        t.progress.found?.bind fun a =>
          consultationOf t.iteration t.search.base a.evaluation t.progress.verdict?
      state := r.state }
  | gaussNewton method =>
    let r := GaussNewton.optimize method P w
    { result := r.result
      searches := []
      consultations := r.visits.filterMap fun v =>
        v.progress.found?.bind fun e => v.previous.bind fun p =>
          consultationOf v.iteration p e v.progress.verdict?
      state := r.state }

end Optimizer

end LeastSquares
