import LeastSquares.Report.Statement
import LeastSquares.Decimal.Layout

/-!
# The printed report

A statement as a table, eighty columns wide. Undefined numbers are written `nan`, an undefined
p value as `NA`.
-/

namespace LeastSquares.Statement

open Decimal

/-- The text of a p value: four places, or a bound where these would show zeros. -/
def pText (p : Float) : String :=
  if p != p then "NA" else if 0.0001 ≤ p then fixedText 4 p else "<.0001"

/-- The width of the table. -/
def width : Nat := 80

/-- A line of one character. -/
def ruler (c : Char) : String := String.ofList (List.replicate width c)

/-- A line of the table: the name on the left, four columns of numbers on the right. -/
def row (name estimate error t p : String) : String :=
  " ".intercalate [alignLeft 20 name, alignRight 12 estimate, alignRight 12 error,
    alignRight 10 t, alignRight 12 p]

/-- The line of a parameter, `none` if one of its numbers is missing. -/
def parameterRow (s : Statement) (i : Nat) (name : String) : Option String := do
  let estimate ← s.coefficients[i]?
  let error ← s.standardErrors[i]?
  let t ← s.tValues[i]?
  let p ← s.pValues[i]?
  return row name (generalText 6 estimate) (generalText 4 error) (fixedText 3 t) (pText p)

/-- The lines of the table of parameters. Each name needs its numbers. -/
def parameterRows (s : Statement) : Except (Failure Float) (List String) :=
  match ((List.range s.names.length).zip s.names).mapM fun (i, name) => s.parameterRow i name with
  | some rows => .ok rows
  | none => .error .outOfRange

/-- The lines of the report. -/
def summaryLines (s : Statement) : Except (Failure Float) (List String) := do
  let rows ← s.parameterRows
  let variance := s.residualVariance
  return ["", ruler '=', "NONLINEAR LEAST SQUARES RESULTS", ruler '=', "",
    s!"Optimizer:              {s.optimizerName}",
    s!"Number of observations: {s.observations}",
    s!"Degrees of freedom:     {s.freedom}",
    s!"Evaluations:            {s.evaluations.text}",
    s!"Iterations:             {s.iterations.text}",
    "", "Parameters:", ruler '-',
    row "Parameter" "Estimate" "Std. Error" "t value" "Pr(>|t|)", ruler '-'] ++
  rows ++
  [ruler '-', "",
    s!"Cost (||r||):           {generalText 6 s.cost}",
    s!"RMS:                    {generalText 6 s.rms}"] ++
  (if variance != variance then []
    else [s!"Residual std. error:    {generalText 6 (Float.sqrt variance)} " ++
      s!"on {s.freedom} degrees of freedom"]) ++
  [ruler '=', ""]

/-- The printed report. -/
def summary (s : Statement) : Except (Failure Float) String := do
  return String.join ((← s.summaryLines).map fun line => line ++ "\n")

/-- A report in one line. -/
def text (s : Statement) : String :=
  s!"LeastSquaresFit(n={s.observations}, p={s.parameters}, cost={generalText 3 s.cost})"

end LeastSquares.Statement
