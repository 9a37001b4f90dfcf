import LeastSquares.Fit
import LeastSquares.Student.Beta
import LeastSquares.Report.Summary
import LeastSquares.Model.Sample
import LeastSquares.Linear.Rotations
import LeastSquares.Damped.Access
import LeastSquares.Failure.Category
import LeastSquares.Decimal.Numeral
import LeastSquares.Proofs.TrialStep
import LeastSquares.Proofs.Descent
import LeastSquares.Proofs.Budget
import LeastSquares.Proofs.Bracket
import LeastSquares.Proofs.SafeRun
import LeastSquares.Proofs.Calls
import LeastSquares.Proofs.Standpoint
import LeastSquares.Proofs.Affine
import LeastSquares.Proofs.Cosines
import LeastSquares.Proofs.GramRuns
import LeastSquares.Proofs.Deferral
import LeastSquares.Proofs.Reparametrized
import LeastSquares.Proofs.AffineTrials
import LeastSquares.Proofs.Construction
import LeastSquares.Proofs.Returned
import LeastSquares.Proofs.WeightedFit
import LeastSquares.Proofs.RankRevealing
import LeastSquares.Proofs.TransposeApply
import LeastSquares.Proofs.Prediction
import LeastSquares.Proofs.Rejections
import LeastSquares.Proofs.Tolerances
import LeastSquares.Proofs.Settled
import LeastSquares.Proofs.QuadraticForms
import LeastSquares.Proofs.SolverAgreement
import LeastSquares.Proofs.Intervals
import LeastSquares.Proofs.Attempts
import LeastSquares.Proofs.GramInverse
