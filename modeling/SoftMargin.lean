import SoftMargin.Ldl.Product
import SoftMargin.Proofs.Ldl.Solve
import SoftMargin.Proofs.Solver.Contraction
import SoftMargin.Solver.Session
import SoftMargin.Solver.Storage
import SoftMargin.Sparse.Symmetric
import SoftMargin.Proofs.Ldl.Phases
import SoftMargin.Proofs.Ldl.Success
import SoftMargin.Proofs.Ldl.Quasidefinite
import SoftMargin.Proofs.Kkt.Quasidefinite
import SoftMargin.Proofs.Random.Groups
import SoftMargin.Proofs.Solver.Building
import SoftMargin.Proofs.Partition.Projection
import SoftMargin.Proofs.Partition.Relaxed
import SoftMargin.Proofs.Solver.Reachable
import SoftMargin.Proofs.Solver.Recording
import SoftMargin.Proofs.Solver.Outcome
import SoftMargin.Proofs.Exact.Simplex
import SoftMargin.Proofs.LineSearch.Refine
import SoftMargin.Proofs.Solver.Settling
import SoftMargin.Proofs.Dual.Selection
import SoftMargin.Proofs.LeastSquares.Box
import SoftMargin.Proofs.Dual.Certificate
import SoftMargin.Proofs.Dual.Recovered
import SoftMargin.Proofs.Solver.Residuals
import SoftMargin.InPlace.Ensemble
import SoftMargin.InPlace.Solver
import SoftMargin.Proofs.InPlace.Refinement
import SoftMargin.Proofs.InPlace.Ensemble
import SoftMargin.Proofs.InPlace.Solver
import SoftMargin.Proofs.LeastSquares.Passes
import SoftMargin.Proofs.LeastSquares.Gradient
import SoftMargin.Proofs.Exact.Extended
import SoftMargin.Proofs.LeastSquares.Landing
import SoftMargin.Proofs.LeastSquares.Optimality
import SoftMargin.Proofs.LeastSquares.Unbounded
import SoftMargin.Proofs.Json.Codecs
import SoftMargin.Proofs.Text.Utf8
import SoftMargin.Proofs.Solver.Storage
import SoftMargin.Proofs.Trace.Recall
import SoftMargin.Proofs.Simplex.Nearest
import SoftMargin.Proofs.LineSearch.Accuracy
import SoftMargin.Proofs.Double.Difference
import SoftMargin.Proofs.LineSearch.Oscillation
import SoftMargin.Proofs.Kkt.Corrections
import SoftMargin.Proofs.Partition.Minimizer
import SoftMargin.Proofs.LineSearch.Ends
import SoftMargin.Proofs.Ldl.Slots
import SoftMargin.Proofs.Ldl.Refusals
import SoftMargin.Proofs.Sparse.Positions
import SoftMargin.Proofs.Settings.Drafts
import SoftMargin.Proofs.Ldl.Fill
import SoftMargin.Proofs.Ldl.Distribution
import SoftMargin.Proofs.Timing.Totals
import SoftMargin.Proofs.Dual.LeastSlack
import SoftMargin.Proofs.Sparse.Product
import SoftMargin.Proofs.Vector.Blocks
