import SoftMargin.Dual
import SoftMargin.LeastSquares.Cholesky
import SoftMargin.Solver.Iteration

/-!
# The solver

A solver is built once for a program and its settings, and can then solve it any
number of times. Every solve starts afresh. It leaves a solution, and the
progress that tells how it was reached, also where it fails.
-/

namespace SoftMargin

open Scalar

/-- What may be done in more than one way: the order in which columns are eliminated, the draws by
which the points are dealt out, and the solution of positive definite systems. -/
structure Methods (α : Type) where
  order : Ldl.OrderingRule α
  draws : Random.Generator
  definite : BoundedLeastSquares.DefiniteSolver α

structure Solver (α : Type) where
  problem : Problem α
  settings : Settings α
  definite : BoundedLeastSquares.DefiniteSolver α
  ensemble : Ensemble α
  progress : Progress α
  solution : Solution α

/-- What a solve comes to: what was not finite, if anything was, the error it ends with, if any,
and the solver it leaves. -/
structure Solved (α : Type) where
  failure : Option Failure
  result : Except (SolverError α) Unit
  solver : Solver α

structure Settled (α : Type) where
  point : Array α
  objective : α
  lineSearch : Option (LineSearchReport α)
  improvement : Option α

variable {α : Type} [Scalar α]

def Methods.standard : Methods α :=
  ⟨Ldl.naturalOrder, Random.Xoshiro.generator, Cholesky.solve?⟩

def exitFlag (converged : Bool) (a : Array α) (tol : α) : Int :=
  if converged then 1
  else if 10.0 * tol < UnitSimplex.defect a then -1
  else 0

namespace Solver

/-! ## Building -/

def start (definite : BoundedLeastSquares.DefiniteSolver α) (problem : Problem α)
    (settings : Settings α) (parts : Array (Partition α)) : Solver α where
  problem
  settings
  definite
  ensemble := Ensemble.start parts problem.features
  progress := { Progress.initial with partitionSizes := parts.map (·.points) }
  solution := Solution.initial problem.features problem.points

/-- A solver for settings that pass their checks. Every partition is factored here. -/
def newBy (methods : Methods α) (data : Matrix α) (bound : α) (settings : Settings α) :
    Except (SolverError α) (Solver α) := do
  match settings.validate with
  | .error source => throw (.badSettings source)
  | .ok () =>
      let problem ← Problem.new data bound
      let parts ← Partition.buildAllBy methods.order methods.draws problem settings
      return start methods.definite problem settings parts

def new (data : Matrix α) (bound : α) (settings : Settings α) :
    Except (SolverError α) (Solver α) :=
  newBy .standard data bound settings

def columns (s : Solver α) : Array (Array Nat) :=
  s.ensemble.members.map (·.partition.columns)

/-! ## Solving -/

/-- The last consensus, or what the line search makes of it. A run that has converged is searched
only on demand. -/
def settle (s : Solver α) (r : Run α) : Settled α :=
  let value := r.progress.residuals.objective
  let found : Settled α := ⟨r.ensemble.consensus, value, none, none⟩
  if r.progress.status = .converged ∧ !s.settings.forceLineSearch then
    found
  else
    let report := LineSearch.run s.problem s.settings.deepMinIter.toNat s.settings.maxBisect.toNat
      r.trace value
    match report.adopted, report.refined, report.objective with
    | true, some point, some objective =>
        ⟨point, objective, some report, some report.improvement⟩
    | _, _, _ => { found with lineSearch := some report }

def afterFailure (s : Solver α) (r : Run α) : Solver α :=
  let iterations := r.progress.iterations + 1
  { s with
    ensemble := r.ensemble
    progress := { r.progress with iterations, status := .numericalError }
    solution := { s.solution with
      dual := none
      objective := undefined
      relaxedObjective := undefined
      exitFlag := 0
      iterations
      status := .numericalError
      improvement := none
      trace := r.trace } }

def afterRun (s : Solver α) (r : Run α) : Solver α :=
  let settled := s.settle r
  let primal := PrimalSolution.ofConsensus s.problem.data s.solution.primal settled.point
  let status := r.progress.status
  { s with
    ensemble := r.ensemble
    progress := { r.progress with lineSearch := settled.lineSearch }
    solution := {
      primal
      dual := none
      objective := settled.objective
      relaxedObjective := r.progress.residuals.objective
      exitFlag := exitFlag (status == .converged) primal.a s.settings.tol
      iterations := r.progress.iterations
      status
      improvement := settled.improvement
      trace := r.trace } }

def addDual (s : Solver α) : Except (SolverError α) Unit × Solver α :=
  match Dual.recover s.definite s.problem.data s.problem.bound s.solution.primal
      s.solution.objective s.settings with
  | .error source => (.error (.dualRecovery source), s)
  | .ok dual =>
      (.ok (), { s with
        progress := { s.progress with dualResidual := some dual.residual }
        solution := { s.solution with dual := some dual } })

def solve (s : Solver α) : Solved α :=
  let (failure, r) := Run.complete s.problem s.settings s.ensemble s.progress
  match failure with
  | some _ =>
      let solver := s.afterFailure r
      ⟨failure, .error (.nonFiniteIterate solver.solution.iterations), solver⟩
  | none =>
      let solver := s.afterRun r
      if s.settings.recoverDuals then
        let (result, solver) := solver.addDual
        ⟨none, result, solver⟩
      else
        ⟨none, .ok (), solver⟩

end Solver
end SoftMargin
