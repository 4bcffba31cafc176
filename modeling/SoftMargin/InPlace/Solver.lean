import SoftMargin.InPlace.Ensemble
import SoftMargin.Solver.Basic

/-!
# A solver with its vectors

A solve works in the vectors that the solve before it has left, also where that
one has failed. It starts by clearing some of them. Whether an answer of a
partition passes for finite is left to a verdict.
-/

namespace SoftMargin
namespace InPlace

open Scalar

variable {α : Type} [Scalar α]

def Ensemble.operations (verdict : Verdict α) : Operations (Ensemble α) α where
  members e := e.members.size
  consensus := consensus
  copies := copies
  sums := sums
  reset := reset
  updateX e rho := e.updateX verdict rho
  project := project

abbrev Run (α : Type) :=
  RunOf (Ensemble α) α

def Run.forget (verdict : Verdict α) (r : Run α) : SoftMargin.Run α :=
  ⟨r.ensemble.forget verdict, r.trace, r.progress⟩

structure Solver (α : Type) where
  problem : Problem α
  settings : Settings α
  definite : BoundedLeastSquares.DefiniteSolver α
  ensemble : Ensemble α
  progress : Progress α
  solution : Solution α

namespace Solver

def forget (verdict : Verdict α) (s : Solver α) : SoftMargin.Solver α :=
  ⟨s.problem, s.settings, s.definite, s.ensemble.forget verdict, s.progress, s.solution⟩

def start (definite : BoundedLeastSquares.DefiniteSolver α) (problem : Problem α)
    (settings : Settings α) (members : Array (Member α)) : Solver α where
  problem
  settings
  definite
  ensemble := ⟨members, zeros (problem.features + 1), zeros (problem.features + 1)⟩
  progress := { Progress.initial with partitionSizes := members.map (·.columns.size) }
  solution := Solution.initial problem.features problem.points

def newBy (methods : Methods α) (data : Matrix α) (bound : α) (settings : Settings α) :
    Except (SolverError α) (Solver α) := do
  match settings.validate with
  | .error source => throw (.badSettings source)
  | .ok () =>
      let problem ← Problem.new data bound
      let members ← Member.buildAllBy methods.order methods.draws problem settings
      return start methods.definite problem settings members

def reporting (s : Solver α) (r : Run α) (t : SoftMargin.Solver α) : Solver α :=
  { s with ensemble := r.ensemble, progress := t.progress, solution := t.solution }

/-- A solve. What follows the iterations writes to the progress and the solution alone. -/
def solve (verdict : Verdict α) (s : Solver α) : Except (SolverError α) Unit × Solver α :=
  let (failure, r) := (Ensemble.operations verdict).complete s.problem s.settings s.ensemble
    s.progress
  match failure with
  | some _ =>
      let t := (s.forget verdict).afterFailure (Run.forget verdict r)
      (.error (.nonFiniteIterate t.solution.iterations), s.reporting r t)
  | none =>
      let t := (s.forget verdict).afterRun (Run.forget verdict r)
      if s.settings.recoverDuals then
        let (result, t) := t.addDual
        (result, s.reporting r t)
      else
        (.ok (), s.reporting r t)

end Solver
end InPlace
end SoftMargin
