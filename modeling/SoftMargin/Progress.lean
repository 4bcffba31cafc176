import SoftMargin.LineSearch.Basic
import SoftMargin.Solution

/-!
# Progress of a solve

What is reported while a solve runs and after it: the latest iteration with its
residuals, the status, and what the steps after the iteration have found.
-/

namespace SoftMargin

structure Progress (α : Type) where
  iterations : Nat
  status : Status
  residuals : Residuals α
  partitionSizes : Array Nat
  lineSearch : Option (LineSearchReport α)
  dualResidual : Option α
  /-- Times in seconds. -/
  setupTime : Float
  solveTime : Float

namespace Progress

variable {α : Type} [Scalar α]

def initial : Progress α where
  iterations := 0
  status := .unsolved
  residuals := Residuals.zero
  partitionSizes := #[]
  lineSearch := none
  dualResidual := none
  setupTime := 0
  solveTime := 0

def reset (p : Progress α) : Progress α :=
  { p with
    iterations := 0
    status := .unsolved
    residuals := Residuals.undefined
    lineSearch := none
    dualResidual := none
    solveTime := 0 }

def update (p : Progress α) (r : Residuals α) (iteration : Nat) : Progress α :=
  { p with iterations := iteration, residuals := r }

def statusAfter (p : Progress α) (r : Residuals α) (maxIter : Nat) : Status :=
  if r.isConverged then .converged
  else if maxIter ≤ p.iterations then .maxIterations
  else p.status

def checkTermination (p : Progress α) (r : Residuals α) (maxIter : Nat) : Bool × Progress α :=
  let status := p.statusAfter r maxIter
  (status != .running, { p with status })

end Progress
end SoftMargin
