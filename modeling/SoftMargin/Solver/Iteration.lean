import SoftMargin.Partition.Consensus
import SoftMargin.Progress

/-!
# The iteration

A run starts with all states at zero. Each iteration solves the local systems,
averages what they propose, projects, and judges the result by its residuals.
The run is over when they have converged, when the limit on the iterations is
reached, or when something is not finite. In which form the states are kept is
left open: the iteration asks for a few operations on them.
-/

namespace SoftMargin

/-- What of an iteration is not finite. Such an iteration is not recorded. -/
inductive Failure where
  | localSolution
  | residuals
deriving Repr, DecidableEq

structure Operations (ε α : Type) where
  members : ε → Nat
  consensus : ε → Array α
  copies : ε → Array (Array α)
  sums : ε → α → Sums α
  reset : ε → ε
  /-- The local solutions, and for each whether it is finite. -/
  updateX : ε → α → Array Bool × ε
  project : ε → ε

/-- A run so far. The trace and the progress tell of the recorded iterations, the ensemble of all
that has been computed. -/
structure RunOf (ε α : Type) where
  ensemble : ε
  trace : Trace α
  progress : Progress α

def RunOf.isOver {ε α : Type} (r : RunOf ε α) : Bool :=
  r.progress.status != .running

namespace Operations

variable {ε α : Type} [Scalar α] (ops : Operations ε α)

/-- A run before its first iteration. The states held before are dropped. -/
def start (P : Problem α) (ensemble : ε) (progress : Progress α) : RunOf ε α where
  ensemble := ops.reset ensemble
  trace := Trace.empty P.features (ops.members ensemble)
  progress := { progress.reset with status := .running }

def record (r : RunOf ε α) (ensemble : ε) (residuals : Residuals α) (maxIter : Nat) : RunOf ε α :=
  let progress := r.progress.update residuals (r.progress.iterations + 1)
  { ensemble
    trace := r.trace.push residuals (ops.consensus ensemble) (ops.copies ensemble)
    progress := (progress.checkTermination residuals maxIter).2 }

/-- One iteration. All partitions are solved, also after one whose answer is not finite. -/
def step (P : Problem α) (settings : Settings α) (r : RunOf ε α) : Option Failure × RunOf ε α :=
  let (finite, ensemble) := ops.updateX r.ensemble settings.rho
  if !finite.all id then
    (some .localSolution, { r with ensemble })
  else
    let ensemble := ops.project ensemble
    let residuals := Residuals.ofSums (ops.sums ensemble settings.rho) P.points P.features
      settings.rho settings.tol settings.reltol
    if residuals.isFinite then
      (none, ops.record r ensemble residuals settings.maxIter.toNat)
    else
      (some .residuals, { r with ensemble })

def iterate (P : Problem α) (settings : Settings α) : Nat → RunOf ε α → Option Failure × RunOf ε α
  | 0, r => (none, r)
  | left + 1, r =>
      match ops.step P settings r with
      | (some failure, r) => (some failure, r)
      | (none, r) => if r.isOver then (none, r) else iterate P settings left r

/-- The whole run. Its last iteration ends it, at the latest the one that reaches the limit. -/
def complete (P : Problem α) (settings : Settings α) (ensemble : ε) (progress : Progress α) :
    Option Failure × RunOf ε α :=
  ops.iterate P settings settings.maxIter.toNat (ops.start P ensemble progress)

end Operations

/-! ## Runs of an ensemble -/

def Ensemble.operations {α : Type} [Scalar α] : Operations (Ensemble α) α where
  members e := e.members.size
  consensus := consensus
  copies := copies
  sums := sums
  reset := reset
  updateX := updateX
  project := project

abbrev Run (α : Type) :=
  RunOf (Ensemble α) α

namespace Run

variable {α : Type} [Scalar α]

def start (P : Problem α) (ensemble : Ensemble α) (progress : Progress α) : Run α :=
  Ensemble.operations.start P ensemble progress

def record (r : Run α) (ensemble : Ensemble α) (residuals : Residuals α) (maxIter : Nat) : Run α :=
  Ensemble.operations.record r ensemble residuals maxIter

def step (P : Problem α) (settings : Settings α) (r : Run α) : Option Failure × Run α :=
  Ensemble.operations.step P settings r

def iterate (P : Problem α) (settings : Settings α) (left : Nat) (r : Run α) :
    Option Failure × Run α :=
  Ensemble.operations.iterate P settings left r

def complete (P : Problem α) (settings : Settings α) (ensemble : Ensemble α)
    (progress : Progress α) : Option Failure × Run α :=
  Ensemble.operations.complete P settings ensemble progress

end Run
end SoftMargin
