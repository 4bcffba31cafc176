import SoftMargin.Matrix
import SoftMargin.Trace

/-!
# Solutions

A primal point lists the weights, the threshold and the slack of every point of
the data. A solution adds how it was reached.
-/

namespace SoftMargin

open Scalar

inductive Status where
  | unsolved
  | running
  | converged
  | maxIterations
  | numericalError
deriving Repr, DecidableEq

def Status.name : Status → String
  | .unsolved => "Unsolved"
  | .running => "Running"
  | .converged => "Converged"
  | .maxIterations => "MaxIterations"
  | .numericalError => "NumericalError"

structure PrimalSolution (α : Type) where
  a : Array α
  threshold : α
  /-- The slacks `max (threshold - Hᵀ a) 0`. -/
  xi : Array α
deriving Repr

structure DualSolution (α : Type) where
  u : Array α
  /-- The dual objective. -/
  beta : α
  /-- The largest defect of the equations that the multipliers satisfy. -/
  residual : α
deriving Repr

structure Solution (α : Type) where
  primal : PrimalSolution α
  dual : Option (DualSolution α)
  /-- The objective after the line search, if that was adopted. -/
  objective : α
  /-- The relaxed objective of the last iteration. -/
  relaxedObjective : α
  /-- One after convergence, otherwise zero, or minus one if the weights are far off the simplex. -/
  exitFlag : Int
  iterations : Nat
  status : Status
  improvement : Option α
  trace : Trace α
deriving Repr

variable {α : Type} [Scalar α]

namespace PrimalSolution

def zero (features points : Nat) : PrimalSolution α :=
  ⟨zeros features, 0, zeros points⟩

/-- The point of a consensus vector, with the slacks that the data give it. The slacks held before
enter with the factor zero. -/
def ofConsensus (H : Matrix α) (before : PrimalSolution α) (consensus : Array α) :
    PrimalSolution α :=
  let threshold := consensus.getD 0 0
  let a := consensus.extract 1 consensus.size
  let margins := H.transposeMulAdd 1 a 0 before.xi
  ⟨a, threshold, margins.map fun m => pos (threshold - m)⟩

def ofConsensus? (H : Matrix α) (before : PrimalSolution α) (consensus : Array α) :
    Option (PrimalSolution α) :=
  if consensus.size = before.a.size + 1 ∧ before.a.size = H.rows ∧ before.xi.size = H.cols ∧
      H.Complete then
    some (ofConsensus H before consensus)
  else
    none

end PrimalSolution

def Solution.initial (features points : Nat) : Solution α where
  primal := PrimalSolution.zero features points
  dual := none
  objective := undefined
  relaxedObjective := undefined
  exitFlag := 0
  iterations := 0
  status := .unsolved
  improvement := none
  trace := Trace.empty features 0

def Solution.beta (s : Solution α) : Option α :=
  s.dual.map (·.beta)

end SoftMargin
