import SoftMargin.Error

/-!
# The soft margin linear program

The data points are the columns of a matrix `H`. A threshold and weights `a` on
the unit simplex are sought that minimize

    -threshold + D * Σ max(threshold - H[:,j]ᵀ a, 0),

where the box bound `D` limits the multiplier of each point.
-/

namespace SoftMargin

open Scalar

structure Problem (α : Type) where
  data : Matrix α
  bound : α

variable {α : Type} [Scalar α]

def objectiveFromMargins (bound threshold : α) (margins : Array α) : α :=
  -threshold + bound * margins.foldl (fun acc m => acc + pos (threshold - m)) 0

namespace Problem

def features (P : Problem α) : Nat :=
  P.data.rows

def points (P : Problem α) : Nat :=
  P.data.cols

/-- A program with a bound in range and with finite data, all of it there. -/
def new (data : Matrix α) (bound : α) : Except (SolverError α) (Problem α) :=
  if !(isFinite bound && 0 < bound && bound ≤ 1) then
    .error (.badBoxBound bound)
  else if data.rows = 0 ∨ data.cols = 0 ∨ data.data.size ≠ data.rows * data.cols then
    .error (.badDimensions data.rows data.cols 0)
  else if !data.allFinite then
    .error .nonFiniteData
  else
    .ok ⟨data, bound⟩

def margins (P : Problem α) (a : Array α) : Array α :=
  P.data.transposeMul a

def objective (P : Problem α) (threshold : α) (a : Array α) : α :=
  objectiveFromMargins P.bound threshold (P.margins a)

/-- The margins and the objective, for weights of any number. -/
def evaluate? (P : Problem α) (threshold : α) (a : Array α) : Option (Array α × α) := do
  let margins ← P.data.transposeMul? a
  return (margins, objectiveFromMargins P.bound threshold margins)

end Problem
end SoftMargin
