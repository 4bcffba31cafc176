import SoftMargin.Error
import SoftMargin.Solution
import SoftMargin.Sorting

/-!
# Recovering the multipliers

At an optimum a point with positive slack has its multiplier at the box bound,
and a point beyond the margin has none. What is left are the points on the
margin. Their multipliers solve one equation per supported weight and one that
makes all multipliers sum to one; they are found by least squares within the
bounds.
-/

namespace SoftMargin
namespace Dual

open Scalar

variable {α : Type} [Scalar α]

/-- Slacks above this violate the margin, and weights above it are supported. -/
def activeTolerance : α :=
  1e-5

structure System (α : Type) where
  violating : List Nat
  free : List Nat
  matrix : Matrix α
  target : Array α

def requiredCount (bound : α) (violating : Nat) : Nat :=
  toCount ((1 - bound * (violating : α)) / bound - 1e-9)

/-- The points on the margin in the order of their slack, or as many of the points of least slack
as are required. -/
def selectFree (margins : Array α) (threshold : α) (candidates : List Nat) (required : Nat)
    (marginTol : α) : List Nat :=
  let slack := fun j => margins.getD j 0 - threshold
  let ordered := Sorting.stableSort (fun i j => slack i < slack j) candidates
  let cutoff := marginTol * larger 1 (magnitude threshold)
  let tight := (ordered.takeWhile fun j => slack j ≤ cutoff).length
  ordered.take (max tight required)

def system (H : Matrix α) (bound : α) (primal : PrimalSolution α) (beta marginTol : α) :
    Except (DualRecoveryError α) (System α) :=
  let margins := H.transposeMul primal.a
  let (violating, rest) := (List.range H.cols).partition fun j =>
    activeTolerance < primal.xi.getD j 0
  let support := (Array.range H.rows).filter fun r => activeTolerance < primal.a.getD r 0
  let required := requiredCount bound violating.length
  if support.size < required then
    .error (.overDetermined required support.size)
  else
    let free := selectFree margins primal.threshold rest required marginTol
    let columns := free.toArray
    let matrix := Matrix.ofFn (support.size + 1) columns.size fun r c =>
      match support[r]? with
      | some i => H.entry i (columns.getD c 0)
      | none => 1
    let fixed := fun i => violating.foldl (fun acc j => acc + H.entry i j) 0
    let target := (support.map fun i => beta - bound * fixed i).push
      (1 - bound * (violating.length : α))
    .ok { violating, free, matrix, target }

def assemble (points : Nat) (bound : α) (violating free : List Nat) (values : Array α) :
    Array α :=
  let u := violating.foldl (fun u j => u.setIfInBounds j bound) (zeros points)
  (free.zip values.toList).foldl (fun u e => u.setIfInBounds e.1 e.2) u

def recover (definite : BoundedLeastSquares.DefiniteSolver α) (H : Matrix α) (bound : α)
    (primal : PrimalSolution α) (value : α) (settings : Settings α) :
    Except (DualRecoveryError α) (DualSolution α) := do
  if primal.a.size ≠ H.rows ∨ primal.xi.size ≠ H.cols then
    throw .incompatibleDimension
  if !H.Complete then
    throw .outOfRange
  let beta := -value
  let s ← system H bound primal beta settings.marginTol
  let count := s.free.length
  match boundedLeastSquares definite s.matrix s.target (zeros count)
      (Array.replicate count bound) with
  | .error source => throw (.leastSquares source)
  | .ok values =>
      let residual := maxNorm (s.matrix.mulAdd 1 values (-1) s.target)
      if settings.checkResidual && !(residual ≤ settings.recoveryTol) then
        throw (.inconsistent residual)
      return { u := assemble H.cols bound s.violating s.free values, beta, residual }

end Dual
end SoftMargin
