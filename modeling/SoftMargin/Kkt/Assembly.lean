import SoftMargin.Ldl.Access
import SoftMargin.Matrix

/-!
# The system of a partition

A partition minimizes a quadratic under one equation per data point and one
that makes the weights sum to one. Its variables are, in this order, a slack
and a surplus per point, the threshold, and the weights. The optimality
conditions are a symmetric system

    [ρ I  Aᵀ]
    [A    δ I]

whose equations follow the variables. The equation of point `j` reads
`ξ - s - threshold + H[:,j]ᵀ a = 0`.
-/

namespace SoftMargin

def Csc.ofColumns {α : Type} (rows : Nat) (columns : List (List (Nat × α))) : Csc α :=
  let entries := columns.flatten
  { rows
    cols := columns.length
    colptr := Ldl.offsets (columns.map List.length).toArray
    rowval := (entries.map (·.1)).toArray
    nzval := (entries.map (·.2)).toArray }

namespace Kkt

variable {α : Type} [Scalar α]

structure Shape where
  features : Nat
  points : Nat

def Shape.of (H : Matrix α) : Shape :=
  ⟨H.rows, H.cols⟩

namespace Shape

def variableCount (s : Shape) : Nat :=
  2 * s.points + s.features + 1

def equationCount (s : Shape) : Nat :=
  s.points + 1

def dimension (s : Shape) : Nat :=
  s.variableCount + s.equationCount

def surplusIndex (s : Shape) (j : Nat) : Nat :=
  s.points + j

def thresholdIndex (s : Shape) : Nat :=
  2 * s.points

def weightIndex (s : Shape) (k : Nat) : Nat :=
  2 * s.points + 1 + k

def equationIndex (s : Shape) (j : Nat) : Nat :=
  s.variableCount + j

end Shape

def pointColumn (s : Shape) (δ : α) (j : Nat) (point : List α) : List (Nat × α) :=
  [(j, 1), (s.surplusIndex j, -1), (s.thresholdIndex, -1)] ++
    point.mapIdx (fun k h => (s.weightIndex k, h)) ++
    [(s.equationIndex j, δ)]

/-- The equation that makes the weights sum to one. -/
def normalizationColumn (s : Shape) (δ : α) : List (Nat × α) :=
  (List.range s.features).map (fun k => (s.weightIndex k, 1)) ++
    [(s.equationIndex s.points, δ)]

def columns (H : Matrix α) (rho δ : α) : List (List (Nat × α)) :=
  let s := Shape.of H
  (List.range s.variableCount).map (fun i => [(i, rho)]) ++
    (List.range s.points).map (fun j => pointColumn s δ j (H.col j).toList) ++
    [normalizationColumn s δ]

def assemble (H : Matrix α) (rho δ : α) : Csc α :=
  Csc.ofColumns (Shape.of H).dimension (columns H rho δ)

/-- The system without its lower right block. The diagonal entry comes last in each of these
columns. -/
def clearEquationBlock (s : Shape) (K : Csc α) : Csc α :=
  { K with
    nzval := (List.range' s.variableCount s.equationCount).foldl
      (fun nzval c => nzval.setIfInBounds (K.colptr.getD (c + 1) 0 - 1) 0) K.nzval }

end Kkt
end SoftMargin
