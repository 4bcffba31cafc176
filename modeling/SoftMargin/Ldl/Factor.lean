import SoftMargin.Ldl.EliminationTree
import SoftMargin.Ldl.Numeric
import SoftMargin.Ldl.Permute

/-!
# Factored symmetric matrices

A symmetric matrix, held as its upper triangle, is put in an order of
elimination and factored there into a unit lower triangular matrix, a diagonal
one and the transpose of the first. Any number of right hand sides is then
solved by two substitutions and a scaling.
-/

namespace SoftMargin

open Scalar

/-- What is expected of the pivots, per column of the matrix, and what to do with one that does not
meet it. Pivots of unstated sign are to be positive. -/
structure LdlSettings (α : Type) where
  signs : Option (Array Int)
  regularize : Bool
  limit : α
  replacement : α

/-- A factored matrix. `lower` lacks the unit diagonal; it and the pivots are in the order of
elimination. -/
structure LdlFactor (α : Type) where
  order : Array Nat
  lower : Csc α
  pivots : Array α
  inverses : Array α
  positiveInertia : Nat
  regularizeCount : Nat

variable {α : Type} [Scalar α]

def LdlSettings.default : LdlSettings α where
  signs := none
  regularize := true
  limit := 1e-12
  replacement := 1e-7

def LdlSettings.regularization (settings : LdlSettings α) : Option (Ldl.Regularization α) :=
  if settings.regularize then some ⟨settings.limit, settings.replacement⟩ else none

def LdlSettings.orderedSigns (settings : LdlSettings α) (order : Array Nat) :
    Except LdlError (Array Int) :=
  match settings.signs with
  | none => .ok (Array.replicate order.size 1)
  | some signs =>
      if signs.size = order.size then order.mapM (Ldl.read signs)
      else .error .incompatibleDimension

namespace Ldl

def checkStructure (A : Csc α) : Except LdlError Unit := do
  if !A.isSquare then
    throw .incompatibleDimension
  match A.isUpperTriangular? with
  | none => throw .outOfRange
  | some false => throw .notUpperTriangular
  | some true =>
      if anyNeighbours (fun x y => x ≥ y) A.colptr.toList then
        throw .emptyColumn

def factorBy (rule : OrderingRule α) (A : Csc α) (settings : LdlSettings α) :
    Except LdlError (LdlFactor α) := do
  checkStructure A
  let order ← rule A
  let B ← permuteSymmetric A (inverseOrder order)
  let signs ← settings.orderedSigns order
  let (parent, counts) ← eliminationTree B
  let colptr := offsets counts
  let s ← factorNumeric B parent colptr signs settings.regularization
  return {
    order
    lower := { rows := A.cols, cols := A.cols, colptr, rowval := s.rowval, nzval := s.nzval }
    pivots := s.pivots
    inverses := s.inverses
    positiveInertia := s.positive
    regularizeCount := s.regularized }

def factor (A : Csc α) (settings : LdlSettings α) : Except LdlError (LdlFactor α) :=
  factorBy naturalOrder A settings

/-! ## Substitution -/

/-- Solves `(L + I) x = b`, where `L` is strictly lower triangular. -/
def lowerSolve (L : Csc α) (b : Array α) : Array α :=
  (List.range b.size).foldl
    (fun x i =>
      let xi := x.getD i 0
      (L.column i).foldl (fun x e => x.modify e.1 fun v => v - e.2 * xi) x)
    b

/-- Solves `(L + I)ᵀ x = b`, where `L` is strictly lower triangular. -/
def upperSolve (L : Csc α) (b : Array α) : Array α :=
  (List.range b.size).foldr
    (fun i x =>
      let s := (L.column i).foldl (fun acc e => acc + e.2 * x.getD e.1 0) 0
      x.modify i fun v => v - s)
    b

end Ldl

namespace LdlFactor

def toOrder (F : LdlFactor α) (b : Array α) : Array α :=
  F.order.map fun p => b.getD p 0

def fromOrder (F : LdlFactor α) (x b : Array α) : Array α :=
  (F.order.zip x).foldl (fun b e => b.setIfInBounds e.1 e.2) b

def workspace (F : LdlFactor α) : Array α :=
  zeros F.pivots.size

/-- Solves in a workspace that other solves have used. Returns what is left there, and the right
hand side with the answer in its place. -/
def solveIn (F : LdlFactor α) (work b : Array α) : Array α × Array α :=
  let x := Ldl.lowerSolve F.lower (overwriteMap id work (F.toOrder b))
  let x := Ldl.upperSolve F.lower (Array.zipWith (· * ·) x F.inverses)
  (x, F.fromOrder x b)

/-- The workspace after solves for these right hand sides, one after the other. A right hand side
of another length is refused. -/
def workspaceAfter (F : LdlFactor α) (rhs : List (Array α)) : Array α :=
  rhs.foldl (fun work b => if b.size = F.pivots.size then (F.solveIn work b).1 else work)
    F.workspace

def solve (F : LdlFactor α) (b : Array α) : Array α :=
  (F.solveIn F.workspace b).2

def solve? (F : LdlFactor α) (b : Array α) : Option (Array α) :=
  if b.size = F.pivots.size then some (F.solve b) else none

end LdlFactor
end SoftMargin
