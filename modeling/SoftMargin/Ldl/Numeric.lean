import SoftMargin.Ldl.Access

/-!
# The numeric factorization

Row `k` of the factor solves a triangular system with column `k` of the matrix
on the right. Only the columns on the tree paths from the entries of column `k`
take part, and a column is treated after all columns below it in the tree. The
pivot is what remains of the diagonal entry.

A pivot whose product with its expected sign falls below a limit is replaced by
a small one of that sign.
-/

namespace SoftMargin
namespace Ldl

open Scalar

variable {α : Type} [Scalar α]

/-- The least signed pivot that is kept, and the size of those put in place of others. -/
structure Regularization (α : Type) where
  limit : α
  replacement : α

/-- The factor so far. Column `c` is filled up to `next[c]`; `row` is scratch that is zero between
steps, and `visited` marks the columns that take part in the running step. -/
structure NumericState (α : Type) where
  rowval : Array Nat
  nzval : Array α
  next : Array Nat
  pivots : Array α
  inverses : Array α
  row : Array α
  visited : Array Bool
  positive : Nat
  regularized : Nat

/-- The columns from `j` up the tree, before step `k`, that are not marked yet, and the marks with
them set. -/
def unvisitedPath (parent : Array (Option Nat)) (k : Nat) :
    Nat → Option Nat → Array Bool → Except LdlError (List Nat × Array Bool)
  | 0, _, _ => .error .outOfRange
  | _ + 1, none, visited => return ([], visited)
  | fuel + 1, some j, visited => do
      if k ≤ j then
        return ([], visited)
      if ← read visited j then
        return ([], visited)
      let visited := visited.setIfInBounds j true
      let (path, visited) ← unvisitedPath parent k fuel (← read parent j) visited
      return (j :: path, visited)

/-- What reading column `k` of the matrix leaves: its diagonal entry, its other entries scattered
into a row, and the columns to treat, in order. -/
structure Pattern (α : Type) where
  diagonal : α
  row : Array α
  visited : Array Bool
  columns : List Nat

/-- Takes in an entry. The paths found later are treated first. -/
def Pattern.addEntry (parent : Array (Option Nat)) (k fuel : Nat) (p : Pattern α)
    (e : Nat × α) : Except LdlError (Pattern α) := do
  let (i, v) := e
  if i = k then
    return { p with diagonal := v }
  let row ← write p.row i v
  let (path, visited) ← unvisitedPath parent k fuel (some i) p.visited
  return { p with row, visited, columns := path ++ p.columns }

def subtractColumn (start : Nat) (s : NumericState α) (c : Nat) (y : α) (row : Array α) :
    Except LdlError (Array α) := do
  let stop ← read s.next c
  (List.range' start (stop - start)).foldlM
    (fun row ptr => do
      let r ← read s.rowval ptr
      let v ← read s.nzval ptr
      write row r ((← read row r) - v * y))
    row

/-- Treats column `c` in step `k`: eliminates with it and appends row `k` to it. The running pivot
stands in `pivots[k]`. -/
def NumericState.eliminate (colptr : Array Nat) (k : Nat) (s : NumericState α) (c : Nat) :
    Except LdlError (NumericState α) := do
  let y ← read s.row c
  let row ← subtractColumn (← read colptr c) s c y s.row
  let entry := y * (← read s.inverses c)
  let slot ← read s.next c
  let rowval ← write s.rowval slot k
  let nzval ← write s.nzval slot entry
  let next ← write s.next c (slot + 1)
  let pivots ← write s.pivots k ((← read s.pivots k) - y * entry)
  let row ← write row c 0
  let visited ← write s.visited c false
  return { s with rowval, nzval, next, pivots, row, visited }

def regularize (reg : Option (Regularization α)) (sign : Int) (pivot : α) : α × Bool :=
  match reg with
  | none => (pivot, false)
  | some r =>
      let s : α := if sign < 0 then -1 else 1
      if pivot * s < r.limit then (r.replacement * s, true) else (pivot, false)

def NumericState.finishPivot (reg : Option (Regularization α)) (signs : Array Int) (k : Nat)
    (s : NumericState α) : Except LdlError (NumericState α) := do
  let (pivot, replaced) := regularize reg (← read signs k) (← read s.pivots k)
  if same pivot 0 || !isFinite pivot then
    throw .zeroPivot
  let pivots ← write s.pivots k pivot
  let inverses ← write s.inverses k (recip pivot)
  return { s with
    pivots, inverses
    positive := if 0 < pivot then s.positive + 1 else s.positive
    regularized := if replaced then s.regularized + 1 else s.regularized }

def NumericState.step (A : Csc α) (parent : Array (Option Nat)) (colptr : Array Nat)
    (signs : Array Int) (reg : Option (Regularization α)) (s : NumericState α) (k : Nat) :
    Except LdlError (NumericState α) := do
  let column ← readColumn A k
  let p ← column.foldlM (Pattern.addEntry parent k (A.cols + 1))
    { diagonal := 0, row := s.row, visited := s.visited, columns := [] }
  let pivots ← write s.pivots k p.diagonal
  let s ← p.columns.foldlM (NumericState.eliminate colptr k)
    { s with pivots, row := p.row, visited := p.visited }
  s.finishPivot reg signs k

def NumericState.initial (n : Nat) (colptr : Array Nat) : NumericState α :=
  let count := colptr.back?.getD 0
  { rowval := Array.replicate count 0
    nzval := zeros count
    next := colptr.pop
    pivots := zeros n
    inverses := zeros n
    row := zeros n
    visited := Array.replicate n false
    positive := 0
    regularized := 0 }

def factorNumeric (A : Csc α) (parent : Array (Option Nat)) (colptr : Array Nat)
    (signs : Array Int) (reg : Option (Regularization α)) :
    Except LdlError (NumericState α) :=
  (List.range A.cols).foldlM (NumericState.step A parent colptr signs reg)
    (NumericState.initial A.cols colptr)

end Ldl
end SoftMargin
