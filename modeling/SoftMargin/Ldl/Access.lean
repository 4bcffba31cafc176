import SoftMargin.Sparse.Csc

/-!
# Errors of a factorization, and checked access

The factorization reads and writes through indices that are themselves data.
Each access is checked, so that a matrix whose indices lead nowhere ends in an
error of its own and not in a made-up entry.
-/

namespace SoftMargin

inductive LdlError where
  | incompatibleDimension
  | emptyColumn
  | notUpperTriangular
  | zeroPivot
  | ordering
  /-- An index of the matrix points outside of it. -/
  | outOfRange
deriving Repr, DecidableEq

def LdlError.message : LdlError → String
  | .incompatibleDimension => "Matrix dimension fields are incompatible"
  | .emptyColumn => "Matrix has a zero column"
  | .notUpperTriangular => "Matrix is not upper triangular"
  | .zeroPivot => "Matrix factorization produced a zero pivot"
  | .ordering => "AMD ordering failed"
  | .outOfRange => "Matrix index out of range"

namespace Ldl

variable {β : Type}

def read (xs : Array β) (i : Nat) : Except LdlError β :=
  match xs[i]? with
  | some v => .ok v
  | none => .error .outOfRange

def write (xs : Array β) (i : Nat) (v : β) : Except LdlError (Array β) :=
  if i < xs.size then .ok (xs.setIfInBounds i v) else .error .outOfRange

def readSlice (xs : Array β) (first last : Nat) : Except LdlError (Array β) :=
  match slice? xs first last with
  | some part => .ok part
  | none => .error .outOfRange

def readColumn (A : Csc β) (c : Nat) : Except LdlError (List (Nat × β)) := do
  let first ← read A.colptr c
  let last ← read A.colptr (c + 1)
  let rows ← readSlice A.rowval first last
  let values ← readSlice A.nzval first last
  return (rows.zip values).toList

/-- The start of each group, and the end of the last, when groups of the given sizes follow one
another. -/
def offsets (sizes : Array Nat) : Array Nat :=
  sizes.foldl (fun ends size => ends.push (ends.back?.getD 0 + size)) #[0]

end Ldl
end SoftMargin
