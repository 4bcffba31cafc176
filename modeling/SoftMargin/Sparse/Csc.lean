import SoftMargin.Vector.Basic

/-!
# Sparse matrices by columns

The stored entries of column `c` are those from `colptr[c]` up to
`colptr[c + 1]`. Nothing about the fields is assumed: the format check decides
whether they describe a matrix, and reading beyond them has no value.
-/

namespace SoftMargin

structure Csc (α : Type) where
  rows : Nat
  cols : Nat
  colptr : Array Nat
  rowval : Array Nat
  nzval : Array α
deriving Repr

inductive FormatError where
  | incompatibleDimension
  | badRowval
  | badColptr
deriving Repr, DecidableEq

def FormatError.message : FormatError → String
  | .incompatibleDimension =>
      "Matrix dimension fields and/or array lengths are incompatible"
  | .badRowval => "Bad row index values"
  | .badColptr => "Bad column pointer values"

def anyNeighbours (bad : Nat → Nat → Bool) : List Nat → Bool
  | x :: y :: rest => bad x y || anyNeighbours bad (y :: rest)
  | _ => false

def slice? {β : Type} (xs : Array β) (first last : Nat) : Option (Array β) :=
  if first ≤ last ∧ last ≤ xs.size then some (xs.extract first last) else none

namespace Csc

variable {α : Type}

/-! ## Construction -/

/-- A matrix with fields of consistent lengths. Neither the order nor the range of the indices
is asked for. -/
def ofFields? (rows cols : Nat) (colptr rowval : Array Nat) (nzval : Array α) :
    Option (Csc α) :=
  if rowval.size = nzval.size ∧ colptr.size = cols + 1 ∧ colptr[cols]? = some rowval.size then
    some ⟨rows, cols, colptr, rowval, nzval⟩
  else
    none

/-- Room for `count` entries, all of them still zero and in the last column. -/
def allocate [Scalar α] (rows cols count : Nat) : Csc α :=
  { rows, cols
    colptr := (Array.replicate cols 0).push count
    rowval := Array.replicate count 0
    nzval := zeros count }

/-! ## Reading -/

def bounds? (A : Csc α) (c : Nat) : Option (Nat × Nat) := do
  let first ← A.colptr[c]?
  let last ← A.colptr[c + 1]?
  return (first, last)

def columnRows? (A : Csc α) (c : Nat) : Option (Array Nat) := do
  let (first, last) ← A.bounds? c
  slice? A.rowval first last

def column (A : Csc α) (c : Nat) : List (Nat × α) :=
  let first := A.colptr.getD c 0
  let last := A.colptr.getD (c + 1) 0
  ((A.rowval.extract first last).zip (A.nzval.extract first last)).toList

def Readable (A : Csc α) : Prop :=
  ∀ c < A.cols, (match A.bounds? c with
    | some (first, last) =>
        first ≤ last && last ≤ A.rowval.size && last ≤ A.nzval.size &&
          (A.rowval.extract first last).all (· < A.rows)
    | none => false) = true

instance (A : Csc α) : Decidable A.Readable :=
  inferInstanceAs (Decidable (∀ c < A.cols, _ = true))

def isSquare (A : Csc α) : Bool :=
  A.rows == A.cols

def entryCount? (A : Csc α) : Option Nat :=
  A.colptr[A.cols]?

/-- Whether no column stores an entry below the diagonal. The columns are read in turn, up to the
first that does. -/
def isUpperTriangular? (A : Csc α) : Option Bool :=
  go A.cols 0
where
  go : Nat → Nat → Option Bool
    | 0, _ => some true
    | left + 1, c =>
        match A.columnRows? c with
        | none => none
        | some rows => if rows.all (· ≤ c) then go left (c + 1) else some false

/-! ## The format -/

/-- Whether the fields describe a matrix whose columns list their rows in rising order. -/
def checkFormat (A : Csc α) : Except FormatError Unit :=
  if A.rowval.size ≠ A.nzval.size ∨ A.colptr.size ≠ A.cols + 1 ∨
      A.colptr[A.cols]? ≠ some A.rowval.size then
    .error .incompatibleDimension
  else if anyNeighbours (fun x y => x > y) A.colptr.toList then
    .error .badColptr
  else if (List.range A.cols).any fun c =>
      anyNeighbours (fun x y => x ≥ y)
        (A.rowval.extract (A.colptr.getD c 0) (A.colptr.getD (c + 1) 0)).toList then
    .error .badRowval
  else if A.rowval.any (· ≥ A.rows) then
    .error .badRowval
  else
    .ok ()

/-- The count after a count. There is none after the last one that a machine word holds. -/
def nextCount? (n : Nat) : Option Nat :=
  if n + 1 < Nat.pow 2 64 then some (n + 1) else none

/-- The same check, with the reads that it makes. Nothing comes of it if one of them leaves the
fields, or if the number of columns is one that has no next count. -/
def checkFormat? (A : Csc α) : Option (Except FormatError Unit) := do
  if A.rowval.size ≠ A.nzval.size then
    return .error .incompatibleDimension
  if A.colptr.size ≠ (← nextCount? A.cols) then
    return .error .incompatibleDimension
  if (← A.colptr[A.cols]?) ≠ A.rowval.size then
    return .error .incompatibleDimension
  if anyNeighbours (fun x y => x > y) A.colptr.toList then
    return .error .badColptr
  let unsorted ← (List.range A.cols).anyM fun c => do
    let rows ← A.columnRows? c
    return anyNeighbours (fun x y => x ≥ y) rows.toList
  if unsorted then
    return .error .badRowval
  if A.rowval.any (· ≥ A.rows) then
    return .error .badRowval
  return .ok ()

/-! ## Looking an entry up -/

/-- Halves the `size` places from `base` on, keeping those from the middle unless the row there
lies beyond `row`, and returns the place that is left. -/
def bisectRows (rows : Array Nat) (row base size : Nat) : Nat :=
  if size ≤ 1 then
    base
  else
    let half := size / 2
    let middle := base + half
    bisectRows rows row (if rows.getD middle 0 > row then base else middle) (size - half)
termination_by size
decreasing_by omega

def findRow? (rows : Array Nat) (row : Nat) : Option Nat :=
  let place := bisectRows rows row 0 rows.size
  if rows[place]? = some row then some place else none

/-- The entry stored at a position, `some none` if none is, and nothing if the position or the
column cannot be read. -/
def entry? (A : Csc α) (row col : Nat) : Option (Option α) :=
  if row < A.rows ∧ col < A.cols then do
    let (first, last) ← A.bounds? col
    let rows ← slice? A.rowval first last
    match findRow? rows row with
    | none => return none
    | some place =>
        let value ← A.nzval[first + place]?
        return some value
  else
    none

end Csc
end SoftMargin
