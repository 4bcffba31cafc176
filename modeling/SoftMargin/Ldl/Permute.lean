import SoftMargin.Ldl.Access

/-!
# Elimination orders

The columns of a symmetric matrix may be eliminated in any order. The order is
a permutation that lists, for each step, the column to eliminate; the matrix is
brought into that order before it is factored. An entry of the upper triangle
may cross the diagonal on the way and is then put at its transposed position.

The entries are distributed over the new columns in one pass, each to the next
free place of its column, after a first pass has counted how many places each
column needs. Entries of one position keep their order.
-/

namespace SoftMargin
namespace Ldl

variable {α : Type}

abbrev OrderingRule (α : Type) :=
  Csc α → Except LdlError (Array Nat)

/-- The columns as they come. Column pointers have to start at the first entry. -/
def naturalOrder : OrderingRule α := fun A =>
  if A.cols ≠ 0 ∧ A.colptr[0]? ≠ some 0 then .error .ordering else .ok (Array.range A.cols)

/-- The step at which each column is eliminated. -/
def inverseOrder (order : Array Nat) : Array Nat :=
  (List.range order.size).foldl (fun steps k => steps.setIfInBounds (order.getD k 0) k)
    (Array.replicate order.size 0)

/-! ## Bringing a matrix into order -/

structure Entry (α : Type) where
  row : Nat
  col : Nat
  value : α

def readEntries (A : Csc α) : Except LdlError (List (Entry α)) := do
  let columns ← (List.range A.cols).mapM fun c => do
    let column ← readColumn A c
    return column.map fun (row, value) => (⟨row, c, value⟩ : Entry α)
  return columns.flatten

/-- Where the entry comes to lie: the earlier step is the row, the later one the column. -/
def Entry.target (steps : Array Nat) (e : Entry α) : Except LdlError (Nat × Nat) := do
  let r ← read steps e.row
  let c ← read steps e.col
  return (min r c, max r c)

def countTargets (steps : Array Nat) (entries : List (Entry α)) (cols : Nat) :
    Except LdlError (Array Nat) :=
  entries.foldlM
    (fun counts e => do
      let (_, c) ← e.target steps
      write counts c ((← read counts c) + 1))
    (Array.replicate cols 0)

/-- Places filled so far, and the next free place of each column. -/
structure Distribution (α : Type) where
  rowval : Array Nat
  nzval : Array α
  next : Array Nat

def Distribution.place (steps : Array Nat) (d : Distribution α) (e : Entry α) :
    Except LdlError (Distribution α) := do
  let (r, c) ← e.target steps
  let slot ← read d.next c
  let rowval ← write d.rowval slot r
  let nzval ← write d.nzval slot e.value
  let next ← write d.next c (slot + 1)
  return { rowval, nzval, next }

/-- The upper triangle of the matrix once step `steps[c]` stands in place of index `c`. -/
def permuteSymmetric [Scalar α] (A : Csc α) (steps : Array Nat) : Except LdlError (Csc α) := do
  let entries ← readEntries A
  let counts ← countTargets steps entries A.cols
  let colptr := offsets counts
  let count ← read A.colptr A.cols
  let d ← entries.foldlM (Distribution.place steps)
    { rowval := Array.replicate count 0, nzval := zeros count, next := colptr.pop }
  return { rows := A.cols, cols := A.cols, colptr, rowval := d.rowval, nzval := d.nzval }

end Ldl
end SoftMargin
