import SoftMargin.Matrix

/-!
# Positive definite systems

A symmetric positive definite matrix is the product of a lower triangular
matrix and its transpose. The rows of the factor are found from the top; a
pivot that is not positive ends the search.
-/

namespace SoftMargin
namespace Cholesky

open Scalar

variable {α : Type} [Scalar α]

def nextRow? (G : Matrix α) (above : Array (Array α)) (i : Nat) : Option (Array α) :=
  let left := (List.range i).foldl
    (fun row j =>
      let upper := above.getD j #[]
      let rest := (List.range j).foldl
        (fun acc k => acc - row.getD k 0 * upper.getD k 0) (G.entry i j)
      row.push (rest / upper.getD j 0))
    #[]
  let pivot := left.foldl (fun acc v => acc - square v) (G.entry i i)
  if 0 < pivot then some (left.push (sqrt pivot)) else none

def factor? (G : Matrix α) : Option (Array (Array α)) :=
  (List.range G.rows).foldlM
    (fun rows i => do return rows.push (← nextRow? G rows i)) #[]

def forward (rows : Array (Array α)) (b : Array α) : Array α :=
  (List.range rows.size).foldl
    (fun y i =>
      let row := rows.getD i #[]
      let rest := (List.range i).foldl
        (fun acc k => acc - row.getD k 0 * y.getD k 0) (b.getD i 0)
      y.push (rest / row.getD i 0))
    #[]

def backward (rows : Array (Array α)) (y : Array α) : Array α :=
  (List.range rows.size).foldr
    (fun i x =>
      let rest := (List.range' (i + 1) (rows.size - (i + 1))).foldl
        (fun acc k => acc - (rows.getD k #[]).getD i 0 * x.getD k 0) (x.getD i 0)
      x.setIfInBounds i (rest / (rows.getD i #[]).getD i 0))
    y

/-- The solution of `G x = g`, if `G` is found to be positive definite. Only the lower triangle of
`G` is looked at. -/
def solve? (G : Matrix α) (g : Array α) : Option (Array α) := do
  let rows ← factor? G
  return backward rows (forward rows g)

end Cholesky
end SoftMargin
