import SoftMargin.Sparse.Csc

/-!
# Products with a symmetric matrix

A symmetric matrix is held as its upper triangle. Each stored entry off the
diagonal acts twice, once on either side of it.
-/

namespace SoftMargin
namespace Csc

variable {α : Type} [Scalar α]

/-- Adds what the entry `v` at `(row, col)` and its transpose contribute to `a * S x`. -/
def addSymmetricEntry (a : α) (x : Array α) (col : Nat) (acc : Array α) (row : Nat) (v : α) :
    Array α :=
  let acc := acc.modify row fun y => y + a * v * x.getD col 0
  if row = col then acc else acc.modify col fun y => y + a * v * x.getD row 0

/-- The vector `a * S x + b * y`, where `S` is the symmetric matrix with upper triangle `A`. -/
def symmetricMulAdd (A : Csc α) (a : α) (x : Array α) (b : α) (y : Array α) : Array α :=
  (List.range A.cols).foldl
    (fun acc col =>
      (A.column col).foldl (fun acc e => addSymmetricEntry a x col acc e.1 e.2) acc)
    (scale y b)

def symmetricMulAdd? (A : Csc α) (a : α) (x : Array α) (b : α) (y : Array α) :
    Option (Array α) :=
  if A.rows = A.cols ∧ x.size = A.cols ∧ y.size = A.cols ∧ A.Readable then
    some (A.symmetricMulAdd a x b y)
  else
    none

end Csc
end SoftMargin
