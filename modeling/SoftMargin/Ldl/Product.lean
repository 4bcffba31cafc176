import SoftMargin.Ldl.Factor
import SoftMargin.Matrix

/-!
# The matrix that a factor stands for

Multiplied out and put back in the order of the columns, the factor gives the
matrix that solves are made with. It differs from the matrix that was factored
only in the pivots that were replaced.
-/

namespace SoftMargin
namespace LdlFactor

variable {α : Type} [Scalar α]

def lowerEntry (F : LdlFactor α) (r c : Nat) : α :=
  if r = c then 1
  else (F.lower.column c).foldl (fun acc e => if e.1 = r then acc + e.2 else acc) 0

def orderedEntry (F : LdlFactor α) (r c : Nat) : α :=
  (List.range (min r c + 1)).foldl
    (fun acc k => acc + F.lowerEntry r k * F.pivots.getD k 0 * F.lowerEntry c k) 0

def product (F : LdlFactor α) : Matrix α :=
  let steps := Ldl.inverseOrder F.order
  Matrix.ofFn F.order.size F.order.size fun r c =>
    F.orderedEntry (steps.getD r 0) (steps.getD c 0)

end LdlFactor
end SoftMargin
