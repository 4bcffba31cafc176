import SoftMargin.Sorting
import SoftMargin.Vector.Basic

/-!
# The unit simplex

Its points have nonnegative entries that sum to one. The nearest of them to a
given vector comes from one common shift: sort the entries in falling order,
keep the longest run that stays positive once it is shifted to sum to one, and
clip the rest to zero.
-/

namespace SoftMargin
namespace UnitSimplex

open Scalar

variable {α : Type} [Scalar α]

structure ShiftSearch (α : Type) where
  count : Nat
  total : α
  shift : α

/-- Takes in the next largest entry. Its shift counts if it leaves the entry positive. -/
def ShiftSearch.next (s : ShiftSearch α) (v : α) : ShiftSearch α :=
  let total := s.total + v
  let count := s.count + 1
  let shift := (total - 1) / (count : α)
  ⟨count, total, if 0 < v - shift then shift else s.shift⟩

def commonShift (v : Array α) : α :=
  let falling := Sorting.stableSort (fun a b => b < a) v.toList
  (falling.foldl ShiftSearch.next ⟨0, 0, 0⟩).shift

def nearest (v : Array α) : Array α :=
  let shift := commonShift v
  v.map fun x => pos (x - shift)

/-- How far a vector is from the simplex: the defect of its sum and the weight below zero. -/
def defect (a : Array α) : α :=
  let below := a.foldl (fun total x => total + pos (-x)) 0
  magnitude (1 - sum a) + below

end UnitSimplex
end SoftMargin
