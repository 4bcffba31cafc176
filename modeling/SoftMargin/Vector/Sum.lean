import SoftMargin.Scalar

/-!
# Blockwise sums

A long sum is cut into blocks of 32 items. The blocks are summed from left to
right and their totals are added in pairs, round after round, until one is left.
Over exact scalars this is the plain sum.
-/

namespace SoftMargin

variable {α : Type} [Scalar α]

namespace BlockSum

def blockLength : Nat :=
  32

def runningTotal (xs : List α) : α :=
  xs.foldl (· + ·) 0

/-- The totals of the full blocks, then that of the items left over, of which there may be none. -/
def blockTotals (xs : List α) : List α :=
  if xs.length < blockLength then
    [runningTotal xs]
  else
    runningTotal (xs.take blockLength) :: blockTotals (xs.drop blockLength)
termination_by xs.length
decreasing_by
  simp only [List.length_drop, blockLength] at *
  omega

/-- One round: neighbours are added, and a last one without a neighbour stays. -/
def addNeighbours : List α → List α
  | x :: y :: rest => (x + y) :: addNeighbours rest
  | rest => rest

theorem length_addNeighbours (xs : List α) :
    (addNeighbours xs).length = (xs.length + 1) / 2 := by
  fun_induction addNeighbours xs with
  | case1 x y rest ih =>
      simp [ih]
      omega
  | case2 rest h =>
      match rest with
      | [] => simp
      | [_] => simp
      | x :: y :: tail => exact absurd rfl (h x y tail)

def mergeTotals (totals : List α) : α :=
  match totals with
  | [] => 0
  | [total] => total
  | x :: y :: rest => mergeTotals (addNeighbours (x :: y :: rest))
termination_by totals.length
decreasing_by
  simp [length_addNeighbours]
  omega

end BlockSum

def blockSum (xs : List α) : α :=
  BlockSum.mergeTotals (BlockSum.blockTotals xs)

end SoftMargin
