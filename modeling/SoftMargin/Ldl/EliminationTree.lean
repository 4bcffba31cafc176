import SoftMargin.Ldl.Access

/-!
# Elimination trees

The parent of a column is the first later column that its elimination touches.
The tree is built column by column. From each row of column `j` a walk climbs
the tree as built so far, up to a node that column `j` has reached before; each
node on the way gains an entry in column `j` of the factor, and a node without
a parent gets `j` for its parent.
-/

namespace SoftMargin
namespace Ldl

variable {α : Type}

/-- The tree so far. `reached` holds the last column that a walk came from, per node. -/
structure TreeState where
  parent : Array (Option Nat)
  counts : Array Nat
  reached : Array Nat

/-- Climbs from node `i` until it meets a node reached from column `j`. -/
def TreeState.climb (j : Nat) : Nat → Nat → TreeState → Except LdlError TreeState
  | 0, _, _ => .error .outOfRange
  | fuel + 1, i, s => do
      if (← read s.reached i) = j then
        return s
      let parent := (← read s.parent i).getD j
      let counts ← write s.counts i ((← read s.counts i) + 1)
      climb j fuel parent
        { parent := s.parent.setIfInBounds i (some parent)
          counts
          reached := s.reached.setIfInBounds i j }

/-- Takes in column `j`. A walk marks a new node at each step but the last. -/
def TreeState.addColumn (A : Csc α) (s : TreeState) (j : Nat) : Except LdlError TreeState := do
  let reached ← write s.reached j j
  let column ← readColumn A j
  column.foldlM (fun s (row, _) => s.climb j (A.cols + 1) row) { s with reached }

/-- The parents of the columns, and the number of entries below the diagonal in each column of the
factor. -/
def eliminationTree (A : Csc α) : Except LdlError (Array (Option Nat) × Array Nat) := do
  let n := A.cols
  let s ← (List.range n).foldlM (TreeState.addColumn A)
    { parent := Array.replicate n none
      counts := Array.replicate n 0
      reached := Array.replicate n 0 }
  return (s.parent, s.counts)

end Ldl
end SoftMargin
