import SoftMargin.Scalar

/-!
# Minimizing a convex function

An interval is halved towards the side to which the function falls, as seen
from a small difference around the middle.
-/

namespace SoftMargin
namespace Bisection

open Scalar

variable {α : Type} [Scalar α]

/-- Half the width over which a difference is taken. -/
def probe : α :=
  sqrt epsilon

def middle (lo hi : α) : α :=
  (lo + hi) / 2.0

def isNarrow (lo hi : α) : Bool :=
  hi - lo ≤ epsilon * larger 1 (magnitude lo)

def interval (g : α → α) : Nat → α → α → α × α
  | 0, lo, hi => (lo, hi)
  | left + 1, lo, hi =>
      if isNarrow lo hi then
        (lo, hi)
      else
        let m := middle lo hi
        if g (m - probe) < g (m + probe) then interval g left lo m else interval g left m hi

/-- A minimizer of `g` between `lo` and `hi`, up to the width of the interval that is left. -/
def minimizer (g : α → α) (halvings : Nat) (lo hi : α) : α :=
  let (lo, hi) := interval g halvings lo hi
  middle lo hi

end Bisection
end SoftMargin
