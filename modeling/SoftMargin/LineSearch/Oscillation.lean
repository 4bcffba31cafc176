import SoftMargin.Scalar

/-!
# Oscillations of a sequence

A sequence has a peak where a rise is followed by a fall, and a trough where a
fall is followed by a rise; flat steps in between do not count. The search looks
back from the end through the latest part of the sequence for the latest
extremum and the next one of the other kind.
-/

namespace SoftMargin
namespace Oscillation

open Scalar

variable {α : Type} [Scalar α] {m : Type → Type} [Monad m]

inductive Extremum where
  | peak
  | trough
deriving Repr, DecidableEq

def longestWindow : Nat :=
  500

def windowLength (k : Nat) : Nat :=
  min (2 * k / 3) longestWindow

/-- The extrema met when the steps are taken in the given order, which runs backward. `after` says
whether the sequence rises at the latest step taken that is not flat. Entries are asked for as they
are needed. -/
def extremaBy (read : Nat → m α) : List Nat → Option Bool → m (List (Extremum × Nat))
  | [], _ => pure []
  | i :: rest, after => do
      let step := (← read (i + 1)) - (← read i)
      if same step 0 then
        extremaBy read rest after
      else
        let rising : Bool := 0 < step
        match after with
        | some later =>
            if rising != later then
              return (if rising then .peak else .trough, i + 1) ::
                (← extremaBy read rest (some rising))
            else
              extremaBy read rest (some rising)
        | none => extremaBy read rest (some rising)

def extrema (s : Array α) (steps : List Nat) (after : Option Bool) : List (Extremum × Nat) :=
  Id.run (extremaBy (fun i => pure (s.getD i 0)) steps after)

/-- The first extremum listed, and the first after it of the other kind. -/
def oppositePair : List (Extremum × Nat) → Option (Nat × Nat)
  | [] => none
  | (kind, i) :: rest => (rest.find? fun e => e.1 != kind).map fun e => (i, e.2)

/-- The latest two extrema of opposite kinds in a sequence of length `k`, the later one first. -/
def latestPairBy (read : Nat → m α) (k : Nat) : m (Option (Nat × Nat)) := do
  let window := windowLength k
  if k < 3 ∨ window < 2 then
    return none
  else
    return oppositePair (← extremaBy read (List.range' (k - window) (window - 1)).reverse none)

def latestPair (s : Array α) : Option (Nat × Nat) :=
  Id.run (latestPairBy (fun i => pure (s.getD i 0)) s.size)

end Oscillation
end SoftMargin
