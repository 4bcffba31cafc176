import SoftMargin.LineSearch.Bisection
import SoftMargin.LineSearch.Oscillation
import SoftMargin.Problem
import SoftMargin.Simplex
import SoftMargin.Sorting
import SoftMargin.Trace

/-!
# Line search over a trace

An iteration that does not settle tends to circle its limit. Two averages of
consensus vectors are taken from the trace: around the latest extremum and the
one before it of the other kind, or else over the better and the worse half of
the latest iterations. The exact objective is minimized on the segment between
the two, and then over the threshold alone.
-/

namespace SoftMargin

open Scalar

inductive LineSearchStrategy where
  /-- Around the latest two extrema of the dual residual. -/
  | deep
  /-- From the better and the worse half of the latest iterations. -/
  | shallow
deriving Repr, DecidableEq

def LineSearchStrategy.name : LineSearchStrategy → String
  | .deep => "Deep"
  | .shallow => "Shallow"

structure LineSearchReport (α : Type) where
  strategy : LineSearchStrategy
  /-- The trace was long enough, and no two extrema were found. -/
  deepFailed : Bool
  /-- The ends of the segment, each a threshold followed by weights. -/
  first : Array α
  last : Array α
  /-- The point found, if the ends are far enough apart. -/
  refined : Option (Array α)
  /-- The exact objective there. -/
  objective : Option α
  adopted : Bool
  improvement : α
deriving Repr

namespace LineSearch

/-- How the entries of a trace are asked for. Its sizes are known. -/
structure Reading (m : Type → Type) (α : Type) where
  dual : Trace α → Nat → m α
  consensus : Trace α → Nat → m (Array α)

variable {α : Type} [Scalar α] {m : Type → Type} [Monad m]

def Reading.plain : Reading Id α where
  dual t k := t.sNorm.getD k 0
  consensus := Trace.consensusAt

/-! ## The ends of the segment -/

/-- How far an average reaches to either side of an extremum. -/
def reach : Nat :=
  5

def shortestWindow : Nat :=
  5

def longestWindow : Nat :=
  50

/-- The mean of the consensus vectors of some iterations, zero if there are none. -/
def meanBy (r : Reading m α) (t : Trace α) (iterations : List Nat) : m (Array α) := do
  let vectors ← iterations.mapM (r.consensus t)
  let total := vectors.foldl (fun acc v => combine 1 v 1 acc) (zeros t.width)
  return if iterations.isEmpty then total else scale total (recip (iterations.length : α))

def mean (t : Trace α) (iterations : List Nat) : Array α :=
  Id.run (meanBy .plain t iterations)

def near (i k : Nat) : List Nat :=
  let first := i - reach
  List.range' first (min (i + reach + 1) k - first)

def deepEndsBy (r : Reading m α) (t : Trace α) : m (Option (Array α × Array α)) := do
  match ← Oscillation.latestPairBy (r.dual t) t.sNorm.size with
  | some (i, j) =>
      return some (← meanBy r t (near i t.length), ← meanBy r t (near j t.length))
  | none => return none

def deepEnds? (t : Trace α) : Option (Array α × Array α) :=
  Id.run (deepEndsBy .plain t)

/-- How many of the latest iterations are split into halves, out of `k`. -/
def shallowWindow (k : Nat) : Nat :=
  min (min (max (k / 5) shortestWindow) longestWindow) k

def rankedBy (r : Reading m α) (t : Trace α) : m (List Nat) := do
  let window := shallowWindow t.length
  let keyed ← (List.range' (t.length - window) window).mapM fun i => return (← r.dual t i, i)
  return (Sorting.stableSort (fun a b => a.1 < b.1) keyed).map Prod.snd

def ranked (t : Trace α) : List Nat :=
  Id.run (rankedBy .plain t)

def shallowEndsBy (r : Reading m α) (t : Trace α) : m (Array α × Array α) := do
  let order ← rankedBy r t
  let half := min (max (order.length / 2) 1) order.length
  let better ← meanBy r t (order.take half)
  match order.drop half with
  | [] => return (better, better)
  | worse => return (better, ← meanBy r t worse)

def shallowEnds (t : Trace α) : Array α × Array α :=
  Id.run (shallowEndsBy .plain t)

def endsBy (r : Reading m α) (deepMinIter : Nat) (t : Trace α) :
    m (LineSearchStrategy × Array α × Array α) := do
  match ← if deepMinIter < t.length then deepEndsBy r t else pure none with
  | some (first, last) => return (.deep, first, last)
  | none => return (.shallow, ← shallowEndsBy r t)

def ends (deepMinIter : Nat) (t : Trace α) : LineSearchStrategy × Array α × Array α :=
  Id.run (endsBy .plain deepMinIter t)

/-! ## The point between them -/

def ontoSimplex (v : Array α) : Array α :=
  v.extract 0 1 ++ UnitSimplex.nearest (v.extract 1 v.size)

def objectiveAt (P : Problem α) (v : Array α) : α :=
  P.objective (v.getD 0 0) (v.extract 1 v.size)

def between (first last : Array α) (t : α) : Array α :=
  combine (1 - t) first t last

/-- The best point found on the segment, with the threshold then chosen for its weights, and the
exact objective there. -/
def refine (P : Problem α) (halvings : Nat) (first last : Array α) : Array α × α :=
  let first := ontoSimplex first
  let last := ontoSimplex last
  let t := Bisection.minimizer (fun t => objectiveAt P (between first last t)) halvings 0 1
  let point := between first last t
  let margins := P.margins (point.extract 1 point.size)
  let threshold := Bisection.minimizer (fun v => objectiveFromMargins P.bound v margins)
    halvings (least margins) (greatest margins)
  (point.setIfInBounds 0 threshold, objectiveFromMargins P.bound threshold margins)

/-- Ends closer than this are not searched between. -/
def shortestSegment : α :=
  1e-4

def run (P : Problem α) (deepMinIter halvings : Nat) (t : Trace α) (value : α) :
    LineSearchReport α :=
  let (strategy, first, last) := ends deepMinIter t
  let report : LineSearchReport α :=
    { strategy, first, last
      deepFailed := deepMinIter < t.length && strategy == .shallow
      refined := none
      objective := none
      adopted := false
      improvement := 0 }
  if shortestSegment < distance first last then
    let (point, objective) := refine P halvings first last
    { report with
      refined := some point
      objective := some objective
      adopted := objective < value
      improvement := if objective < value then value - objective else 0 }
  else
    report

end LineSearch
end SoftMargin
