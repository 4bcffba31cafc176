import SoftMargin.Kkt.Solver
import SoftMargin.Problem
import SoftMargin.Random.Shuffle
import SoftMargin.Residual

/-!
# Partitions

Each partition owns some of the points, and a copy of the threshold and the
weights that all of them share. Its variables are the slacks and surpluses of
its points, followed by that copy. It is given by its costs and by a way to
solve its system; an iteration sees nothing else of it.
-/

namespace SoftMargin

open Scalar

/-- What a partition is. `solve` answers the system of the partition for a right hand side and
says whether the answer is finite. -/
structure Partition (α : Type) where
  columns : Array Nat
  features : Nat
  costs : Array α
  solve : Array α → Bool × Array α

/-- What an iteration keeps of a partition: the local solution, its projection, the scaled
multipliers and the projection before. -/
structure LocalState (α : Type) where
  x : Array α
  z : Array α
  u : Array α
  zPrevious : Array α

namespace Partition

variable {α : Type} [Scalar α]

def points (p : Partition α) : Nat :=
  p.columns.size

def shape (p : Partition α) : Kkt.Shape :=
  ⟨p.features, p.points⟩

def variableCount (p : Partition α) : Nat :=
  p.shape.variableCount

def sharedOffset (p : Partition α) : Nat :=
  2 * p.points

/-! ## Building -/

/-- The costs of the local variables: the slacks at the box bound, the threshold at minus its share
of the points. All are multiplied by the number of points of the whole problem, so that they add
up over the partitions. -/
def costsFor (P : Problem α) (points : Nat) : Array α :=
  Array.replicate points ((P.points : α) * P.bound) ++
    zeros points ++ #[-(points : α)] ++ zeros P.features

def newBy (rule : Ldl.OrderingRule α) (P : Problem α) (settings : Settings α)
    (columns : Array Nat) : Except LdlError (Partition α) := do
  let kkt ← KktSolver.newBy rule (P.data.select columns) settings
  return {
    columns
    features := P.features
    costs := costsFor P columns.size
    solve := kkt.solve }

def buildGroups {β : Type} (build : Array Nat → Except LdlError β) :
    Nat → List (Array Nat) → Except (SolverError α) (List β)
  | _, [] => .ok []
  | i, columns :: rest => do
      match build columns with
      | .error source => throw (.factorization i source)
      | .ok p => return p :: (← buildGroups build (i + 1) rest)

/-- Deals out the points of a problem, and builds one value for each group. There have to be at
least as many points as groups. -/
def buildEach {β : Type} (draws : Random.Generator) (build : Array Nat → Except LdlError β)
    (P : Problem α) (settings : Settings α) : Except (SolverError α) (Array β) := do
  let count := settings.partitions.toNat
  if P.points < count then
    throw (.badDimensions P.features P.points count)
  let groups := Random.seededGroups draws P.points count settings.seed
  let built ← buildGroups build 0 groups.toList
  return built.toArray

def buildAllBy (rule : Ldl.OrderingRule α) (draws : Random.Generator) (P : Problem α)
    (settings : Settings α) : Except (SolverError α) (Array (Partition α)) :=
  buildEach draws (newBy rule P settings) P settings

/-! ## One iteration -/

def initialState (p : Partition α) : LocalState α :=
  let zero := zeros p.variableCount
  ⟨zero, zero, zero, zero⟩

/-- The right hand side `[ρ (z - u) - f; 0, …, 0, 1]`. -/
def rightHandSide (p : Partition α) (rho : α) (s : LocalState α) : Array α :=
  let r := combine rho s.z (-rho) s.u
  let r := combine (-1) p.costs 1 r
  r ++ (zeros p.points).push 1

/-- Solves for the local variables. An answer that is not finite is taken over, and reported. -/
def updateX (p : Partition α) (rho : α) (s : LocalState α) : Bool × LocalState α :=
  let (finite, answer) := p.solve (p.rightHandSide rho s)
  (finite, { s with x := answer.extract 0 p.variableCount })

def shared (p : Partition α) (v : Array α) : Array α :=
  v.extract p.sharedOffset v.size

/-- Adds the shared part of `x + u`, as far as the accumulator reaches. -/
def accumulateShared (p : Partition α) (s : LocalState α) (acc : Array α) : Array α :=
  let both := Array.zipWith (· + ·) (p.shared s.x) (p.shared s.u)
  acc.mapIdx fun i v => match both[i]? with
    | some w => v + w
    | none => v

/-- Projects the local part, takes the consensus for the shared part, and updates the
multipliers. -/
def updateZU (p : Partition α) (consensus : Array α) (s : LocalState α) : LocalState α :=
  let offset := p.sharedOffset
  let z := positivePart (combine 1 (s.x.extract 0 offset) 1 (s.u.extract 0 offset)) ++ consensus
  let u := combine 1 s.x 1 s.u
  let u := combine (-1) z 1 u
  { s with z, u, zPrevious := s.z }

def sums (p : Partition α) (rho : α) (s : LocalState α) : Sums α where
  objective := dot p.costs s.x
  xsq := squaredNorm s.x
  zsq := squaredNorm s.z
  usq := squaredNorm s.u
  rsq := squaredDistance s.x s.z
  ssq := rho * rho * squaredDistance s.z s.zPrevious

end Partition
end SoftMargin
