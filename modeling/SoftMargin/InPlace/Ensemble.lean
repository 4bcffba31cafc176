import SoftMargin.InPlace.System
import SoftMargin.Partition.Consensus

/-!
# Partitions with their vectors

A partition keeps its vectors as long as the solver lives, and so does the
consensus. Each operation writes into what the operations before it have left.
A reset clears the vectors of the iteration. It passes over those of the systems,
and over the accumulator of the consensus.
-/

namespace SoftMargin
namespace InPlace

open Scalar

variable {α : Type} [Scalar α]

/-- Whether the answer of a partition passes for finite, by the columns that the partition has, the
right hand side, and what the answer itself shows. -/
abbrev Verdict (α : Type) :=
  Array Nat → Array α → Bool → Bool

def Verdict.plain : Verdict α :=
  fun _ _ finite => finite

structure Member (α : Type) where
  columns : Array Nat
  features : Nat
  costs : Array α
  system : System α
  state : LocalState α

structure Ensemble (α : Type) where
  members : Array (Member α)
  consensus : Array α
  total : Array α

namespace Member

/-- What the iteration sees of the partition under a verdict: an answer for each right hand side,
whatever was solved before. -/
def partition (verdict : Verdict α) (m : Member α) : Partition α where
  columns := m.columns
  features := m.features
  costs := m.costs
  solve b :=
    let (finite, x) := m.system.kkt.solve b
    (verdict m.columns b finite, x)

def forget (verdict : Verdict α) (m : Member α) : SoftMargin.Member α :=
  ⟨m.partition verdict, m.state⟩

/-! ## Building -/

def newBy (rule : Ldl.OrderingRule α) (P : Problem α) (settings : Settings α)
    (columns : Array Nat) : Except LdlError (Member α) := do
  let kkt ← KktSolver.newBy rule (P.data.select columns) settings
  let costs := Partition.costsFor P columns.size
  let zero := zeros (2 * columns.size + P.features + 1)
  return ⟨columns, P.features, costs, System.start kkt, ⟨zero, zero, zero, zero⟩⟩

def buildAllBy (rule : Ldl.OrderingRule α) (draws : Random.Generator) (P : Problem α)
    (settings : Settings α) : Except (SolverError α) (Array (Member α)) :=
  Partition.buildEach draws (newBy rule P settings) P settings

/-! ## One iteration -/

def reset (m : Member α) : Member α :=
  let s := m.state
  { m with state := ⟨cleared s.x, cleared s.z, cleared s.u, cleared s.zPrevious⟩ }

def writeRightHandSide (rho : α) (m : Member α) : Member α :=
  let s := m.state
  let b := m.system.rhs
  let r := overwriteMap id (b.extract 0 s.x.size) (combine rho s.z (-rho) s.u)
  let r := combine (-1) m.costs 1 r
  let e := cleared (b.extract s.x.size b.size)
  let e := e.setIfInBounds (e.size - 1) 1
  { m with system := { m.system with rhs := r ++ e } }

/-- Solves for the local variables. An answer that does not pass for finite is taken over, and
reported. -/
def updateX (verdict : Verdict α) (rho : α) (m : Member α) : Bool × Member α :=
  let m := m.writeRightHandSide rho
  let b := m.system.rhs
  let (finite, system) := m.system.solve
  let x := overwriteMap id m.state.x (system.answer.extract 0 m.state.x.size)
  (verdict m.columns b finite, { m with system, state := { m.state with x } })

def updateZU (consensus : Array α) (m : Member α) : Member α :=
  let s := m.state
  let offset := 2 * m.columns.size
  let zPrevious := overwriteMap id s.zPrevious s.z
  let zLocal := overwriteMap id (s.z.extract 0 offset)
    (combine 1 (s.x.extract 0 offset) 1 (s.u.extract 0 offset))
  let zShared := overwriteMap id (s.z.extract offset s.z.size) consensus
  let z := positivePart zLocal ++ zShared
  let u := combine 1 s.x 1 s.u
  let u := combine (-1) z 1 u
  { m with state := { s with z, u, zPrevious } }

end Member

namespace Ensemble

/-- The ensemble without the vectors that no iteration reads before it writes them. -/
def forget (verdict : Verdict α) (e : Ensemble α) : SoftMargin.Ensemble α :=
  ⟨e.members.map (·.forget verdict), e.consensus⟩

/-- The accumulator keeps what it has. -/
def reset (e : Ensemble α) : Ensemble α :=
  { e with members := e.members.map Member.reset, consensus := cleared e.consensus }

def updateX (verdict : Verdict α) (rho : α) (e : Ensemble α) : Array Bool × Ensemble α :=
  let updated := e.members.map (Member.updateX verdict rho)
  (updated.map (·.1), { e with members := updated.map (·.2) })

def updateConsensus (e : Ensemble α) : Ensemble α :=
  let total := e.members.foldl
    (fun acc m => (m.partition .plain).accumulateShared m.state acc) (cleared e.total)
  let average := overwriteMap (· / (e.members.size : α)) e.consensus total
  { e with consensus := Consensus.clipWeights average, total }

def project (e : Ensemble α) : Ensemble α :=
  let e := e.updateConsensus
  { e with members := e.members.map (Member.updateZU e.consensus) }

def sums (e : Ensemble α) (rho : α) : Sums α :=
  (e.forget .plain).sums rho

def copies (e : Ensemble α) : Array (Array α) :=
  (e.forget .plain).copies

end Ensemble
end InPlace
end SoftMargin
