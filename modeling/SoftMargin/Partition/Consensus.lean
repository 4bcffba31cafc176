import SoftMargin.Partition.Basic

/-!
# Consensus

The consensus vector holds the threshold and then the weights. It is the
average of what the partitions propose, with negative weights clipped. The
partitions and their states are run side by side, and one iteration updates the
local solutions, then the consensus, then the projections.
-/

namespace SoftMargin

open Scalar

variable {α : Type} [Scalar α]

structure Member (α : Type) where
  partition : Partition α
  state : LocalState α

structure Ensemble (α : Type) where
  members : Array (Member α)
  consensus : Array α

namespace Consensus

/-- The average of the shared parts of `x + u`, the threshold first and unclipped. -/
def average (members : Array (Member α)) (width : Nat) : Array α :=
  let total := members.foldl (fun acc m => m.partition.accumulateShared m.state acc) (zeros width)
  total.map (· / (members.size : α))

def clipWeights (v : Array α) : Array α :=
  v.extract 0 1 ++ positivePart (v.extract 1 v.size)

def next (members : Array (Member α)) (width : Nat) : Array α :=
  clipWeights (average members width)

end Consensus

namespace Ensemble

def start (parts : Array (Partition α)) (features : Nat) : Ensemble α :=
  ⟨parts.map fun p => ⟨p, p.initialState⟩, zeros (features + 1)⟩

def reset (e : Ensemble α) : Ensemble α :=
  ⟨e.members.map fun m => ⟨m.partition, m.partition.initialState⟩, zeros e.consensus.size⟩

def updateX (e : Ensemble α) (rho : α) : Array Bool × Ensemble α :=
  let updated := e.members.map fun m =>
    let (finite, state) := m.partition.updateX rho m.state
    (finite, (⟨m.partition, state⟩ : Member α))
  (updated.map (·.1), { e with members := updated.map (·.2) })

def updateConsensus (e : Ensemble α) : Ensemble α :=
  { e with consensus := Consensus.next e.members e.consensus.size }

def updateZU (e : Ensemble α) (consensus : Array α) : Ensemble α :=
  { e with members := e.members.map fun m =>
      ⟨m.partition, m.partition.updateZU consensus m.state⟩ }

def project (e : Ensemble α) : Ensemble α :=
  let e := e.updateConsensus
  e.updateZU e.consensus

def advance (e : Ensemble α) (rho : α) : Ensemble α :=
  (e.updateX rho).2.project

/-- The projections and multipliers, if every partition can take the consensus. -/
def updateZU? (e : Ensemble α) (consensus : Array α) : Option (Ensemble α) :=
  if e.members.all fun m => consensus.size == m.partition.features + 1 then
    some (e.updateZU consensus)
  else
    none

/-- Puts vectors of the right length in place of those of one state. -/
def replace? (e : Ensemble α) (i : Nat) (x z u : Option (Array α)) : Option (Ensemble α) := do
  let m ← e.members[i]?
  let x := x.getD m.state.x
  let z := z.getD m.state.z
  let u := u.getD m.state.u
  if x.size = m.partition.variableCount ∧ z.size = m.partition.variableCount ∧
      u.size = m.partition.variableCount then
    let state := { m.state with x, z, u }
    return { e with members := e.members.setIfInBounds i ⟨m.partition, state⟩ }
  else
    none

def sums (e : Ensemble α) (rho : α) : Sums α :=
  e.members.foldl (fun acc m => acc.add (m.partition.sums rho m.state)) Sums.zero

/-- The copies of the threshold and the weights that the local solutions hold. -/
def copies (e : Ensemble α) : Array (Array α) :=
  e.members.map fun m => m.partition.shared m.state.x

end Ensemble
end SoftMargin
