import SoftMargin.Residual
import SoftMargin.Sparse.Csc

/-!
# Traces

A trace records every iteration of a run: its residuals, the consensus vector,
and the copy of it that each partition holds. The vectors lie one after the
other in flat storage, `width` entries each.
-/

namespace SoftMargin

structure Trace (α : Type) where
  rNorm : Array α
  sNorm : Array α
  epsPri : Array α
  epsDual : Array α
  objective : Array α
  consensus : Array α
  copies : Array α
  width : Nat
  partitions : Nat
deriving Repr

namespace Trace

variable {α : Type} [Scalar α]

def empty (features partitions : Nat) : Trace α :=
  ⟨#[], #[], #[], #[], #[], #[], #[], features + 1, partitions⟩

def push (t : Trace α) (r : Residuals α) (consensus : Array α) (copies : Array (Array α)) :
    Trace α :=
  { t with
    rNorm := t.rNorm.push r.rNorm
    sNorm := t.sNorm.push r.sNorm
    epsPri := t.epsPri.push r.epsPri
    epsDual := t.epsDual.push r.epsDual
    objective := t.objective.push r.objective
    consensus := t.consensus ++ consensus
    copies := t.copies ++ copies.flatten }

/-- Records an iteration whose vectors have the widths and the number that the trace is for. -/
def push? (t : Trace α) (r : Residuals α) (consensus : Array α) (copies : Array (Array α)) :
    Option (Trace α) :=
  if consensus.size = t.width ∧ copies.size = t.partitions ∧
      copies.all (fun v => v.size == t.width) then
    some (t.push r consensus copies)
  else
    none

def length (t : Trace α) : Nat :=
  t.rNorm.size

def isEmpty (t : Trace α) : Bool :=
  t.length == 0

/-- The consensus vector after iteration `k`, counted from zero. -/
def consensusAt (t : Trace α) (k : Nat) : Array α :=
  t.consensus.extract (k * t.width) ((k + 1) * t.width)

def consensusAt? (t : Trace α) (k : Nat) : Option (Array α) :=
  slice? t.consensus (k * t.width) ((k + 1) * t.width)

def copyStart (t : Trace α) (k i : Nat) : Nat :=
  (k * t.partitions + i) * t.width

def copyAt? (t : Trace α) (k i : Nat) : Option (Array α) :=
  slice? t.copies (t.copyStart k i) (t.copyStart k i + t.width)

def residualsAt? (t : Trace α) (k : Nat) : Option (Residuals α) := do
  return {
    objective := ← t.objective[k]?
    rNorm := ← t.rNorm[k]?
    sNorm := ← t.sNorm[k]?
    epsPri := ← t.epsPri[k]?
    epsDual := ← t.epsDual[k]? }

end Trace
end SoftMargin
