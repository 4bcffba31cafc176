import SoftMargin.Kkt.Assembly
import SoftMargin.Kkt.Refinement
import SoftMargin.Ldl.Factor
import SoftMargin.Settings

/-!
# Solving the system of a partition

The system is factored once, with a small negative lower right block that makes
every order of elimination safe. Each solve is refined against the system
without that block.
-/

namespace SoftMargin

open Scalar

structure KktSolver (α : Type) where
  system : Csc α
  factor : LdlFactor α
  limits : Refinement.Limits α

namespace KktSolver

variable {α : Type} [Scalar α]

/-- Variables have positive pivots and equations negative ones. -/
def expectedSigns (s : Kkt.Shape) : Array Int :=
  Array.replicate s.variableCount 1 ++ Array.replicate s.equationCount (-1)

def newBy (rule : Ldl.OrderingRule α) (H : Matrix α) (settings : Settings α) :
    Except LdlError (KktSolver α) := do
  if !H.Complete then
    throw .outOfRange
  let shape := Kkt.Shape.of H
  let regularized := Kkt.assemble H settings.rho (-settings.staticReg)
  let factor ← Ldl.factorBy rule regularized
    { LdlSettings.default with signs := some (expectedSigns shape) }
  return {
    system := Kkt.clearEquationBlock shape regularized
    factor
    limits :=
      { reltol := settings.refineReltol
        abstol := settings.refineAbstol
        maxIter := settings.refineMaxIter.toNat } }

def new (H : Matrix α) (settings : Settings α) : Except LdlError (KktSolver α) :=
  newBy Ldl.naturalOrder H settings

def dimension (K : KktSolver α) : Nat :=
  K.system.cols

def solve (K : KktSolver α) (b : Array α) : Bool × Array α :=
  Refinement.solve K.system K.factor.solve K.limits b

def solve? (K : KktSolver α) (b : Array α) : Option (Bool × Array α) :=
  if b.size = K.dimension then some (K.solve b) else none

end KktSolver
end SoftMargin
