import SoftMargin.Kkt.Solver

/-!
# A system with its vectors

A system is solved once in every iteration. The vectors that this takes are
allocated with it and kept from one solve to the next: the right hand side, the
answer, two vectors for the refinement, and the workspace of the factor. Nothing
clears them in between. A correction that helps trades places with the answer.

The refinement asks for a direct answer and for corrections. It does not depend on
how good they are, so the direct solver is a parameter. The iteration takes the
factor of the system.
-/

namespace SoftMargin
namespace InPlace

open Scalar

variable {α : Type} [Scalar α]

def cleared (x : Array α) : Array α :=
  x.map fun _ => 0

structure System (α : Type) where
  kkt : KktSolver α
  rhs : Array α
  answer : Array α
  residual : Array α
  correction : Array α
  workspace : Array α

/-- How a system writes the direct answer, and how it writes the answer with a correction. -/
structure Direct (α : Type) where
  substitute : System α → System α
  correct : System α → System α

namespace System

def start (kkt : KktSolver α) : System α :=
  let zero := zeros kkt.dimension
  ⟨kkt, zero, zero, zero, zero, kkt.factor.workspace⟩

def substitute (S : System α) : System α :=
  let (workspace, answer) := S.kkt.factor.solveIn S.workspace (overwriteMap id S.answer S.rhs)
  { S with workspace, answer }

def correct (S : System α) : System α :=
  let (workspace, direct) :=
    S.kkt.factor.solveIn S.workspace (overwriteMap id S.correction S.residual)
  { S with workspace, correction := combine 1 S.answer 1 direct }

def look (S : System α) (x : Array α) : α × System α :=
  let residual := S.kkt.system.symmetricMulAdd (-1) x 1 (overwriteMap id S.residual S.rhs)
  (maxNorm residual, { S with residual })

end System

namespace Direct

def ofFactor : Direct α :=
  ⟨System.substitute, System.correct⟩

def ofFunction (f : Array α → Array α) : Direct α where
  substitute S := { S with answer := f (overwriteMap id S.answer S.rhs) }
  correct S :=
    let step := f (overwriteMap id S.correction S.residual)
    { S with correction := combine 1 S.answer 1 step }

end Direct

namespace System

/-- Writes a correction, and its residual over the one that it answers. -/
def attempt (direct : Direct α) (S : System α) : α × System α :=
  let S := direct.correct S
  S.look S.correction

def trade (S : System α) : System α :=
  { S with answer := S.correction, correction := S.answer }

/-- Corrects while that helps. The residual of the answer has the given largest entry. -/
def refineBy (direct : Direct α) (target : α) : Nat → α → System α → α × System α
  | 0, norm, S => (norm, S)
  | left + 1, norm, S =>
      if !isFinite norm then
        (norm, S)
      else if norm ≤ target then
        (norm, S)
      else
        let (next, T) := S.attempt direct
        if next < norm then refineBy direct target left next T.trade else (norm, T)

def finish (direct : Direct α) (target : α) (left : Nat) (norm : α) (S : System α) :
    Bool × System α :=
  let (norm, S) := S.refineBy direct target left norm
  (isFinite norm && allFinite S.answer, S)

def solveBy (direct : Direct α) (S : System α) : Bool × System α :=
  let S := direct.substitute S
  let (norm, S) := S.look S.answer
  S.finish direct (S.kkt.limits.target S.rhs) S.kkt.limits.maxIter norm

def solve (S : System α) : Bool × System α :=
  S.solveBy .ofFactor

end System
end InPlace
end SoftMargin
