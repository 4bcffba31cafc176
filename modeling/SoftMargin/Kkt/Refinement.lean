import SoftMargin.Sparse.Symmetric

/-!
# Iterative refinement

A direct solver answers for a matrix near the one that is meant. Its answer is
improved by solving for the residual and adding the result, as long as the
residual is above its limit and each correction makes it smaller.
-/

namespace SoftMargin
namespace Refinement

open Scalar

variable {α : Type} [Scalar α]

structure Limits (α : Type) where
  reltol : α
  abstol : α
  maxIter : Nat

structure State (α : Type) where
  x : Array α
  residual : Array α
  norm : α

def State.of (K : Csc α) (b x : Array α) : State α :=
  let residual := K.symmetricMulAdd (-1) x 1 b
  ⟨x, residual, maxNorm residual⟩

def State.correct (K : Csc α) (direct : Array α → Array α) (b : Array α) (s : State α) : State α :=
  State.of K b (combine 1 s.x 1 (direct s.residual))

def Limits.target (limits : Limits α) (b : Array α) : α :=
  limits.abstol + limits.reltol * maxNorm b

def refine (K : Csc α) (direct : Array α → Array α) (b : Array α) (target : α) :
    Nat → State α → State α
  | 0, s => s
  | left + 1, s =>
      if !isFinite s.norm then
        s
      else if s.norm ≤ target then
        s
      else
        let next := s.correct K direct b
        if next.norm < s.norm then refine K direct b target left next else s

def solve (K : Csc α) (direct : Array α → Array α) (limits : Limits α) (b : Array α) :
    Bool × Array α :=
  let s := refine K direct b (limits.target b) limits.maxIter (State.of K b (direct b))
  (isFinite s.norm && allFinite s.x, s.x)

end Refinement
end SoftMargin
