import SoftMargin.Scalar

/-!
# Residuals of an iteration

The sums over all partitions give the norms by which an iteration is judged. It
has converged when the primal and the dual residual both fall below their
thresholds.
-/

namespace SoftMargin

open Scalar

structure Sums (α : Type) where
  objective : α
  xsq : α
  zsq : α
  usq : α
  rsq : α
  ssq : α
deriving Repr

structure Residuals (α : Type) where
  /-- The relaxed objective. -/
  objective : α
  /-- The primal residual `‖x - z‖`. -/
  rNorm : α
  /-- The dual residual `ρ ‖z - zprev‖`. -/
  sNorm : α
  epsPri : α
  epsDual : α
deriving Repr

variable {α : Type} [Scalar α]

namespace Sums

def zero : Sums α :=
  ⟨0, 0, 0, 0, 0, 0⟩

def add (s t : Sums α) : Sums α :=
  ⟨s.objective + t.objective, s.xsq + t.xsq, s.zsq + t.zsq, s.usq + t.usq, s.rsq + t.rsq,
    s.ssq + t.ssq⟩

end Sums

namespace Residuals

def zero : Residuals α :=
  ⟨0, 0, 0, 0, 0⟩

def undefined : Residuals α :=
  ⟨Scalar.undefined, Scalar.undefined, Scalar.undefined, Scalar.undefined, Scalar.undefined⟩

def ofSums (s : Sums α) (points features : Nat) (rho tol reltol : α) : Residuals α :=
  let base := sqrt ((features + 1 : Nat) : α) * tol
  { objective := s.objective / (points : α)
    rNorm := sqrt s.rsq
    sNorm := sqrt s.ssq
    epsPri := base + reltol * larger (sqrt s.xsq) (sqrt s.zsq)
    epsDual := base + reltol * rho * sqrt s.usq }

def isConverged (r : Residuals α) : Bool :=
  r.rNorm < r.epsPri && r.sNorm < r.epsDual

def isFinite (r : Residuals α) : Bool :=
  Scalar.isFinite r.objective && Scalar.isFinite r.rNorm && Scalar.isFinite r.sNorm

end Residuals
end SoftMargin
