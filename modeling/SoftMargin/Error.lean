import SoftMargin.Decimal.Shortest
import SoftMargin.Ldl.Access
import SoftMargin.LeastSquares.Bounded
import SoftMargin.Settings

/-!
# Errors of a solve

One type lists everything that can keep a solver from being built or from
finishing. The texts are for doubles.
-/

namespace SoftMargin

inductive DualRecoveryError (α : Type) where
  /-- More free duals are needed than the support of the weights provides. -/
  | overDetermined (required available : Nat)
  | inconsistent (residual : α)
  /-- The primal point does not have the dimensions of the data. -/
  | incompatibleDimension
  | leastSquares (source : LeastSquaresError)
  /-- The matrix lacks some of its entries. -/
  | outOfRange
deriving Repr, DecidableEq

inductive SolverError (α : Type) where
  | badBoxBound (bound : α)
  | badSettings (source : SettingsError)
  | badDimensions (features points partitions : Nat)
  | nonFiniteData
  | factorization (partition : Nat) (source : LdlError)
  | nonFiniteIterate (iteration : Nat)
  | dualRecovery (source : DualRecoveryError α)
deriving Repr, DecidableEq

def DualRecoveryError.message : DualRecoveryError Float → String
  | .overDetermined required available =>
      "Over-determined KKT system: " ++ toString required ++ " free duals required, " ++
        toString available ++ " available"
  | .inconsistent residual =>
      "Recovered duals are inconsistent (residual " ++ Decimal.shortScientificText residual ++ ")"
  | .incompatibleDimension => "Primal point is incompatible with the data dimensions"
  | .leastSquares source => "Least squares solve failed: " ++ source.message
  | .outOfRange => "Matrix index out of range"

def SolverError.message : SolverError Float → String
  | .badBoxBound bound => "Box bound D = " ++ Decimal.plainText bound ++ " must lie in (0, 1]"
  | .badSettings source => "Invalid settings: " ++ source.message
  | .badDimensions features points partitions =>
      "Incompatible dimensions: H is " ++ toString features ++ " x " ++ toString points ++
        " with " ++ toString partitions ++ " partitions"
  | .nonFiniteData => "Data matrix contains non-finite values"
  | .factorization partition source =>
      "KKT factorization failed in partition " ++ toString partition ++ ": " ++ source.message
  | .nonFiniteIterate iteration =>
      "Iterate became non-finite at iteration " ++ toString iteration
  | .dualRecovery source => "Dual recovery failed: " ++ source.message

end SoftMargin
