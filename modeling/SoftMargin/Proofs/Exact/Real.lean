import Mathlib.Analysis.Real.Sqrt
import SoftMargin.Proofs.Exact.Scalar

/-!
# The reals

Over the reals the square root is exact for every scalar that is not negative.
The machine constant can be any number: results that depend on how large it is
are stated over the reals with a constant of choice.
-/

namespace SoftMargin

noncomputable instance : ExactScalar ℝ where
  sqrt := Real.sqrt
  ceilNat a := ⌈a⌉₊
  epsilon := 1 / 2 ^ 52
  infinity := 0
  undefined := 0

theorem Scalar.sqrt_sq_real (a : ℝ) (h : 0 ≤ a) : Scalar.sqrt a ^ 2 = a :=
  Real.sq_sqrt h

def RealAt (_eps : ℝ) : Type :=
  ℝ

namespace RealAt

variable (eps : ℝ)

noncomputable instance : Field (RealAt eps) :=
  inferInstanceAs (Field ℝ)

noncomputable instance : LinearOrder (RealAt eps) :=
  inferInstanceAs (LinearOrder ℝ)

instance : IsStrictOrderedRing (RealAt eps) :=
  inferInstanceAs (IsStrictOrderedRing ℝ)

noncomputable instance : ExactScalar (RealAt eps) where
  sqrt := Real.sqrt
  ceilNat := (Nat.ceil : ℝ → ℕ)
  epsilon := eps
  infinity := 0
  undefined := 0

theorem ceilNat_le_iff {eps : ℝ} (a : RealAt eps) (n : Nat) :
    Scalar.ceilNat a ≤ n ↔ a ≤ (n : RealAt eps) := by
  have hceil : ∀ x : ℝ, ⌈x⌉₊ ≤ n ↔ x ≤ (n : ℝ) := fun _ => Nat.ceil_le
  exact hceil a

end RealAt
end SoftMargin
