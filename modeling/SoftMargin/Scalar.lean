import SoftMargin.Dyadic

/-!
# Scalars

Every algorithm of the library is written once, generic in its scalars, with
its operations in a fixed order. Run on doubles it computes; read over an exact
field it is the textbook algorithm.

A scalar type need not be totally ordered. A comparison with an undefined value
fails, so tests are written in the direction in which such a failure is meant
to fall.
-/

namespace SoftMargin

class Scalar (α : Type) extends Zero α, One α, Add α, Sub α, Mul α, Div α, Neg α,
    LT α, LE α, NatCast α, OfScientific α where
  decLt : ∀ a b : α, Decidable (a < b)
  decLe : ∀ a b : α, Decidable (a ≤ b)
  sqrt : α → α
  /-- The least natural number that is not below a finite scalar. -/
  ceilNat : α → Nat
  isFinite : α → Bool
  /-- The gap between one and the next larger scalar. -/
  epsilon : α
  /-- Stands above every finite scalar, if there is such a value. -/
  infinity : α
  /-- The value of a number that has none. -/
  undefined : α

attribute [reducible, instance] Scalar.decLt Scalar.decLe

namespace Scalar

variable {α : Type} [Scalar α]

/-- Equality as the order sees it: an undefined value differs from itself. -/
@[inline] def same (a b : α) : Bool :=
  a ≤ b && b ≤ a

@[inline] def isUndefined (a : α) : Bool :=
  !(a ≤ a)

/-- The larger scalar. An undefined argument is passed over. -/
@[inline] def larger (a b : α) : α :=
  if a < b then b else if a ≤ a then a else b

@[inline] def smaller (a b : α) : α :=
  if b < a then b else if a ≤ a then a else b

@[inline] def pos (a : α) : α :=
  larger a 0

@[inline] def magnitude (a : α) : α :=
  if 0 < a then a else 0 - a

@[inline] def clip (a lo hi : α) : α :=
  if a < lo then lo else if hi < a then hi else a

@[inline] def recip (a : α) : α :=
  1 / a

@[inline] def square (a : α) : α :=
  a * a

/-- The least count that is not below a scalar. A scalar that no count below `2 ^ 64` reaches,
or that is not a number, asks for nothing and counts zero. -/
def toCount (a : α) : Nat :=
  if isFinite a && ceilNat a < Nat.pow 2 64 then ceilNat a else 0

end Scalar

/-! ## Doubles -/

instance : Scalar Float where
  natCast := Float.ofNat
  decLt := Float.decLt
  decLe := Float.decLe
  sqrt := Float.sqrt
  ceilNat x :=
    match DoubleValue.ofFloat x with
    | .finite d => d.ceilNat
    | _ => 0
  isFinite := Float.isFinite
  epsilon := 2.220446049250313e-16
  infinity := 1 / 0
  undefined := 0 / 0

end SoftMargin
