/-!
# Doubles as dyadic numbers

A finite double is an integer times a power of two. Everything that has to be
exact about a double, such as its decimal text or the least count above it, is
computed from that pair and not from the double itself.
-/

namespace SoftMargin

/-- The number `mantissa * 2 ^ exponent`, negated when `negative` is set. Zero keeps its sign. -/
structure Dyadic where
  negative : Bool
  mantissa : Nat
  exponent : Int
deriving Repr, DecidableEq

inductive DoubleValue where
  | undefined
  | infinite (negative : Bool)
  | finite (value : Dyadic)
deriving Repr, DecidableEq

namespace Dyadic

def ratio (d : Dyadic) : Nat × Nat :=
  if d.exponent < 0 then
    (d.mantissa, Nat.pow 2 d.exponent.natAbs)
  else
    (d.mantissa * Nat.pow 2 d.exponent.natAbs, 1)

def ceilMagnitude (d : Dyadic) : Nat :=
  let (num, den) := d.ratio
  (num + den - 1) / den

def ceilNat (d : Dyadic) : Nat :=
  if d.negative then 0 else d.ceilMagnitude

end Dyadic

namespace DoubleValue

/-- Reads sign, exponent and fraction from the 64 bits of a double. The fraction of a normal
number carries a hidden leading bit. -/
def ofBits (bits : UInt64) : DoubleValue :=
  let negative := bits >>> 63 == 1
  let biased := ((bits >>> 52) &&& 0x7ff).toNat
  let fraction := (bits &&& 0xfffffffffffff).toNat
  if biased == 0x7ff then
    if fraction == 0 then .infinite negative else .undefined
  else if biased == 0 then
    .finite ⟨negative, fraction, -1074⟩
  else
    .finite ⟨negative, fraction + Nat.pow 2 52, (biased : Int) - 1075⟩

def ofFloat (x : Float) : DoubleValue :=
  ofBits x.toBits

end DoubleValue
end SoftMargin
