import SoftMargin.Dyadic

/-!
# Rounding to a decimal grid

A decimal grid is given by the power of ten between its neighbours. A quotient
is rounded to the nearest grid point, a tie to the even one.
-/

namespace SoftMargin
namespace Decimal

def roundHalfEven (num den : Nat) : Nat :=
  let whole := num / den
  let rest := num % den
  if 2 * rest < den then whole
  else if den < 2 * rest then whole + 1
  else if whole % 2 = 0 then whole else whole + 1

def inUnits (num den : Nat) (unit : Int) : Nat × Nat :=
  if unit < 0 then (num * Nat.pow 10 unit.natAbs, den) else (num, den * Nat.pow 10 unit.natAbs)

def leadingExponent (num den : Nat) : Int :=
  let guess := ((Nat.repr num).length : Int) - ((Nat.repr den).length : Int)
  let (n, d) := inUnits num den guess
  if d ≤ n then guess else guess - 1

def zeroText (count : Nat) : String :=
  String.ofList (List.replicate count '0')

/-- Digits with `count` of them, or more, behind the point; none puts no point. -/
def placePoint (digits : Nat) (count : Nat) : String :=
  let text := Nat.repr digits
  let text := zeroText (count + 1 - text.length) ++ text
  if count = 0 then
    text
  else
    let chars := text.toList
    let before := chars.length - count
    String.ofList (chars.take before) ++ "." ++ String.ofList (chars.drop before)

def fixed (places : Nat) (d : Dyadic) : String :=
  let (num, den) := d.ratio
  let (n, u) := inUnits num den (-(places : Int))
  placePoint (roundHalfEven n u) places

def scientificParts (places : Nat) (d : Dyadic) : Nat × Int :=
  if d.mantissa = 0 then
    (0, 0)
  else
    let (num, den) := d.ratio
    let e := leadingExponent num den
    let (n, u) := inUnits num den (e - places)
    let digits := roundHalfEven n u
    if digits < Nat.pow 10 (places + 1) then (digits, e) else (digits / 10, e + 1)

def scientific (places : Nat) (d : Dyadic) : String :=
  let (digits, e) := scientificParts places d
  placePoint digits places ++ "e" ++ toString e

end Decimal
end SoftMargin
