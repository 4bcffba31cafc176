import SoftMargin.Decimal.Rounding

/-!
# Shortest decimals

A double is told from its neighbours by every decimal that lies closer to it
than to them. Of those decimals the shortest is taken, and of several shortest
ones the nearest. The search tries one digit, two digits and so on, up to the
seventeen that always suffice; on each grid only the two neighbours of the
double have to be tried.
-/

namespace SoftMargin

/-- The number `digits * 10 ^ exponent`. -/
structure Decimal where
  digits : Nat
  exponent : Int
deriving Repr, DecidableEq

namespace Decimal

def trim (d : Decimal) : Decimal :=
  go (Nat.repr d.digits).length d
where
  go : Nat → Decimal → Decimal
    | 0, d => d
    | fuel + 1, d =>
        if d.digits ≠ 0 ∧ d.digits % 10 = 0 then go fuel ⟨d.digits / 10, d.exponent + 1⟩ else d

/-- The reals that read back as a double, between `lo / den` and `hi / den` around `mid / den`.
The ends belong to it if `closed` is set. -/
structure ReadBack where
  lo : Nat
  mid : Nat
  hi : Nat
  den : Nat
  closed : Bool

/-- Half way to either neighbour. Below a power of two the neighbour is nearer. -/
def ReadBack.of (d : Dyadic) : ReadBack :=
  let belowIsNear := d.mantissa = Nat.pow 2 52 ∧ -1074 < d.exponent
  let mid := 4 * d.mantissa
  let lo := if belowIsNear then mid - 1 else mid - 2
  let (unit, den) := (⟨false, 1, d.exponent - 2⟩ : Dyadic).ratio
  ⟨lo * unit, mid * unit, (mid + 2) * unit, den, d.mantissa % 2 = 0⟩

def ReadBack.holds (r : ReadBack) (digits : Nat) (exponent : Int) : Bool :=
  let scale := Nat.pow 10 exponent.natAbs
  let (v, lo, hi) :=
    if exponent < 0 then (digits * r.den, r.lo * scale, r.hi * scale)
    else (digits * scale * r.den, r.lo, r.hi)
  if r.closed then lo ≤ v && v ≤ hi else lo < v && v < hi

/-- The decimal with `count` digits that reads back and is nearest, if there is one. -/
def ReadBack.onGrid? (r : ReadBack) (leading : Int) (count : Nat) : Option Decimal :=
  let exponent := leading - count + 1
  let (n, u) := inUnits r.mid r.den exponent
  let below := n / u
  let nearest := roundHalfEven n u
  let other := if nearest = below then below + 1 else below
  if r.holds nearest exponent then some ⟨nearest, exponent⟩
  else if r.holds other exponent then some ⟨other, exponent⟩
  else none

def shortest (d : Dyadic) : Decimal :=
  if d.mantissa = 0 then
    ⟨0, 0⟩
  else
    let r := ReadBack.of d
    let leading := leadingExponent r.mid r.den
    match ((List.range 17).map (· + 1)).findSome? (r.onGrid? leading) with
    | some decimal => decimal.trim
    | none => ⟨0, 0⟩

/-! ## Texts -/

def leading (d : Decimal) : Int :=
  (Nat.repr d.digits).length + d.exponent - 1

def positional (d : Decimal) : String :=
  if d.exponent < 0 then
    placePoint d.digits d.exponent.natAbs
  else
    Nat.repr d.digits ++ zeroText d.exponent.natAbs

def significand (d : Decimal) : String :=
  placePoint d.digits ((Nat.repr d.digits).length - 1)

def sign (negative : Bool) : String :=
  if negative then "-" else ""

def textBy (text : Decimal → String) (x : Float) : String :=
  match DoubleValue.ofFloat x with
  | .undefined => "NaN"
  | .infinite negative => sign negative ++ "inf"
  | .finite d => sign d.negative ++ text (shortest d)

def plainText : Float → String :=
  textBy positional

def shortScientificText : Float → String :=
  textBy fun d => d.significand ++ "e" ++ toString d.leading

end Decimal
end SoftMargin
