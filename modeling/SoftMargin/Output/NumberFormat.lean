import SoftMargin.Decimal.Shortest

/-!
# How numbers are printed

A number is printed with a fixed count of decimals, with or without an exponent.
In tables the exponent has a sign and at least two digits, so that columns line
up.
-/

namespace SoftMargin

inductive ExponentStyle where
  | none
  /-- As many digits as it needs, and a sign only if it is negative. -/
  | plain
  /-- A sign, and two digits or more. -/
  | wide
deriving Repr, DecidableEq

structure NumberFormat where
  places : Nat
  exponent : ExponentStyle
  /-- Positive numbers get a sign. -/
  plus : Bool
  /-- Shorter texts are filled up with blanks on the left. -/
  width : Nat

namespace NumberFormat

def padLeft (width : Nat) (fill : Char) (text : String) : String :=
  String.ofList (List.replicate (width - text.length) fill) ++ text

def wideExponent (e : Int) : String :=
  (if e < 0 then "-" else "+") ++ padLeft 2 '0' (toString e.natAbs)

def magnitude (f : NumberFormat) (d : Dyadic) : String :=
  match f.exponent with
  | .none => Decimal.fixed f.places d
  | .plain => Decimal.scientific f.places d
  | .wide =>
      let (digits, e) := Decimal.scientificParts f.places d
      Decimal.placePoint digits f.places ++ "e" ++ wideExponent e

def sign (f : NumberFormat) (negative : Bool) : String :=
  if negative then "-" else if f.plus then "+" else ""

def text (f : NumberFormat) (x : Float) : String :=
  padLeft f.width ' ' <| match DoubleValue.ofFloat x with
    | .undefined => "NaN"
    | .infinite negative => f.sign negative ++ "inf"
    | .finite d => f.sign d.negative ++ f.magnitude d

def fixed (places : Nat) : NumberFormat :=
  ⟨places, .none, false, 0⟩

def scientific (places : Nat) : NumberFormat :=
  ⟨places, .plain, false, 0⟩

def table (places width : Nat) : NumberFormat :=
  ⟨places, .wide, false, width⟩

def signedTable (places width : Nat) : NumberFormat :=
  ⟨places, .wide, true, width⟩

end NumberFormat
end SoftMargin
