import SoftMargin.Decimal.Rounding

/-!
# Durations

A duration is a count of nanoseconds. Its text uses the largest unit of which
it holds at least one, and no more decimals than it needs.
-/

namespace SoftMargin

structure Duration where
  nanoseconds : Nat
deriving Repr, DecidableEq

namespace Duration

/-- A duration given in seconds, rounded to nanoseconds. Negative and undefined counts of seconds,
and those of `2 ^ 64` and above, are no durations. -/
def ofSeconds? (seconds : Float) : Option Duration :=
  match DoubleValue.ofFloat seconds with
  | .finite d =>
      if d.negative ∧ d.mantissa ≠ 0 then
        none
      else
        let (num, den) := d.ratio
        let count := Decimal.roundHalfEven (num * Nat.pow 10 9) den
        if count < Nat.pow 2 64 * Nat.pow 10 9 then some ⟨count⟩ else none
  | _ => none

def toSeconds (d : Duration) : Float :=
  Float.ofNat (d.nanoseconds / Nat.pow 10 9) + Float.ofNat (d.nanoseconds % Nat.pow 10 9) / 1e9

def inUnit (count places : Nat) : String :=
  let chars := (Decimal.placePoint count places).toList
  let trimmed := if places = 0 then chars else (chars.reverse.dropWhile (· == '0')).reverse
  let trimmed := if trimmed.getLast? = some '.' then trimmed.dropLast else trimmed
  String.ofList trimmed

def text (d : Duration) : String :=
  let count := d.nanoseconds
  if Nat.pow 10 9 ≤ count then inUnit count 9 ++ "s"
  else if Nat.pow 10 6 ≤ count then inUnit count 6 ++ "ms"
  else if Nat.pow 10 3 ≤ count then inUnit count 3 ++ "µs"
  else inUnit count 0 ++ "ns"

end Duration
end SoftMargin
