import SoftMargin.Decimal.Shortest

/-!
# Values and their texts

The values that are stored: numbers, counts, flags, lists of numbers, a choice
among names, records of named fields, and the absence of a value. A number is
written with the fewest digits that read back; one that is not finite is written
as an absent value.
-/

namespace SoftMargin
namespace Json

mutual

inductive Value where
  | absent
  | number (x : Float)
  | count (n : Nat)
  | flag (b : Bool)
  | numbers (xs : List Float)
  | choice (name : String)
  | record (fields : Fields)

inductive Fields where
  | nil
  | cons (name : String) (value : Value) (rest : Fields)

end

/-! ## Fields by name -/

namespace Fields

def ofList : List (String × Value) → Fields
  | [] => .nil
  | (name, value) :: rest => .cons name value (ofList rest)

def get? (name : String) : Fields → Option Value
  | .nil => none
  | .cons n v rest => if n = name then some v else rest.get? name

end Fields

namespace Value

def number? : Value → Option Float
  | .number x => some x
  | _ => none

def count? : Value → Option Nat
  | .count n => some n
  | _ => none

def flag? : Value → Option Bool
  | .flag b => some b
  | _ => none

def numbers? : Value → Option (Array Float)
  | .numbers xs => some xs.toArray
  | _ => none

def choice? : Value → Option String
  | .choice name => some name
  | _ => none

def fields? : Value → Option Fields
  | .record fields => some fields
  | _ => none

def optional? {β : Type} (item : Value → Option β) : Value → Option (Option β)
  | .absent => some none
  | v => (item v).map some

def ofOption {β : Type} (item : β → Value) : Option β → Value
  | some v => item v
  | none => .absent

end Value

/-! ## Writing -/

/-- Numbers from `10 ^ -5` up to `10 ^ 16` have no exponent, but a digit behind the point. Others
have an exponent, always with a sign. -/
def decimalText (d : Decimal) : String :=
  if d.digits = 0 then
    "0.0"
  else if -5 ≤ d.leading ∧ d.leading ≤ 15 then
    if d.exponent < 0 then d.positional else d.positional ++ ".0"
  else
    d.significand ++ "e" ++ (if d.leading < 0 then "-" else "+") ++ toString d.leading.natAbs

def numberText (x : Float) : String :=
  if x.isFinite then Decimal.textBy decimalText x else "null"

def quoted (name : String) : String :=
  "\"" ++ name ++ "\""

mutual

def Value.text : Value → String
  | .absent => "null"
  | .number x => numberText x
  | .count n => toString n
  | .flag b => if b then "true" else "false"
  | .numbers xs => "[" ++ ",".intercalate (xs.map numberText) ++ "]"
  | .choice name => quoted name
  | .record fields => "\x7b" ++ ",".intercalate fields.texts ++ "\x7d"

def Fields.texts : Fields → List String
  | .nil => []
  | .cons name value rest => (quoted name ++ ":" ++ value.text) :: rest.texts

end

end Json
end SoftMargin
