import SoftMargin.Json.Skip
import SoftMargin.Json.Value

/-!
# Reading values of a known shape

A shape says what kind of value is asked for. A record may be given by its
named fields, in any order and with unknown ones among them, or as the list of
its fields in order. A lenient record may leave fields out; from another only
optional fields may be missing, and only where the fields are named.
-/

namespace SoftMargin
namespace Json

mutual

inductive Shape where
  | number
  /-- Counts below a limit. -/
  | count (limit : Nat)
  | flag
  | numbers
  | optional (shape : Shape)
  | choice (names : List String)
  | record (lenient : Bool) (fields : FieldShapes)

inductive FieldShapes where
  | nil
  | cons (name : String) (shape : Shape) (rest : FieldShapes)

end

def FieldShapes.ofList : List (String × Shape) → FieldShapes
  | [] => .nil
  | (name, shape) :: rest => .cons name shape (ofList rest)

def Shape.isOptional : Shape → Bool
  | .optional _ => true
  | _ => false

/-! ## Values of other kinds -/

/-- Refuses the value in front. One that cannot be read is refused for that. -/
def refuse {β : Type} : Reader β := do
  let c ← peekSome
  match c with
  | '[' => throw .mismatch
  | '{' => throw .mismatch
  | '"' =>
      advance
      let _ ← stringBody false
      throw .mismatch
  | 'n' =>
      literal "null".toList
      throw .mismatch
  | 't' =>
      literal "true".toList
      throw .mismatch
  | 'f' =>
      literal "false".toList
      throw .mismatch
  | _ =>
      match number? .truncated c with
      | some read =>
          let _ ← finiteNumber read
          throw .mismatch
      | none => throw .malformed

/-! ## Simple values -/

def readNumber : Reader (Number × Float) := do
  match number? .truncated (← peekSome) with
  | some read => finiteNumber read
  | none => refuse

def readCount (limit : Nat) : Reader Nat := do
  let (n, _) ← readNumber
  match n.count? with
  | some count => if count < limit then return count else throw .mismatch
  | none => throw .mismatch

def readFlag : Reader Bool := do
  match ← peekSome with
  | 't' =>
      literal "true".toList
      return true
  | 'f' =>
      literal "false".toList
      return false
  | _ => refuse

/-! ## Lists -/

def anotherItem (first : Bool) : Reader Bool := do
  let c ← peekSome
  if c = ']' then
    return false
  if first then
    return true
  if c ≠ ',' then
    throw .malformed
  advance
  if (← peekSome) = ']' then
    throw .malformed
  return true

def listEnd : Reader Unit :=
  expect ']'

def numbersWithin : Nat → Bool → List Float → Reader (List Float)
  | 0, _, _ => throw .truncated
  | fuel + 1, first, seen => do
      if ← anotherItem first then
        let (_, x) ← readNumber
        numbersWithin fuel false (x :: seen)
      else
        return seen.reverse

def readNumbers : Reader (List Float) := do
  if (← peekSome) = '[' then
    advance
    let xs ← numbersWithin ((← get).length + 1) true []
    listEnd
    return xs
  else
    refuse

/-! ## Choices -/

def readName (names : List String) : Reader String := do
  if (← peekSome) = '"' then
    advance
    let name ← stringBody false
    if names.contains name then return name else throw .mismatch
  else
    refuse

/-- A name, or an object with that name for its one field and nothing for its value. -/
def readChoice (names : List String) : Reader String := do
  match ← peekSome with
  | '"' => readName names
  | '{' =>
      advance
      let name ← readName names
      expect ':'
      if (← peekSome) = 'n' then literal "null".toList else refuse
      expect '}'
      return name
  | _ => throw .malformed

/-! ## Records -/

structure FieldReader where
  name : String
  isOptional : Bool
  read : Reader Value

def nextName? (first : Bool) : Reader (Option String) := do
  let c ← peekSome
  if c = '}' then
    return none
  if !first then
    if c ≠ ',' then
      throw .malformed
    advance
  expect '"'
  return some (← stringBody false)

/-- Named fields, up to the end of the object. Each field is read once. -/
def namedWithin (fields : List FieldReader) :
    Nat → Bool → List (String × Value) → Reader (List (String × Value))
  | 0, _, _ => throw .truncated
  | fuel + 1, first, seen => do
      match ← nextName? first with
      | none => return seen
      | some name =>
          match fields.find? (·.name == name) with
          | none =>
              expect ':'
              skipValue
              namedWithin fields fuel false seen
          | some field =>
              if (seen.lookup name).isSome then
                throw .mismatch
              expect ':'
              let value ← field.read
              namedWithin fields fuel false ((name, value) :: seen)

/-- The fields in their order, as far as they are there or may be missing. -/
def collect (lenient : Bool) (seen : List (String × Value)) : List FieldReader → Reader Fields
  | [] => return .nil
  | field :: rest => do
      match seen.lookup field.name with
      | some value => return .cons field.name value (← collect lenient seen rest)
      | none =>
          if lenient then collect lenient seen rest
          else if field.isOptional then
            return .cons field.name .absent (← collect lenient seen rest)
          else throw .mismatch

def listed (lenient : Bool) : Bool → List FieldReader → Reader Fields
  | _, [] => return .nil
  | first, field :: rest => do
      if ← anotherItem first then
        let value ← field.read
        return .cons field.name value (← listed lenient false rest)
      else if lenient then
        return .nil
      else
        throw .mismatch

def readRecord (lenient : Bool) (fields : List FieldReader) : Reader Fields := do
  match ← peekSome with
  | '[' =>
      advance
      let values ← listed lenient true fields
      listEnd
      return values
  | '{' =>
      advance
      let seen ← namedWithin fields ((← get).length + 1) true []
      let values ← collect lenient seen fields
      expect '}'
      return values
  | _ => refuse

mutual

def Shape.read : Shape → Reader Value
  | .number => do return .number (← readNumber).2
  | .count limit => do return .count (← readCount limit)
  | .flag => do return .flag (← readFlag)
  | .numbers => do return .numbers (← readNumbers)
  | .optional shape => do
      match ← peek with
      | some 'n' =>
          literal "null".toList
          return .absent
      | _ => shape.read
  | .choice names => do return .choice (← readChoice names)
  | .record lenient fields => do return .record (← readRecord lenient fields.readers)

def FieldShapes.readers : FieldShapes → List FieldReader
  | .nil => []
  | .cons name shape rest => ⟨name, shape.isOptional, shape.read⟩ :: rest.readers

end

def Shape.parse (shape : Shape) (text : String) : Except ReadError Value :=
  match shape.read.run text.toList with
  | .error e => .error e
  | .ok (value, rest) => if rest.all isBlank then .ok value else .error .malformed

end Json
end SoftMargin
