import SoftMargin.Json.Shape

/-!
# Stored types

A type is stored by way of values of one shape. What is read has that shape, so
only a value that does not come from a text can fail to be one of the type.
-/

namespace SoftMargin
namespace Json

structure Codec (β : Type) where
  shape : Shape
  encode : β → Value
  decode? : Value → Option β

namespace Codec

variable {β : Type}

def text (c : Codec β) (b : β) : String :=
  (c.encode b).text

def parse (c : Codec β) (text : String) : Except ReadError β := do
  match c.decode? (← c.shape.parse text) with
  | some b => return b
  | none => throw .mismatch

/-! ## Simple types -/

def number : Codec Float where
  shape := .number
  encode := .number
  decode? := Value.number?

def numbers : Codec (Array Float) where
  shape := .numbers
  encode xs := .numbers xs.toList
  decode? := Value.numbers?

def flag : Codec Bool where
  shape := .flag
  encode := .flag
  decode? := Value.flag?

def size : Codec Nat where
  shape := .count (Nat.pow 2 64)
  encode := .count
  decode? := Value.count?

def word32 : Codec UInt32 where
  shape := .count (Nat.pow 2 32)
  encode n := .count n.toNat
  decode? v := v.count?.map Nat.toUInt32

def word64 : Codec UInt64 where
  shape := .count (Nat.pow 2 64)
  encode n := .count n.toNat
  decode? v := v.count?.map Nat.toUInt64

def optional (c : Codec β) : Codec (Option β) where
  shape := .optional c.shape
  encode := Value.ofOption c.encode
  decode? := Value.optional? c.decode?

def choice (values : List β) (name : β → String) : Codec β where
  shape := .choice (values.map name)
  encode b := .choice (name b)
  decode? v := do
    let written ← v.choice?
    values.find? fun b => name b == written

/-! ## Fields -/

def field (c : Codec β) (name : String) : String × Shape :=
  (name, c.shape)

def value (c : Codec β) (name : String) (b : β) : String × Value :=
  (name, c.encode b)

def item? (c : Codec β) (name : String) (fields : Fields) : Option β :=
  (fields.get? name).bind c.decode?

end Codec
end Json
end SoftMargin
