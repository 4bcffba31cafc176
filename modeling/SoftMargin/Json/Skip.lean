import SoftMargin.Json.Token

/-!
# Passing over values

The value of an unknown field may be any, nested to any depth. It is passed over
with a stack that holds the lists and objects around the place reached. Inside
it a number is not valued, and a text that ends within a number is malformed.
-/

namespace SoftMargin
namespace Json

inductive Frame where
  | list
  | object
deriving Repr, DecidableEq

def Frame.close : Frame → Char
  | .list => ']'
  | .object => '}'

def skipFront : Reader (Option Frame) := do
  let c ← peekSome
  match c with
  | '[' =>
      advance
      return some .list
  | '{' =>
      advance
      return some .object
  | '"' =>
      advance
      let _ ← stringBody true
      return none
  | 'n' =>
      literal "null".toList
      return none
  | 't' =>
      literal "true".toList
      return none
  | 'f' =>
      literal "false".toList
      return none
  | _ =>
      match number? .malformed c with
      | some read =>
          let _ ← read
          return none
      | none => throw .malformed

def skipName : Reader Unit := do
  expect '"'
  let _ ← stringBody true
  expect ':'

/-- Goes on inside the given frames, the innermost first, to the end of all. `first` says whether
the innermost has just been opened. Each step takes one of the characters that are left. -/
def skipWithin : List Char → Bool → List Frame → Reader Unit
  | _, _, [] => return ()
  | [], _, _ => throw .truncated
  | _ :: left, first, frame :: around => do
      let c ← peekSome
      if c = frame.close then
        advance
        skipWithin left false around
      else
        if !first then
          if c = ',' then advance else throw .malformed
        if frame = .object then
          skipName
        match ← skipFront with
        | some inner => skipWithin left true (inner :: frame :: around)
        | none => skipWithin left false (frame :: around)

def skipValue : Reader Unit := do
  match ← skipFront with
  | some frame => skipWithin (← get) true [frame]
  | none => return ()

end Json
end SoftMargin
