/-!
# Reading UTF-8

Bytes that are no UTF-8 can still be shown. Each longest run of bytes that
begins a character and is not continued as it has to be is shown as one
replacement character, and so is a byte that begins none.
-/

namespace SoftMargin
namespace Utf8

/-- What the front of a byte sequence holds: a character, or bytes that are none, with their
count. -/
inductive Front where
  | character (c : Char) (count : Nat)
  | invalid (count : Nat)
deriving Repr, DecidableEq

def continues (b : UInt8) : Bool :=
  0x80 ≤ b && b ≤ 0xbf

/-- Whether a byte may come second, after the first byte of a character. Some pairs would spell a
character in more bytes than it needs, a surrogate, or a number beyond the last character. -/
def mayFollow (first second : UInt8) : Bool :=
  if first == 0xe0 then 0xa0 ≤ second && second ≤ 0xbf
  else if first == 0xed then 0x80 ≤ second && second ≤ 0x9f
  else if first == 0xf0 then 0x90 ≤ second && second ≤ 0xbf
  else if first == 0xf4 then 0x80 ≤ second && second ≤ 0x8f
  else continues second

/-- How many bytes the character has that a byte begins, none for a byte that begins no
character. -/
def width (first : UInt8) : Nat :=
  if first < 0x80 then 1
  else if 0xc2 ≤ first && first ≤ 0xdf then 2
  else if 0xe0 ≤ first && first ≤ 0xef then 3
  else if 0xf0 ≤ first && first ≤ 0xf4 then 4
  else 0

/-- The low six bits, which a byte adds to the number of a character. -/
def payload (b : UInt8) : Nat :=
  (b &&& 0x3f).toNat

def front (first : UInt8) (rest : List UInt8) : Front :=
  match width first, rest with
  | 1, _ => .character (Char.ofNat first.toNat) 1
  | 2, b :: _ =>
      if mayFollow first b then
        .character (Char.ofNat ((first &&& 0x1f).toNat * 64 + payload b)) 2
      else .invalid 1
  | 3, b :: c :: _ =>
      if !mayFollow first b then .invalid 1
      else if !continues c then .invalid 2
      else .character
        (Char.ofNat (((first &&& 0x0f).toNat * 64 + payload b) * 64 + payload c)) 3
  | 3, [b] => if mayFollow first b then .invalid 2 else .invalid 1
  | 4, b :: c :: d :: _ =>
      if !mayFollow first b then .invalid 1
      else if !continues c then .invalid 2
      else if !continues d then .invalid 3
      else .character
        (Char.ofNat
          ((((first &&& 0x07).toNat * 64 + payload b) * 64 + payload c) * 64 + payload d)) 4
  | 4, [b, c] =>
      if !mayFollow first b then .invalid 1 else if continues c then .invalid 3 else .invalid 2
  | 4, [b] => if mayFollow first b then .invalid 2 else .invalid 1
  | _, _ => .invalid 1

def frontsWithin : Nat → List UInt8 → List Front
  | 0, _ => []
  | _ + 1, [] => []
  | fuel + 1, first :: rest =>
      let f := front first rest
      let count := match f with
        | .character _ count => count
        | .invalid count => count
      f :: frontsWithin fuel (rest.drop (count - 1))

def fronts (bytes : List UInt8) : List Front :=
  frontsWithin bytes.length bytes

def replacement : Char :=
  '\uFFFD'

def Front.shown : Front → Char
  | .character c _ => c
  | .invalid _ => replacement

def Front.character? : Front → Option Char
  | .character c _ => some c
  | .invalid _ => none

def lossyText (bytes : List UInt8) : String :=
  String.ofList ((fronts bytes).map Front.shown)

def text? (bytes : List UInt8) : Option String :=
  ((fronts bytes).mapM Front.character?).map String.ofList

end Utf8
end SoftMargin
