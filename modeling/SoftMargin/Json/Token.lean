import SoftMargin.Dyadic

/-!
# Tokens of JSON texts

A text is read from the front, one token at a time, and the first thing that is
wrong decides the outcome. A text may be malformed, it may end too early, or it
may hold a value of another kind than the one that is asked for.
-/

namespace SoftMargin
namespace Json

inductive ReadError where
  /-- The text is not JSON, or holds a number beyond the doubles. -/
  | malformed
  /-- A value of the wrong kind, or a field too many or too few. -/
  | mismatch
  | truncated
deriving Repr, DecidableEq

abbrev Reader (β : Type) :=
  StateT (List Char) (Except ReadError) β

def isBlank (c : Char) : Bool :=
  c == ' ' || c == '\n' || c == '\t' || c == '\r'

def isDigit (c : Char) : Bool :=
  '0' ≤ c && c ≤ '9'

def peek : Reader (Option Char) := do
  modify (·.dropWhile isBlank)
  return (← get).head?

def advance : Reader Unit :=
  modify List.tail

def peekSome : Reader Char := do
  match ← peek with
  | some c => return c
  | none => throw .truncated

def expect (c : Char) : Reader Unit := do
  if (← peekSome) = c then advance else throw .malformed

def literal : List Char → Reader Unit
  | [] => return ()
  | c :: rest => do
      match ← get with
      | [] => throw .truncated
      | d :: _ =>
          if c = d then
            advance
            literal rest
          else
            throw .malformed

/-! ## Strings -/

def hexDigit? (c : Char) : Option Nat :=
  if isDigit c then some (c.toNat - '0'.toNat)
  else if 'a' ≤ c && c ≤ 'f' then some (c.toNat - 'a'.toNat + 10)
  else if 'A' ≤ c && c ≤ 'F' then some (c.toNat - 'A'.toNat + 10)
  else none

def utf8Length (cs : List Char) : Nat :=
  cs.foldl (fun length c => length + c.utf8Size) 0

/-- The number that four hexadecimal digits spell. The text ends too early if fewer than four bytes
are left, whatever they are. -/
def fourHexDigits : Reader Nat := do
  let text ← get
  if utf8Length (text.take 4) < 4 then
    throw .truncated
  match text with
  | a :: b :: c :: d :: rest =>
      match hexDigit? a, hexDigit? b, hexDigit? c, hexDigit? d with
      | some a, some b, some c, some d =>
          set rest
          return ((a * 16 + b) * 16 + c) * 16 + d
      | _, _, _, _ => throw .malformed
  | _ => throw .malformed

def simpleEscape? : Char → Option Char
  | '"' => some '"'
  | '\\' => some '\\'
  | '/' => some '/'
  | 'b' => some '\x08'
  | 'f' => some '\x0c'
  | 'n' => some '\n'
  | 'r' => some '\r'
  | 't' => some '\t'
  | _ => none

def isHighSurrogate (n : Nat) : Bool :=
  0xd800 ≤ n && n ≤ 0xdbff

def isLowSurrogate (n : Nat) : Bool :=
  0xdc00 ≤ n && n ≤ 0xdfff

def takeExactly (c : Char) : Reader Unit := do
  match ← get with
  | [] => throw .truncated
  | d :: rest => if c = d then set rest else throw .malformed

/-- The character of a numeric escape. A high surrogate has to be followed by the escape of a low
one, and the two make one character. -/
def numericEscape : Reader Char := do
  let n ← fourHexDigits
  if isLowSurrogate n then
    throw .malformed
  if isHighSurrogate n then
    takeExactly '\\'
    takeExactly 'u'
    let m ← fourHexDigits
    if isLowSurrogate m then
      return Char.ofNat ((n - 0xd800) * 1024 + (m - 0xdc00) + 0x10000)
    else
      throw .malformed
  else
    return Char.ofNat n

/-- The character of an escape, after its backslash. Where the string is only skipped, numeric
escapes need not make characters. -/
def escape (skipped : Bool) : Reader Char := do
  match ← get with
  | [] => throw .truncated
  | c :: rest =>
      set rest
      match simpleEscape? c with
      | some d => return d
      | none =>
          if c ≠ 'u' then
            throw .malformed
          else if skipped then
            let _ ← fourHexDigits
            return ' '
          else
            numericEscape

/-- The characters up to the closing quote, the latest first. Each step takes one of the characters
that are left, so these bound the steps. -/
def stringWithin (skipped : Bool) : List Char → List Char → Reader (List Char)
  | [], _ => throw .truncated
  | _ :: left, seen => do
      match ← get with
      | [] => throw .truncated
      | '"' :: rest =>
          set rest
          return seen
      | '\\' :: rest =>
          set rest
          let c ← escape skipped
          stringWithin skipped left (c :: seen)
      | c :: rest =>
          if c.toNat < 0x20 then
            throw .malformed
          set rest
          stringWithin skipped left (c :: seen)

def stringBody (skipped : Bool) : Reader String := do
  let seen ← stringWithin skipped (← get) []
  return String.ofList seen.reverse

/-! ## Numbers -/

/-- The number `digits * 10 ^ exponent`, and whether it was written without point and exponent. -/
structure Number where
  negative : Bool
  digits : Nat
  exponent : Int
  whole : Bool
deriving Repr, DecidableEq

def digitsValue (cs : List Char) : Nat :=
  cs.foldl (fun n c => n * 10 + (c.toNat - '0'.toNat)) 0

def someDigits (ending : ReadError) : Reader (List Char) := do
  let text ← get
  let (digits, rest) := text.span isDigit
  if digits.isEmpty then
    throw (if rest.isEmpty then ending else .malformed)
  set rest
  return digits

def wholeDigits (ending : ReadError) : Reader (List Char) := do
  let digits ← someDigits ending
  match digits with
  | '0' :: _ :: _ => throw .malformed
  | _ => return digits

def fractionDigits (ending : ReadError) : Reader (Option (List Char)) := do
  match ← get with
  | '.' :: rest =>
      set rest
      return some (← someDigits ending)
  | _ => return none

def exponentPart (ending : ReadError) : Reader (Option Int) := do
  match ← get with
  | c :: rest =>
      if c = 'e' ∨ c = 'E' then
        let (negative, rest) := match rest with
          | '+' :: rest => (false, rest)
          | '-' :: rest => (true, rest)
          | _ => (false, rest)
        set rest
        let value := digitsValue (← someDigits ending)
        return some (if negative then -(value : Int) else value)
      else
        return none
  | [] => return none

def numberBody (ending : ReadError) (negative : Bool) : Reader Number := do
  let before ← wholeDigits ending
  let after ← fractionDigits ending
  let exponent ← exponentPart ending
  let fraction := after.getD []
  return {
    negative
    digits := digitsValue (before ++ fraction)
    exponent := exponent.getD 0 - fraction.length
    whole := after.isNone && exponent.isNone }

namespace Number

/-- Powers of ten beyond this are beyond the doubles, and those below its negative vanish. -/
def exponentLimit : Int :=
  400

def toFloat? (n : Number) : Option Float :=
  let size := n.exponent + (Nat.repr n.digits).length
  let magnitude : Float :=
    if n.digits = 0 ∨ size < -exponentLimit then 0
    else if exponentLimit < size then 1 / 0
    else Float.ofScientific n.digits (n.exponent < 0) n.exponent.natAbs
  if magnitude.isFinite then some (if n.negative then -magnitude else magnitude) else none

def count? (n : Number) : Option Nat :=
  if n.whole ∧ !n.negative ∧ n.digits < Nat.pow 2 64 then some n.digits else none

end Number

def number? (ending : ReadError) (first : Char) : Option (Reader Number) :=
  if first = '-' then
    some do
      advance
      numberBody ending true
  else if isDigit first then
    some (numberBody ending false)
  else
    none

def finiteNumber (read : Reader Number) : Reader (Number × Float) := do
  let n ← read
  match n.toFloat? with
  | some x => return (n, x)
  | none => throw .malformed

end Json
end SoftMargin
