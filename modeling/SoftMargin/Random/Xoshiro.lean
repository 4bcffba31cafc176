/-!
# Pseudorandom words

The generator xoshiro256** with its four words of state filled by SplitMix64. A
number below a bound comes from the upper half of a word by multiplication;
words that would favour some numbers are passed over.
-/

namespace SoftMargin
namespace Random

/-! ## SplitMix64 -/

def splitMix (counter : UInt64) : UInt64 × UInt64 :=
  let counter := counter + 0x9e3779b97f4a7c15
  let z := (counter ^^^ (counter >>> 30)) * 0xbf58476d1ce4e5b9
  let z := (z ^^^ (z >>> 27)) * 0x94d049bb133111eb
  (z ^^^ (z >>> 31), counter)

/-! ## xoshiro256** -/

structure Xoshiro where
  s0 : UInt64
  s1 : UInt64
  s2 : UInt64
  s3 : UInt64
deriving Repr, DecidableEq

namespace Xoshiro

def ofSeed (seed : UInt64) : Xoshiro :=
  let (s0, c) := splitMix seed
  let (s1, c) := splitMix c
  let (s2, c) := splitMix c
  let (s3, _) := splitMix c
  ⟨s0, s1, s2, s3⟩

def rotateLeft (x : UInt64) (k : UInt64) : UInt64 :=
  (x <<< k) ||| (x >>> (64 - k))

def next (g : Xoshiro) : UInt64 × Xoshiro :=
  let word := rotateLeft (g.s1 * 5) 7 * 9
  let t := g.s1 <<< 17
  let s2 := g.s2 ^^^ g.s0
  let s3 := g.s3 ^^^ g.s1
  let s1 := g.s1 ^^^ s2
  let s0 := g.s0 ^^^ s3
  (word, ⟨s0, s1, s2 ^^^ t, rotateLeft s3 45⟩)

/-- How often a word is passed over before any is taken. Each is passed over with a chance below
one half. -/
def patience : Nat :=
  1000

/-- The largest low half of a product with `k` that is not passed over: `k` shifted up to its full
width, less one. -/
def acceptedLow (k : Nat) : Nat :=
  k * Nat.pow 2 (31 - Nat.log2 k) - 1

def belowWithin (k : Nat) : Nat → Xoshiro → Nat × Xoshiro
  | 0, g => (0, g)
  | fuel + 1, g =>
      let (word, g) := g.next
      let product := (word >>> 32).toNat * k
      if product % Nat.pow 2 32 ≤ acceptedLow k then (product / Nat.pow 2 32, g)
      else belowWithin k fuel g

/-- A number below `k`, for a positive `k` below `2 ^ 32`. -/
def below (k : Nat) (g : Xoshiro) : Nat × Xoshiro :=
  belowWithin k patience g

end Xoshiro
end Random
end SoftMargin
