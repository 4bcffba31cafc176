import SoftMargin.Random.Xoshiro

/-!
# Shuffling and dealing

From the last place down to the second, each place is swapped with one drawn
from the places up to it. The shuffled indices are dealt out in turn, like
cards, and each hand is sorted. Whatever is drawn, every index ends up in one
hand, and the sizes of two hands differ by at most one.
-/

namespace SoftMargin
namespace Random

/-- A source of draws: a number below a bound, and the source after the draw. -/
abbrev Source (σ : Type) :=
  Nat → σ → Nat × σ

def shuffleStep {σ : Type} (draw : Source σ) (s : Array Nat × σ) (i : Nat) : Array Nat × σ :=
  let (j, source) := draw (i + 1) s.2
  (s.1.swapIfInBounds i j, source)

def shuffle {σ : Type} (draw : Source σ) (source : σ) (n : Nat) : Array Nat :=
  ((List.range' 1 (n - 1)).reverse.foldl (shuffleStep draw) (Array.range n, source)).1

def hand (cards : Array Nat) (hands i : Nat) : Array Nat :=
  let places := (List.range cards.size).filter fun k => k % hands = i
  ((places.map fun k => cards.getD k 0).mergeSort (· ≤ ·)).toArray

def deal (cards : Array Nat) (hands : Nat) : Array (Array Nat) :=
  (Array.range hands).map (hand cards hands)

def groups {σ : Type} (draw : Source σ) (source : σ) (n hands : Nat) : Array (Array Nat) :=
  deal (shuffle draw source n) hands

structure Generator where
  State : Type
  ofSeed : UInt64 → State
  below : Source State

def Xoshiro.generator : Generator :=
  ⟨Xoshiro, Xoshiro.ofSeed, Xoshiro.below⟩

def seededGroups (draws : Generator) (n hands : Nat) (seed : UInt64) : Array (Array Nat) :=
  groups draws.below (draws.ofSeed seed) n hands

end Random
end SoftMargin
