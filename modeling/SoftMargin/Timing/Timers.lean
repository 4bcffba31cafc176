import SoftMargin.Timing.Duration

/-!
# Nested timers

A timer that is started while another runs becomes its child, so a timer is
known by the path of keys from the outermost one. The timers are listed in the
order of their paths.

Suspension banks the time of the running timers and leaves their marks in
place; resumption sets the marks anew. Both reach a timer only through running
ones. Each timer that they reach reads the clock for itself, after the one
around it.
-/

namespace SoftMargin

/-- The keys of the timers around a timer, and its own. -/
abbrev TimerPath :=
  List String

structure TimerReading where
  since : Option Nat
  elapsed : Nat
deriving Repr, DecidableEq

/-- The timers with their readings, and the path of the innermost one that has been started and not
stopped. -/
structure Timers where
  current : TimerPath
  readings : List (TimerPath × TimerReading)
deriving Repr, DecidableEq

namespace TimerReading

def zero : TimerReading :=
  ⟨none, 0⟩

def start (now : Nat) (r : TimerReading) : TimerReading :=
  { r with since := some now }

def banked (now : Nat) (r : TimerReading) : Nat :=
  match r.since with
  | some since => r.elapsed + (now - since)
  | none => r.elapsed

def stop (now : Nat) (r : TimerReading) : TimerReading :=
  ⟨none, r.banked now⟩

def suspend (now : Nat) (r : TimerReading) : TimerReading :=
  { r with elapsed := r.banked now }

end TimerReading

namespace Timers

def empty : Timers :=
  ⟨[], []⟩

/-! ## Readings by path -/

def reading? (t : Timers) (path : TimerPath) : Option TimerReading :=
  (t.readings.find? fun e => e.1 = path).map (·.2)

/-- Adds a timer at its place in the order, unless it is there. -/
def insertZero (path : TimerPath) :
    List (TimerPath × TimerReading) → List (TimerPath × TimerReading)
  | [] => [(path, .zero)]
  | (p, r) :: rest =>
      if path = p then (p, r) :: rest
      else if path < p then (path, .zero) :: (p, r) :: rest
      else (p, r) :: insertZero path rest

def ensure (path : TimerPath) (t : Timers) : Timers :=
  { t with
    readings := (List.range path.length).foldl
      (fun readings k => insertZero (path.take (k + 1)) readings) t.readings }

def modify (path : TimerPath) (f : TimerReading → TimerReading) (t : Timers) : Timers :=
  { t with readings := t.readings.map fun (p, r) => if p = path then (p, f r) else (p, r) }

/-- Whether a timer and all around it run. -/
def isRunning (t : Timers) (path : TimerPath) : Bool :=
  (List.range path.length).all fun k =>
    ((t.reading? (path.take (k + 1))).bind (·.since)).isSome

/-! ## Operations -/

/-- Starts a timer inside the current one, and makes it the current one. -/
def start (now : Nat) (key : String) (t : Timers) : Timers :=
  let path := t.current ++ [key]
  { (t.ensure path).modify path (·.start now) with current := path }

/-- Stops the current timer. The one around it becomes the current one. -/
def stop (now : Nat) (t : Timers) : Timers :=
  if t.current.isEmpty then
    t
  else
    let around := t.current.dropLast
    { (t.ensure around).modify t.current (·.stop now) with current := around }

/-- How many timers read the clock before the one on a path, if all that run do so. -/
def place (t : Timers) (path : TimerPath) : Nat :=
  t.readings.countP fun e => e.1 < path && t.isRunning e.1

/-- Changes the readings of the running timers, each at the next time that the clock shows. -/
def sweep (change : Nat → TimerReading → TimerReading) (clock : Nat → Nat) (t : Timers) : Timers :=
  { t with readings := t.readings.map fun (p, r) =>
      if t.isRunning p then (p, change (clock (t.place p)) r) else (p, r) }

def suspend (clock : Nat → Nat) (t : Timers) : Timers :=
  t.sweep .suspend clock

def resume (clock : Nat → Nat) (t : Timers) : Timers :=
  t.sweep .start clock

/-- Forgets an outermost timer and all timers inside it. -/
def reset (key : String) (t : Timers) : Timers :=
  { t with readings := t.readings.filter fun e => e.1.head? ≠ some key }

/-! ## Times -/

/-- Of the timers with a key, the one inside the least path. -/
def find? (t : Timers) (key : String) : Option TimerReading :=
  let named := t.readings.filter fun e => e.1.getLast? = some key
  (named.foldl
    (fun (best : Option (TimerPath × TimerReading)) e =>
      match best with
      | some b => if e.1.dropLast < b.1.dropLast then some e else best
      | none => some e)
    none).map (·.2)

/-- The time banked by the first timer with a key, zero if there is none. -/
def time (t : Timers) (key : String) : Duration :=
  ⟨((t.find? key).map (·.elapsed)).getD 0⟩

def totalTime (t : Timers) : Duration :=
  let outermost := t.readings.filter fun e => e.1.length = 1
  ⟨outermost.foldl (fun total e => total + e.2.elapsed) 0⟩

def lines (t : Timers) : List String :=
  t.readings.map fun (p, r) =>
    String.ofList (List.replicate (4 * (p.length - 1)) ' ') ++ p.getLast?.getD "" ++ " : " ++
      (Duration.mk r.elapsed).text

/-! ## Runs -/

inductive Event where
  | start (key : String)
  | stop
  | suspend
  | resume
  | reset (key : String)
deriving Repr, DecidableEq

def apply (clock : Nat → Nat) (t : Timers) : Event → Timers
  | .start key => t.start (clock 0) key
  | .stop => t.stop (clock 0)
  | .suspend => t.suspend clock
  | .resume => t.resume clock
  | .reset key => t.reset key

/-- Events one after the other, counted from `k` on. What the clock shows at the readings that an
event takes is counted from zero in each of them. -/
def run (clock : Nat → Nat → Nat) : Nat → List Event → Timers → Timers
  | _, [], t => t
  | k, e :: rest, t => run clock (k + 1) rest (t.apply (clock k) e)

def timed (key : String) (inside : List Event) : List Event :=
  .start key :: inside ++ [.stop]

/-- A stretch of time that no timer counts. -/
def untimed : List Event :=
  [.suspend, .resume]

end Timers
end SoftMargin
