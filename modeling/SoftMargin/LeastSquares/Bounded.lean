import SoftMargin.Matrix

/-!
# Least squares within bounds

The point of a box that minimizes `‖A x - b‖` is sought by an active set
method. Every variable starts on its lower bound. In turn, the bound variable
whose release promises the largest gain is freed, and the free variables move
to the minimizer of their subproblem, or as far towards it as the bounds allow;
those that meet a bound stay on it. A variable that would move straight back
through its bound is not freed again until some move has succeeded.

The lower bounds are finite; upper bounds may be infinite.
-/

namespace SoftMargin

open Scalar

inductive LeastSquaresError where
  | incompatibleDimension
  /-- Normal equations that are not positive definite, even after regularization. -/
  | factorization
  | badBounds
  | maxIterations (limit : Nat)
  /-- The matrix lacks some of its entries. -/
  | outOfRange
deriving Repr, DecidableEq

def LeastSquaresError.message : LeastSquaresError → String
  | .incompatibleDimension =>
      "Matrix dimension fields and/or array lengths are incompatible"
  | .factorization =>
      "Subproblem factorization failed: " ++
        "Cholesky factorization failed: matrix is not positive definite"
  | .badBounds => "Lower bounds must be finite and no greater than upper bounds"
  | .maxIterations limit => "Active set iteration limit (" ++ toString limit ++ ") reached"
  | .outOfRange => "Matrix index out of range"

namespace BoundedLeastSquares

/-- A method for positive definite systems. It may find that a system is not one. -/
abbrev DefiniteSolver (α : Type) :=
  Matrix α → Array α → Option (Array α)

/-- The problem of minimizing `‖A x - b‖` for `lower ≤ x ≤ upper`. -/
structure Problem (α : Type) where
  matrix : Matrix α
  target : Array α
  lower : Array α
  upper : Array α

inductive BoundState where
  | lower
  | upper
  | free
deriving Repr, DecidableEq

/-- Where the search stands. `gradient` is the negative gradient as it was last looked at, and a
blocked variable is not to be freed. -/
structure State (α : Type) where
  x : Array α
  bound : Array BoundState
  blocked : Array Bool
  gradient : Array α

variable {α : Type} [Scalar α]

namespace Problem

def size (P : Problem α) : Nat :=
  P.matrix.cols

def lowerAt (P : Problem α) (k : Nat) : α :=
  P.lower.getD k 0

def upperAt (P : Problem α) (k : Nat) : α :=
  P.upper.getD k 0

def check (P : Problem α) : Except LeastSquaresError Unit :=
  if P.target.size ≠ P.matrix.rows ∨ P.lower.size ≠ P.matrix.cols ∨
      P.upper.size ≠ P.matrix.cols then
    .error .incompatibleDimension
  else if (P.lower.zip P.upper).any fun (l, u) => !isFinite l || u < l then
    .error .badBounds
  else if P.matrix.Complete then
    .ok ()
  else
    .error .outOfRange

/-! ## Choosing a variable to free -/

/-- Gains up to this size are not pursued. -/
def tolerance (P : Problem α) : α :=
  1e-10 * (1 + maxNorm (P.matrix.transposeMul P.target))

def initial (P : Problem α) : State α where
  x := P.lower
  bound := Array.replicate P.size .lower
  blocked := Array.replicate P.size false
  gradient := P.matrix.transposeMul P.target

def look (P : Problem α) (s : State α) : State α :=
  let residual := P.matrix.mulAdd (-1) s.x 1 P.target
  { s with gradient := P.matrix.transposeMulAdd 1 residual 0 s.gradient }

def gain? (s : State α) (j : Nat) : Option α :=
  if s.blocked.getD j false then
    none
  else
    match s.bound.getD j .free with
    | .lower => some (s.gradient.getD j 0)
    | .upper => some (-s.gradient.getD j 0)
    | .free => none

def entering? (P : Problem α) (s : State α) : Option Nat :=
  ((List.range P.size).foldl
    (fun (best : Option Nat × α) j =>
      match gain? s j with
      | some gain => if best.2 < gain then (some j, gain) else best
      | none => best)
    (none, P.tolerance)).1

/-! ## The subproblem of the free variables -/

def freeVariables (P : Problem α) (s : State α) : Array Nat :=
  (Array.range P.size).filter fun k => s.bound.getD k .lower = .free

def freeTarget (P : Problem α) (x : Array α) (free : Array Nat) : Array α :=
  (List.range P.size).foldl
    (fun rhs k =>
      let xk := x.getD k 0
      if same xk 0 || free.contains k then rhs else combine (-xk) (P.matrix.col k) 1 rhs)
    P.target

def gram (F : Matrix α) : Matrix α :=
  Matrix.ofFn F.cols F.cols fun i j => dot (F.col i) (F.col j)

/-- The matrix with the same small amount, relative to its largest diagonal entry, added all along
the diagonal. -/
def withRidge (G : Matrix α) : Matrix α :=
  let scale := (List.range G.rows).foldl (fun acc i => larger acc (magnitude (G.entry i i))) 0
  let ridge := 1e-12 * (1 + scale)
  Matrix.ofFn G.rows G.cols fun i j => if i = j then G.entry i j + ridge else G.entry i j

/-- The minimizer over the free variables, found through the normal equations. Dependent columns
get a second try with a small ridge. -/
def freeMinimizer (P : Problem α) (solver : DefiniteSolver α) (x : Array α)
    (free : Array Nat) : Except LeastSquaresError (Array α) :=
  let F := P.matrix.select free
  let G := gram F
  let g := F.transposeMul (P.freeTarget x free)
  match solver G g with
  | some z => .ok z
  | none =>
      match solver (withRidge G) g with
      | some z => .ok z
      | none => .error .factorization

/-! ## Moving the free variables -/

def goesBack (s : State α) (source : BoundState) (k : Nat) (z : α) : Bool :=
  match source with
  | .lower => z ≤ s.x.getD k 0
  | _ => s.x.getD k 0 ≤ z

/-- The share of the way to `z` that variable `k` can go, if a bound is in the way. -/
def ratio? (P : Problem α) (s : State α) (k : Nat) (z : α) : Option α :=
  let x := s.x.getD k 0
  if z ≤ P.lowerAt k then some ((x - P.lowerAt k) / (x - z))
  else if P.upperAt k ≤ z then some ((P.upperAt k - x) / (z - x))
  else none

def stepLength (P : Problem α) (s : State α) (moves : List (Nat × α)) : α × Nat :=
  moves.foldl
    (fun best (k, z) =>
      match ratio? P s k z with
      | some ratio => if ratio < best.1 then (ratio, k) else best
      | none => best)
    (1, (moves.head?.map (·.1)).getD 0)

/-- How near to a bound counts as on it. -/
def slack (P : Problem α) (k : Nat) : α :=
  epsilon * 10.0 * (1 + magnitude (P.lowerAt k))

/-- Moves variable `k` the share `step` towards `z`, and onto a bound if it has come near one or is
the one that limits the step. -/
def moveTowards (P : Problem α) (step : α) (hit : Nat) (s : State α) (k : Nat) (z : α) :
    State α :=
  let old := s.x.getD k 0
  let new := old + step * (z - old)
  let low := P.lowerAt k
  let high := P.upperAt k
  let slack := P.slack k
  if k = hit ∨ new ≤ low + slack ∨ high - slack ≤ new then
    if z ≤ low ∨ new ≤ low + slack then
      { s with x := s.x.setIfInBounds k low, bound := s.bound.setIfInBounds k .lower }
    else
      { s with x := s.x.setIfInBounds k high, bound := s.bound.setIfInBounds k .upper }
  else
    { s with x := s.x.setIfInBounds k new }

def partialStep (P : Problem α) (s : State α) (moves : List (Nat × α)) : State α :=
  let (length, hit) := stepLength P s moves
  let length := clip length 0 1
  moves.foldl (fun s (k, z) => moveTowards P length hit s k z) s

def unblock (s : State α) : State α :=
  { s with blocked := s.blocked.map fun _ => false }

/-- What a pass over the free variables comes to: either they are settled for now, or some are left
that have not reached their minimizer. -/
inductive Pass (α : Type) where
  | settled (state : State α)
  | unsettled (state : State α)

/-- One pass. `entering` is the variable freed for this pass, with the bound it was on. -/
def pass (P : Problem α) (solver : DefiniteSolver α) (s : State α)
    (entering : Option (Nat × BoundState)) : Except LeastSquaresError (Pass α) := do
  let free := P.freeVariables s
  let z ← P.freeMinimizer solver s.x free
  let moves := (free.zip z).toList
  let back := entering.filter fun (j, source) =>
    goesBack s source j (((moves.find? fun m => m.1 == j).map (·.2)).getD (z.getD 0 0))
  match back with
  | some (j, source) =>
      return .settled { s with
        bound := s.bound.setIfInBounds j source
        blocked := s.blocked.setIfInBounds j true }
  | none =>
      if moves.all fun (k, z) => P.lowerAt k < z && z < P.upperAt k then
        let x := moves.foldl (fun x (k, z) => x.setIfInBounds k z) s.x
        return .settled (unblock { s with x })
      else
        let s := partialStep P s moves
        if s.bound.all (· ≠ .free) then
          return .settled (unblock s)
        else
          return .unsettled s

/-! ## The search -/

def release (P : Problem α) (s : State α) : State α × Option (Nat × BoundState) :=
  let s := P.look s
  match P.entering? s with
  | none => (s, none)
  | some j =>
      ({ s with bound := s.bound.setIfInBounds j .free }, some (j, s.bound.getD j .lower))

def passLimit (P : Problem α) : Nat :=
  3 * P.size + 30

def search (P : Problem α) (solver : DefiniteSolver α) :
    Nat → State α → Option (Nat × BoundState) → Except LeastSquaresError (Array α)
  | 0, _, _ => .error (.maxIterations P.passLimit)
  | left + 1, s, entering => do
      match ← P.pass solver s entering with
      | .unsettled s => search P solver left s none
      | .settled s =>
          match P.release s with
          | (s, none) => return s.x
          | (s, entering) => search P solver left s entering

def solveBy (P : Problem α) (solver : DefiniteSolver α) : Except LeastSquaresError (Array α) := do
  P.check
  match P.release P.initial with
  | (s, none) => return s.x
  | (s, entering) => P.search solver P.passLimit s entering

end Problem
end BoundedLeastSquares

def boundedLeastSquares {α : Type} [Scalar α] (definite : BoundedLeastSquares.DefiniteSolver α)
    (A : Matrix α) (b lower upper : Array α) : Except LeastSquaresError (Array α) :=
  (BoundedLeastSquares.Problem.mk A b lower upper).solveBy definite

end SoftMargin
