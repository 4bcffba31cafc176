import SoftMargin.Vector.Sum

/-!
# Vectors of scalars

Sums run blockwise. An operation on two vectors is meant for vectors of one
length; the forms that end in a question mark refuse others.
-/

namespace SoftMargin

open Scalar

variable {α : Type} [Scalar α]

def zeros (n : Nat) : Array α :=
  Array.replicate n 0

def ifSameSize {β γ δ : Type} (x : Array β) (y : Array γ) (value : δ) : Option δ :=
  if x.size = y.size then some value else none

/-! ## Entrywise operations -/

def combine (a : α) (x : Array α) (b : α) (y : Array α) : Array α :=
  Array.zipWith (fun u v => a * u + b * v) x y

def combine? (a : α) (x : Array α) (b : α) (y : Array α) : Option (Array α) :=
  ifSameSize x y (combine a x b y)

def scale (x : Array α) (c : α) : Array α :=
  x.map (· * c)

def positivePart (x : Array α) : Array α :=
  x.map pos

/-- Writes `f v` over the first entries of `x`, as far as both vectors reach. -/
def overwriteMap (f : α → α) (x v : Array α) : Array α :=
  (v.extract 0 x.size).map f ++ x.extract v.size x.size

def overwrite? (x v : Array α) : Option (Array α) :=
  ifSameSize x v v

/-! ## Sums -/

def sum (x : Array α) : α :=
  blockSum x.toList

def dot (x y : Array α) : α :=
  blockSum (Array.zipWith (· * ·) x y).toList

def dot? (x y : Array α) : Option α :=
  ifSameSize x y (dot x y)

def squaredNorm (x : Array α) : α :=
  dot x x

def squaredDistance (x y : Array α) : α :=
  blockSum (Array.zipWith (fun u v => square (u - v)) x y).toList

def squaredDistance? (x y : Array α) : Option α :=
  ifSameSize x y (squaredDistance x y)

def distance (x y : Array α) : α :=
  sqrt (squaredDistance x y)

def distance? (x y : Array α) : Option α :=
  ifSameSize x y (distance x y)

/-! ## Extreme entries -/

/-- The largest magnitude, zero for the empty vector, undefined as soon as one entry is. -/
def maxNorm (x : Array α) : α :=
  let magnitudes := x.map magnitude
  if magnitudes.any isUndefined then
    undefined
  else
    magnitudes.foldl (fun best v => if best < v then v else best) 0

/-- The largest distance between entries in one place. Undefined distances are passed over. -/
def maxDistance (x y : Array α) : α :=
  (Array.zipWith (fun u v => magnitude (u - v)) x y).foldl larger 0

def least (x : Array α) : α :=
  match x.toList.filter (fun v => !isUndefined v) with
  | [] => infinity
  | v :: rest => rest.foldl smaller v

def greatest (x : Array α) : α :=
  match x.toList.filter (fun v => !isUndefined v) with
  | [] => -infinity
  | v :: rest => rest.foldl larger v

def allFinite (x : Array α) : Bool :=
  x.all isFinite

end SoftMargin
