import SoftMargin.Vector.Basic

/-!
# Dense matrices

Entries are held column after column. The fields are free, so an operation that
reads columns states when it can: a column exists if its index is one of the
matrix and its entries lie within the data.
-/

namespace SoftMargin

open Scalar

structure Matrix (α : Type) where
  rows : Nat
  cols : Nat
  data : Array α
deriving Repr

namespace Matrix

variable {α : Type} [Scalar α]

def Complete (A : Matrix α) : Prop :=
  A.rows * A.cols ≤ A.data.size

instance (A : Matrix α) : Decidable A.Complete :=
  inferInstanceAs (Decidable (_ ≤ _))

/-! ## Entries and columns -/

def position (A : Matrix α) (r c : Nat) : Nat :=
  r + A.rows * c

/-- The entry at a position of the data. Only the end of the data bounds the indices. -/
def entry? (A : Matrix α) (r c : Nat) : Option α :=
  A.data[A.position r c]?

def entry (A : Matrix α) (r c : Nat) : α :=
  A.data.getD (A.position r c) 0

def setEntry? (A : Matrix α) (r c : Nat) (v : α) : Option (Matrix α) :=
  if A.position r c < A.data.size then
    some { A with data := A.data.setIfInBounds (A.position r c) v }
  else
    none

def col (A : Matrix α) (c : Nat) : Array α :=
  A.data.extract (c * A.rows) ((c + 1) * A.rows)

def col? (A : Matrix α) (c : Nat) : Option (Array α) :=
  if c < A.cols ∧ (c + 1) * A.rows ≤ A.data.size then some (A.col c) else none

/-! ## Building matrices -/

def zeros (rows cols : Nat) : Matrix α :=
  ⟨rows, cols, SoftMargin.zeros (rows * cols)⟩

def ofFn (rows cols : Nat) (entry : Nat → Nat → α) : Matrix α :=
  ⟨rows, cols, ((List.range cols).flatMap fun c => (List.range rows).map (entry · c)).toArray⟩

def select (A : Matrix α) (cols : Array Nat) : Matrix α :=
  ⟨A.rows, cols.size, cols.flatMap A.col⟩

def select? (A : Matrix α) (cols : Array Nat) : Option (Matrix α) :=
  if cols.all (fun c => (A.col? c).isSome) then some (A.select cols) else none

/-! ## Tests -/

def isSquare (A : Matrix α) : Bool :=
  A.rows == A.cols

def allFinite (A : Matrix α) : Bool :=
  SoftMargin.allFinite A.data

/-- Equality of shapes and of entries. An undefined entry equals nothing. -/
def same (A B : Matrix α) : Bool :=
  A.rows == B.rows && A.cols == B.cols && A.data.size == B.data.size &&
    (A.data.zip B.data).all fun (u, v) => Scalar.same u v

/-! ## Products -/

/-- The vector `a * A x + b * y`, one column after the other. -/
def mulAdd (A : Matrix α) (a : α) (x : Array α) (b : α) (y : Array α) : Array α :=
  (List.range A.cols).foldl
    (fun acc c =>
      let axc := a * x.getD c 0
      Array.zipWith (fun u v => u + axc * v) acc (A.col c))
    (scale y b)

def transposeMulAdd (A : Matrix α) (a : α) (x : Array α) (b : α) (y : Array α) : Array α :=
  Array.zipWith (fun c v => a * dot (A.col c) x + b * v) (Array.range A.cols) y

def mulAdd? (A : Matrix α) (a : α) (x : Array α) (b : α) (y : Array α) : Option (Array α) :=
  if x.size = A.cols ∧ y.size = A.rows ∧ A.Complete then some (A.mulAdd a x b y) else none

def transposeMulAdd? (A : Matrix α) (a : α) (x : Array α) (b : α) (y : Array α) :
    Option (Array α) :=
  if x.size = A.rows ∧ y.size = A.cols ∧ A.Complete then
    some (A.transposeMulAdd a x b y)
  else
    none

def transposeMul (A : Matrix α) (x : Array α) : Array α :=
  A.transposeMulAdd 1 x 0 (SoftMargin.zeros A.cols)

def transposeMul? (A : Matrix α) (x : Array α) : Option (Array α) :=
  A.transposeMulAdd? 1 x 0 (SoftMargin.zeros A.cols)

end Matrix
end SoftMargin
