import Mathlib.Algebra.BigOperators.Field
import Mathlib.Algebra.BigOperators.Ring.Finset
import Mathlib.Algebra.Order.BigOperators.Ring.Finset
import Mathlib.Algebra.Order.Field.Basic
import Mathlib.Algebra.Order.Field.Rat
import Mathlib.Data.List.Range
import Mathlib.Data.Rat.Sqrt
import Mathlib.Logic.Relation
import Mathlib.Tactic.Linarith
import Mathlib.Tactic.LinearCombination
import Mathlib.Tactic.Ring
import SoftMargin.Scalar

/-!
# Exact scalars

The algorithms are read over an ordered field. Field operations and comparisons
are those of the field, and every scalar is finite. The square root, the
machine constant and the values outside of the range of a number are left open:
a result that needs them asks for what it needs.
-/

namespace SoftMargin

/-- An ordered field with the further operations that scalars have. -/
class ExactScalar (K : Type) extends Field K, LinearOrder K, IsStrictOrderedRing K where
  sqrt : K → K
  ceilNat : K → Nat
  epsilon : K
  infinity : K
  undefined : K

instance ExactScalar.toScalar {K : Type} [ExactScalar K] : Scalar K where
  decLt := fun a b => inferInstanceAs (Decidable (a < b))
  decLe := fun a b => inferInstanceAs (Decidable (a ≤ b))
  ofScientific := OfScientific.ofScientific
  sqrt := ExactScalar.sqrt
  ceilNat := ExactScalar.ceilNat
  isFinite _ := true
  epsilon := ExactScalar.epsilon
  infinity := ExactScalar.infinity
  undefined := ExactScalar.undefined

/-- The rationals. The square root is exact for squares. -/
instance : ExactScalar ℚ where
  sqrt := Rat.sqrt
  ceilNat a := a.ceil.toNat
  epsilon := 1 / 2 ^ 52
  infinity := 0
  undefined := 0

namespace Scalar

variable {K : Type} [ExactScalar K]

@[simp] theorem isFinite_exact (a : K) : isFinite a = true :=
  rfl

theorem larger_eq_max (a b : K) : larger a b = max a b := by
  unfold larger
  by_cases h : a < b
  · rw [if_pos h, max_eq_right h.le]
  · rw [if_neg h, if_pos (le_refl a), max_eq_left (not_lt.mp h)]

theorem pos_eq_max (a : K) : pos a = max a 0 :=
  larger_eq_max a 0

theorem magnitude_eq_abs (a : K) : magnitude a = |a| := by
  unfold magnitude
  by_cases h : 0 < a
  · rw [if_pos h, abs_of_pos h]
  · rw [if_neg h, zero_sub, abs_of_nonpos (not_lt.mp h)]

theorem magnitude_sq (a : K) : magnitude a ^ 2 = a ^ 2 := by
  unfold magnitude
  by_cases h : 0 < a
  · rw [if_pos h]
  · rw [if_neg h, zero_sub, neg_sq]

theorem same_iff (a b : K) : same a b = true ↔ a = b := by
  unfold same
  rw [Bool.and_eq_true, decide_eq_true_eq, decide_eq_true_eq]
  constructor
  · intro h
    exact le_antisymm h.left h.right
  · intro h
    rw [h]
    exact ⟨le_refl b, le_refl b⟩

end Scalar

/-!
## Signs of differences
-/

/-- Finite scalars are in order, and their difference stands to zero as they stand to each other.
The difference itself may be rounded, and need not be finite. -/
class SignedDifferences (α : Type) [Scalar α] : Prop where
  sub_pos_iff {a b : α} : Scalar.isFinite a = true → Scalar.isFinite b = true →
    (0 < a - b ↔ b < a)
  same_sub_zero {a b : α} : Scalar.isFinite a = true → Scalar.isFinite b = true →
    Scalar.same (a - b) 0 = Scalar.same a b
  lt_or_lt {a b : α} : Scalar.isFinite a = true → Scalar.isFinite b = true →
    Scalar.same a b = false → a < b ∨ b < a
  not_lt {a b : α} : Scalar.isFinite a = true → Scalar.isFinite b = true → a < b → ¬b < a

instance {K : Type} [ExactScalar K] : SignedDifferences K where
  sub_pos_iff _ _ := sub_pos
  same_sub_zero _ _ := by
    rw [Bool.eq_iff_iff, Scalar.same_iff, Scalar.same_iff]
    exact sub_eq_zero
  lt_or_lt _ _ hne := by
    rw [← Bool.not_eq_true, Scalar.same_iff] at hne
    exact lt_or_gt_of_ne hne
  not_lt _ _ := lt_asymm

/-!
## Order
-/

/-- Scalars that are numbers are in a total order, and the difference of two finite ones is a
number. It may be rounded, and need not be finite. -/
class OrderedDifferences (α : Type) [Scalar α] : Prop where
  le_trans {a b c : α} : a ≤ b → b ≤ c → a ≤ c
  lt_iff {a b : α} : a < b ↔ a ≤ b ∧ ¬b ≤ a
  le_total {a b : α} : Scalar.isUndefined a = false → Scalar.isUndefined b = false →
    a ≤ b ∨ b ≤ a
  isUndefined_sub {a b : α} : Scalar.isFinite a = true → Scalar.isFinite b = true →
    Scalar.isUndefined (a - b) = false

theorem OrderedDifferences.not_lt_iff {α : Type} [Scalar α] [OrderedDifferences α] {a b : α}
    (ha : Scalar.isUndefined a = false) (hb : Scalar.isUndefined b = false) :
    ¬a < b ↔ b ≤ a := by
  rw [lt_iff, not_and, not_not]
  refine ⟨fun h => ?_, fun hba _ => hba⟩
  rcases le_total ha hb with hab | hba
  · exact h hab
  · exact hba

theorem isUndefined_exact {K : Type} [ExactScalar K] (a : K) : Scalar.isUndefined a = false := by
  unfold Scalar.isUndefined
  rw [decide_eq_true (le_refl a)]
  rfl

instance {K : Type} [ExactScalar K] : OrderedDifferences K where
  le_trans := le_trans
  lt_iff := lt_iff_le_not_ge
  le_total _ _ := le_total _ _
  isUndefined_sub _ _ := isUndefined_exact _

end SoftMargin
