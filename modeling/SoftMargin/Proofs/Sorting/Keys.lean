import SoftMargin.Proofs.Exact.Scalar
import SoftMargin.Sorting

/-!
# Sorting by a key

Elements are sorted by the scalars that a key gives them. The keys have to be
numbers, and then no element has a lesser key than one before it. Elements with
equal keys stay in the order in which they are given.
-/

namespace SoftMargin
namespace Sorting

open Scalar

variable {β : Type}

theorem not_sublist_swap {xs : List β} {a b : β} (hnodup : xs.Nodup) (h : [a, b].Sublist xs) :
    ¬[b, a].Sublist xs := by
  induction xs with
  | nil => cases h
  | cons x rest ih =>
      rcases List.nodup_cons.mp hnodup with ⟨hx, hrest⟩
      intro hswap
      cases h with
      | cons _ h =>
          cases hswap with
          | cons _ hswap => exact ih hrest h hswap
          | cons_cons _ _ => exact hx (h.subset (by simp))
      | cons_cons _ h =>
          cases hswap with
          | cons _ hswap => exact hx (hswap.subset (by simp))
          | cons_cons _ _ => exact hx (h.subset (by simp))

section Keys

variable {α : Type} [Scalar α]

/-- The key of `a` is not greater, and if it is not less either, `a` is given before `b`. -/
def ComesFirst (key : β → α) (xs : List β) (a b : β) : Prop :=
  key a ≤ key b ∧ (key b ≤ key a → [a, b].Sublist xs)

variable [OrderedDifferences α] {key : β → α} {xs : List β}

theorem orders_of_key (h : ∀ x ∈ xs, isUndefined (key x) = false) :
    Orders (fun a b => decide (key a < key b)) xs := by
  constructor
  · intro a ha b hb hab
    have hle := (OrderedDifferences.lt_iff.mp (of_decide_eq_true hab)).left
    exact decide_eq_false ((OrderedDifferences.not_lt_iff (h b hb) (h a ha)).mpr hle)
  · intro a ha b hb c hc hab hbc
    have hba := (OrderedDifferences.not_lt_iff (h a ha) (h b hb)).mp (of_decide_eq_false hab)
    have hcb := (OrderedDifferences.not_lt_iff (h b hb) (h c hc)).mp (of_decide_eq_false hbc)
    exact decide_eq_false ((OrderedDifferences.not_lt_iff (h a ha) (h c hc)).mpr
      (OrderedDifferences.le_trans hcb hba))

theorem stableSort_comesFirst (h : ∀ x ∈ xs, isUndefined (key x) = false) :
    (stableSort (fun a b => decide (key a < key b)) xs).Pairwise (ComesFirst key xs) := by
  refine (stableSort_pairwise (orders_of_key h)).imp_of_mem ?_
  intro a b ha hb hab
  have hdefined : ∀ {x}, x ∈ stableSort (fun a b => decide (key a < key b)) xs →
      isUndefined (key x) = false := fun hx => h _ ((stableSort_perm _ xs).mem_iff.mp hx)
  refine ⟨(OrderedDifferences.not_lt_iff (hdefined hb) (hdefined ha)).mp
    (of_decide_eq_false hab.left), ?_⟩
  intro hba
  apply hab.right
  exact decide_eq_false ((OrderedDifferences.not_lt_iff (hdefined ha) (hdefined hb)).mpr hba)

omit [OrderedDifferences α] in
theorem ComesFirst.antisymm {a b : β} (hnodup : xs.Nodup) (hab : ComesFirst key xs a b)
    (hba : ComesFirst key xs b a) : a = b :=
  absurd (hba.right hab.left) (not_sublist_swap hnodup (hab.right hba.left))

end Keys

theorem stableSort_rises {K : Type} [ExactScalar K] (key : β → K) (xs : List β) :
    (stableSort (fun a b => decide (key a < key b)) xs).Pairwise fun a b => key a ≤ key b :=
  (stableSort_comesFirst fun _ _ => isUndefined_exact _).imp And.left

end Sorting
end SoftMargin
