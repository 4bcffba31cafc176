import Mathlib.Data.List.TakeWhile
import SoftMargin.Proofs.Sorting.Keys
import SoftMargin.Dual

/-!
# Selecting the free points

The candidates are ranked by their slack, so the ones within the cutoff stand
first. All of them are selected, and no point comes twice. The scalars need not
be exact: it is enough that every slack is a number.
-/

namespace SoftMargin
namespace Dual

open Scalar

theorem takeWhile_eq_filter {β : Type} {p : β → Bool} {xs : List β}
    (h : xs.Pairwise fun x y => p y = true → p x = true) : xs.takeWhile p = xs.filter p := by
  induction xs with
  | nil => rfl
  | cons x rest ih =>
      rcases List.pairwise_cons.mp h with ⟨hx, hrest⟩
      cases hpx : p x with
      | true => rw [List.takeWhile_cons_of_pos hpx, List.filter_cons_of_pos hpx, ih hrest]
      | false =>
          have hfails : ¬p x = true := by
            rw [hpx]
            exact Bool.false_ne_true
          have hnone : rest.filter p = [] := by
            rw [List.filter_eq_nil_iff]
            intro y hy hpy
            exact hfails (hx y hy hpy)
          rw [List.takeWhile_cons_of_neg hfails, List.filter_cons_of_neg hfails, hnone]

variable {α : Type} [Scalar α]

/-- How far the margin of a point is above the threshold. -/
def slackAt (margins : Array α) (threshold : α) (j : Nat) : α :=
  margins.getD j 0 - threshold

/-- Points with no more slack than this lie on the margin. -/
def cutoff (threshold marginTol : α) : α :=
  marginTol * larger 1 (magnitude threshold)

def ranked (margins : Array α) (threshold : α) (candidates : List Nat) : List Nat :=
  Sorting.stableSort (fun i j => slackAt margins threshold i < slackAt margins threshold j)
    candidates

variable (margins : Array α) (threshold : α) (candidates : List Nat) (required : Nat)
  (marginTol : α)

theorem selectFree_eq : selectFree margins threshold candidates required marginTol =
    (ranked margins threshold candidates).take
      (max ((ranked margins threshold candidates).takeWhile fun j =>
        slackAt margins threshold j ≤ cutoff threshold marginTol).length required) :=
  rfl

theorem ranked_perm : (ranked margins threshold candidates).Perm candidates :=
  Sorting.stableSort_perm _ _

theorem exists_ranked_eq_append : ∃ rest, ranked margins threshold candidates =
    selectFree margins threshold candidates required marginTol ++ rest :=
  ⟨_, (List.take_append_drop _ _).symm⟩

variable {margins threshold candidates required marginTol} {j : Nat}

theorem mem_of_mem_selectFree
    (h : j ∈ selectFree margins threshold candidates required marginTol) : j ∈ candidates :=
  (ranked_perm margins threshold candidates).mem_iff.mp (List.mem_of_mem_take h)

theorem nodup_selectFree (h : candidates.Nodup) :
    (selectFree margins threshold candidates required marginTol).Nodup :=
  ((ranked_perm margins threshold candidates).nodup_iff.mpr h).sublist (List.take_sublist _ _)

section Order

variable [OrderedDifferences α]
  (hslacks : ∀ j ∈ candidates, isUndefined (slackAt margins threshold j) = false)

include hslacks

theorem ranked_pairwise : (ranked margins threshold candidates).Pairwise
    (Sorting.ComesFirst (slackAt margins threshold) candidates) :=
  Sorting.stableSort_comesFirst hslacks

theorem takeWhile_ranked : ((ranked margins threshold candidates).takeWhile fun j =>
      slackAt margins threshold j ≤ cutoff threshold marginTol) =
    (ranked margins threshold candidates).filter fun j =>
      slackAt margins threshold j ≤ cutoff threshold marginTol := by
  apply takeWhile_eq_filter
  apply (ranked_pairwise hslacks).imp
  intro i j hij hj
  exact decide_eq_true (OrderedDifferences.le_trans hij.left (of_decide_eq_true hj))

/-- However many points are required, none within the cutoff is left out. -/
theorem mem_selectFree (hj : j ∈ candidates)
    (hslack : slackAt margins threshold j ≤ cutoff threshold marginTol) :
    j ∈ selectFree margins threshold candidates required marginTol := by
  have hfirst : j ∈ (ranked margins threshold candidates).takeWhile fun j =>
      slackAt margins threshold j ≤ cutoff threshold marginTol := by
    rw [takeWhile_ranked hslacks]
    exact List.mem_filter.mpr
      ⟨(ranked_perm margins threshold candidates).mem_iff.mpr hj, decide_eq_true hslack⟩
  rw [List.prefix_iff_eq_take.mp (List.takeWhile_prefix _)] at hfirst
  rw [selectFree_eq]
  exact (List.take_sublist_take_left (le_max_left _ _)).subset hfirst

end Order

end Dual
end SoftMargin
