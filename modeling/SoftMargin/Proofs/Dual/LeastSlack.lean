import SoftMargin.Proofs.Double.Order
import SoftMargin.Proofs.Dual.Selection
import SoftMargin.Proofs.Exact.Vector

/-!
# The points of least slack

The selected points are the first ones in the order of their slack: those within
the cutoff, and more of them if more are required. Points of equal slack are
taken in the given order, so the selection is the only one of its kind. Slacks
are the differences that the scalars have. On doubles they are rounded, and may
be infinite.
-/

namespace SoftMargin
namespace Dual

open Scalar

variable {α : Type} [Scalar α]

/-- The candidates within the cutoff, and as many as are required if there are so many, in the
order of their slack. Those that are left out come after them. -/
structure IsLeastSelection (slack : Nat → α) (cutoff : α) (candidates : List Nat)
    (required : Nat) (selected : List Nat) : Prop where
  nodup : selected.Nodup
  subset : selected ⊆ candidates
  ordered : selected.Pairwise (Sorting.ComesFirst slack candidates)
  length_eq : selected.length =
    min candidates.length (max required (candidates.countP fun j => slack j ≤ cutoff))
  within_mem : ∀ j ∈ candidates, slack j ≤ cutoff → j ∈ selected
  least : ∀ i ∈ selected, ∀ j ∈ candidates, j ∉ selected →
    Sorting.ComesFirst slack candidates i j

theorem IsLeastSelection.subset_of_least {slack : Nat → α} {cutoff : α} {candidates : List Nat}
    {required : Nat} {selected selected' : List Nat} (hnodup : candidates.Nodup)
    (h : IsLeastSelection slack cutoff candidates required selected)
    (h' : IsLeastSelection slack cutoff candidates required selected') : selected ⊆ selected' := by
  intro i hi
  by_contra hi'
  -- as many are selected both times, so something else takes the place of `i`
  have hother : ∃ j ∈ selected', j ∉ selected := by
    by_contra hnone
    have hback : selected' ⊆ selected := fun j hj => by_contra fun hj' => hnone ⟨j, hj, hj'⟩
    have hperm := (List.subperm_of_subset h'.nodup hback).perm_of_length_le
      (h.length_eq.trans h'.length_eq.symm).le
    exact hi' (hperm.mem_iff.mpr hi)
  rcases hother with ⟨j, hj, hj'⟩
  have hij := h.least i hi j (h'.subset hj) hj'
  have hji := h'.least j hj i (h.subset hi) hi'
  rw [hij.antisymm hnodup hji] at hi'
  exact hi' hj

theorem IsLeastSelection.unique {slack : Nat → α} {cutoff : α} {candidates : List Nat}
    {required : Nat} {selected selected' : List Nat} (hnodup : candidates.Nodup)
    (h : IsLeastSelection slack cutoff candidates required selected)
    (h' : IsLeastSelection slack cutoff candidates required selected') : selected = selected' := by
  have hperm := (List.subperm_of_subset h.nodup (h.subset_of_least hnodup h')).perm_of_length_le
    (h'.length_eq.trans h.length_eq.symm).le
  exact hperm.eq_of_pairwise (fun _ _ _ _ hij hji => hij.antisymm hnodup hji) h.ordered h'.ordered

variable [OrderedDifferences α] {margins : Array α} {threshold : α} {candidates : List Nat}

theorem isUndefined_slackAt (hmargins : allFinite margins = true)
    (hthreshold : isFinite threshold = true) {j : Nat} (hj : j < margins.size) :
    isUndefined (slackAt margins threshold j) = false :=
  OrderedDifferences.isUndefined_sub (isFinite_getD_of_lt hmargins hj) hthreshold

theorem length_selectFree
    (hslacks : ∀ j ∈ candidates, isUndefined (slackAt margins threshold j) = false)
    (required : Nat) (marginTol : α) :
    (selectFree margins threshold candidates required marginTol).length =
      min candidates.length (max required (candidates.countP fun j =>
        slackAt margins threshold j ≤ cutoff threshold marginTol)) := by
  have hperm := ranked_perm margins threshold candidates
  rw [selectFree_eq, takeWhile_ranked hslacks, ← List.countP_eq_length_filter, hperm.countP_eq,
    List.length_take, hperm.length_eq, min_comm, max_comm]

theorem isLeastSelection_selectFree
    (hslacks : ∀ j ∈ candidates, isUndefined (slackAt margins threshold j) = false)
    (hnodup : candidates.Nodup) (required : Nat) (marginTol : α) :
    IsLeastSelection (slackAt margins threshold) (cutoff threshold marginTol) candidates required
      (selectFree margins threshold candidates required marginTol) := by
  obtain ⟨rest, hsplit⟩ := exists_ranked_eq_append margins threshold candidates required marginTol
  have hsorted := ranked_pairwise hslacks
  rw [hsplit, List.pairwise_append] at hsorted
  rcases hsorted with ⟨hordered, _, hleast⟩
  refine ⟨nodup_selectFree hnodup, fun _ => mem_of_mem_selectFree, hordered,
    length_selectFree hslacks required marginTol, fun _ => mem_selectFree hslacks, ?_⟩
  intro i hi j hj hj'
  apply hleast i hi j
  have hranked := (ranked_perm margins threshold candidates).mem_iff.mpr hj
  rw [hsplit] at hranked
  exact (List.mem_append.mp hranked).resolve_left hj'

/-- Among finite margins the points of least slack are selected, and nothing else is selected in
this way. The tolerance may be any scalar. -/
theorem selectFree_eq_iff_isLeastSelection (hmargins : allFinite margins = true)
    (hthreshold : isFinite threshold = true) (hnodup : candidates.Nodup)
    (hpoints : ∀ j ∈ candidates, j < margins.size) (required : Nat) (marginTol : α)
    (selected : List Nat) :
    selectFree margins threshold candidates required marginTol = selected ↔
      IsLeastSelection (slackAt margins threshold) (cutoff threshold marginTol) candidates required
        selected := by
  have hslacks : ∀ j ∈ candidates, isUndefined (slackAt margins threshold j) = false :=
    fun j hj => isUndefined_slackAt hmargins hthreshold (hpoints j hj)
  have hselected := isLeastSelection_selectFree hslacks hnodup required marginTol
  constructor
  · intro heq
    rwa [heq] at hselected
  · exact hselected.unique hnodup

def tiedMargins : Array Float :=
  #[2.5, 2, 2.5, 2.0005, 1.75]

theorem isLeastSelection_tiedMargins :
    (allFinite tiedMargins = true ∧ isFinite (2 : Float) = true) ∧
      IsLeastSelection (slackAt tiedMargins 2) (cutoff 2 1e-3) [2, 0, 3, 1, 4] 4 [4, 1, 3, 2] := by
  have hmargins : allFinite tiedMargins = true := by decide +kernel
  have hthreshold : isFinite (2 : Float) = true := by decide +kernel
  have hselected : selectFree tiedMargins 2 [2, 0, 3, 1, 4] 4 1e-3 = [4, 1, 3, 2] := by
    decide +kernel
  exact ⟨⟨hmargins, hthreshold⟩, (selectFree_eq_iff_isLeastSelection hmargins hthreshold
    (by decide) (by decide) 4 1e-3 _).mp hselected⟩

end Dual
end SoftMargin
