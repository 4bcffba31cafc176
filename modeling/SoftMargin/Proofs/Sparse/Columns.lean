import SoftMargin.Proofs.Ldl.Access

/-!
# Stored columns

The entries of a column lie in a range of places. Columns are filled entry by
entry: the places of a column are reserved beforehand, and an entry goes to the
first place of its column that is free. Such a write leaves the other columns
alone.
-/

namespace SoftMargin

open Finset

variable {α : Type}

namespace Csc

/-!
## Ranges of places
-/

def stored (rowval : Array Nat) (nzval : Array α) (first last : Nat) : List (Nat × α) :=
  ((rowval.extract first last).zip (nzval.extract first last)).toList

theorem column_eq_stored (A : Csc α) (c : Nat) :
    A.column c =
      stored A.rowval A.nzval (A.colptr.getD c 0) (A.colptr.getD (c + 1) 0) :=
  rfl

theorem length_stored {rowval : Array Nat} {nzval : Array α} {first last : Nat}
    (hrow : last ≤ rowval.size) (hval : last ≤ nzval.size) :
    (stored rowval nzval first last).length = last - first := by
  unfold stored
  rw [Array.length_toList, Array.size_zip, Array.size_extract, Array.size_extract]
  omega

theorem getElem_stored {rowval : Array Nat} {nzval : Array α} {first last t : Nat}
    (hrow : last ≤ rowval.size) (hval : last ≤ nzval.size) (ht : first + t < last)
    (h : t < (stored rowval nzval first last).length) :
    (stored rowval nzval first last)[t] = (rowval[first + t], nzval[first + t]) := by
  simp only [stored, Array.getElem_toList, Array.getElem_zip, Array.getElem_extract]

theorem stored_set_of_outside {rowval : Array Nat} {nzval : Array α} {first last slot : Nat}
    (hrow : last ≤ rowval.size) (hval : last ≤ nzval.size) (r : Nat) (v : α)
    (h : slot < first ∨ last ≤ slot) :
    stored (rowval.setIfInBounds slot r) (nzval.setIfInBounds slot v) first last =
      stored rowval nzval first last := by
  have hrow' : last ≤ (rowval.setIfInBounds slot r).size := by simpa using hrow
  have hval' : last ≤ (nzval.setIfInBounds slot v).size := by simpa using hval
  apply List.ext_getElem
  · rw [length_stored hrow' hval', length_stored hrow hval]
  · intro t ht ht'
    rw [length_stored hrow hval] at ht'
    rw [getElem_stored hrow' hval' (by omega), getElem_stored hrow hval (by omega),
      Array.getElem_setIfInBounds_ne _ (by omega), Array.getElem_setIfInBounds_ne _ (by omega)]

theorem stored_succ {rowval : Array Nat} {nzval : Array α} {first last : Nat}
    (h : first ≤ last) (hrow : last < rowval.size) (hval : last < nzval.size) :
    stored rowval nzval first (last + 1) =
      stored rowval nzval first last ++ [(rowval[last], nzval[last])] := by
  apply List.ext_getElem
  · rw [length_stored hrow hval, List.length_append, length_stored hrow.le hval.le,
      List.length_singleton]
    omega
  · intro t ht ht'
    rw [length_stored hrow hval] at ht
    have hlen : (stored rowval nzval first last).length = last - first :=
      length_stored hrow.le hval.le
    rw [getElem_stored hrow hval (by omega), List.getElem_append]
    by_cases hlast : t < last - first
    · rw [dif_pos (by omega), getElem_stored hrow.le hval.le (by omega)]
    · have heq : first + t = last := by omega
      simp [heq, hlen, hlast]

theorem stored_set_last {rowval : Array Nat} {nzval : Array α} {first last : Nat}
    (h : first ≤ last) (hrow : last < rowval.size) (hval : last < nzval.size) (r : Nat) (v : α) :
    stored (rowval.setIfInBounds last r) (nzval.setIfInBounds last v) first (last + 1) =
      stored rowval nzval first last ++ [(r, v)] := by
  rw [stored_succ h (by simpa using hrow) (by simpa using hval),
    stored_set_of_outside hrow.le hval.le r v (Or.inr (le_refl last)),
    Array.getElem_setIfInBounds_self, Array.getElem_setIfInBounds_self]

/-!
## Filling columns
-/

/-- The places of column `c` are those from `colptr[c]` up to `colptr[c + 1]`. The first of them,
up to `next[c]`, hold the entries that are listed for the column. -/
structure Filled (colptr : Array Nat) (n : Nat) (rowval : Array Nat) (nzval : Array α)
    (next : Array Nat) (content : Nat → List (Nat × α)) : Prop where
  rowval_room : colptr.getD n 0 ≤ rowval.size
  nzval_room : colptr.getD n 0 ≤ nzval.size
  size_next : next.size = n
  next_eq : ∀ c < n, next.getD c 0 = colptr.getD c 0 + (content c).length
  fits : ∀ c < n, next.getD c 0 ≤ colptr.getD (c + 1) 0
  content_eq : ∀ c < n, stored rowval nzval (colptr.getD c 0) (next.getD c 0) = content c

namespace Filled

variable {colptr rowval next : Array Nat} {nzval : Array α} {n : Nat}
  {content : Nat → List (Nat × α)}

theorem colptr_le_succ (h : Filled colptr n rowval nzval next content) {c : Nat} (hc : c < n) :
    colptr.getD c 0 ≤ colptr.getD (c + 1) 0 := by
  have hnext := h.next_eq c hc
  have hfits := h.fits c hc
  omega

theorem colptr_mono (h : Filled colptr n rowval nzval next content) {c d : Nat} (hcd : c ≤ d)
    (hd : d ≤ n) : colptr.getD c 0 ≤ colptr.getD d 0 := by
  induction d, hcd using Nat.le_induction with
  | base => exact le_refl _
  | succ d hcd ih => exact (ih (by omega)).trans (h.colptr_le_succ (by omega))

theorem next_le_room (h : Filled colptr n rowval nzval next content) {c : Nat} (hc : c < n) :
    next.getD c 0 ≤ colptr.getD n 0 :=
  (h.fits c hc).trans (h.colptr_mono (by omega) (le_refl n))

theorem append (h : Filled colptr n rowval nzval next content) {c : Nat} (hc : c < n)
    (hfree : next.getD c 0 < colptr.getD (c + 1) 0) (r : Nat) (v : α) :
    Filled colptr n (rowval.setIfInBounds (next.getD c 0) r)
      (nzval.setIfInBounds (next.getD c 0) v) (next.setIfInBounds c (next.getD c 0 + 1))
      (Function.update content c (content c ++ [(r, v)])) := by
  have hroom : next.getD c 0 < colptr.getD n 0 :=
    hfree.trans_le (h.colptr_mono (by omega) (le_refl n))
  have hrow := h.rowval_room
  have hval := h.nzval_room
  have hcsize : c < next.size := by rw [h.size_next]; exact hc
  refine ⟨by simpa using hrow, by simpa using hval, by simpa using h.size_next, ?_, ?_, ?_⟩
  · intro d hd
    by_cases hcd : c = d
    · subst hcd
      rw [Ldl.getD_setIfInBounds_self _ _ _ hcsize, Function.update_self, List.length_append,
        h.next_eq c hc]
      rfl
    · rw [Ldl.getD_setIfInBounds_ne _ _ _ hcd, Function.update_of_ne (Ne.symm hcd)]
      exact h.next_eq d hd
  · intro d hd
    by_cases hcd : c = d
    · subst hcd
      rw [Ldl.getD_setIfInBounds_self _ _ _ hcsize]
      exact hfree
    · rw [Ldl.getD_setIfInBounds_ne _ _ _ hcd]
      exact h.fits d hd
  · intro d hd
    have hdroom := h.next_le_room hd
    by_cases hcd : c = d
    · subst hcd
      have hstart : colptr.getD c 0 ≤ next.getD c 0 := by
        rw [h.next_eq c hc]
        exact Nat.le_add_right _ _
      rw [Ldl.getD_setIfInBounds_self _ _ _ hcsize, Function.update_self,
        stored_set_last hstart (by omega) (by omega), h.content_eq c hc]
    · rw [Ldl.getD_setIfInBounds_ne _ _ _ hcd, Function.update_of_ne (Ne.symm hcd),
        stored_set_of_outside (by omega) (by omega), h.content_eq d hd]
      rcases Nat.lt_or_gt_of_ne hcd with hlt | hgt
      · left
        exact hfree.trans_le (h.colptr_mono (by omega) hd.le)
      · right
        have hle := h.colptr_mono (c := d + 1) (d := c) (by omega) hc.le
        have hnext := h.next_eq c hc
        have hfits := h.fits d hd
        omega

theorem column_eq (h : Filled colptr n rowval nzval next content) {c rows cols : Nat}
    (hc : c < n) (hfull : next.getD c 0 = colptr.getD (c + 1) 0) :
    (Csc.mk rows cols colptr rowval nzval).column c = content c := by
  rw [column_eq_stored, ← hfull]
  exact h.content_eq c hc

end Filled

end Csc

/-!
## Offsets
-/

namespace Ldl

theorem offsets_toList (sizes : List Nat) :
    (offsets sizes.toArray).size = sizes.length + 1 ∧
      ∀ c ≤ sizes.length, (offsets sizes.toArray).getD c 0 = (sizes.take c).sum := by
  induction sizes using List.reverseRecOn with
  | nil =>
      refine ⟨rfl, ?_⟩
      intro c hc
      rw [Nat.le_zero.mp hc]
      rfl
  | append_singleton sizes size ih =>
      rcases ih with ⟨hsize, hval⟩
      have hpush : offsets (sizes ++ [size]).toArray =
          (offsets sizes.toArray).push
            ((offsets sizes.toArray).getD sizes.length 0 + size) := by
        have hback : (offsets sizes.toArray).back?.getD 0 =
            (offsets sizes.toArray).getD sizes.length 0 := by
          rw [Array.back?_eq_getElem?, Array.getD_eq_getD_getElem?, hsize, Nat.add_sub_cancel]
        rw [← hback]
        simp [offsets, List.foldl_append]
      constructor
      · rw [hpush, Array.size_push, hsize, List.length_append, List.length_singleton]
      · intro c hc
        rw [List.length_append, List.length_singleton] at hc
        rw [hpush, Array.getD_eq_getD_getElem?, Array.getElem?_push, hsize]
        by_cases hlast : c = sizes.length + 1
        · subst hlast
          rw [if_pos rfl, Option.getD_some, hval _ (le_refl _), List.take_length,
            List.take_of_length_le (by simp), List.sum_append, List.sum_singleton]
        · rw [if_neg hlast, ← Array.getD_eq_getD_getElem?, hval c (by omega),
            List.take_append_of_le_length (by omega)]

@[simp] theorem size_offsets (sizes : Array Nat) : (offsets sizes).size = sizes.size + 1 := by
  have h := (offsets_toList sizes.toList).left
  rwa [Array.toArray_toList, Array.length_toList] at h

theorem getD_offsets_zero (sizes : Array Nat) : (offsets sizes).getD 0 0 = 0 := by
  have h := (offsets_toList sizes.toList).right 0 (Nat.zero_le _)
  rwa [Array.toArray_toList, List.take_zero, List.sum_nil] at h

theorem getD_offsets_succ (sizes : Array Nat) {c : Nat} (hc : c < sizes.size) :
    (offsets sizes).getD (c + 1) 0 = (offsets sizes).getD c 0 + sizes.getD c 0 := by
  have hval := (offsets_toList sizes.toList).right
  rw [Array.toArray_toList] at hval
  have hc' : c < sizes.toList.length := by simpa using hc
  rw [hval (c + 1) (by omega), hval c (by omega), List.take_succ_eq_append_getElem hc',
    List.sum_append, List.sum_singleton, getD_of_lt sizes 0 hc, Array.getElem_toList]

theorem getD_offsets_eq_sum (sizes : Array Nat) {c : Nat} (hc : c ≤ sizes.size) :
    (offsets sizes).getD c 0 = ∑ i ∈ range c, sizes.getD i 0 := by
  induction c with
  | zero => rw [getD_offsets_zero, sum_range_zero]
  | succ c ih => rw [getD_offsets_succ sizes hc, ih (by omega), sum_range_succ]

theorem filled_empty {α : Type} (sizes : Array Nat) (rowval : Array Nat) (nzval : Array α)
    (hrow : (offsets sizes).getD sizes.size 0 ≤ rowval.size)
    (hval : (offsets sizes).getD sizes.size 0 ≤ nzval.size) :
    Csc.Filled (offsets sizes) sizes.size rowval nzval (offsets sizes).pop (fun _ => []) := by
  have hpop : ∀ c < sizes.size, (offsets sizes).pop.getD c 0 = (offsets sizes).getD c 0 := by
    intro c hc
    rw [getD_of_lt _ 0 (by simpa using hc), getD_of_lt _ 0 (by simp; omega), Array.getElem_pop]
  refine ⟨hrow, hval, by simp, ?_, ?_, ?_⟩
  · intro c hc
    rw [hpop c hc]
    rfl
  · intro c hc
    rw [hpop c hc, getD_offsets_succ sizes hc]
    exact Nat.le_add_right _ _
  · intro c hc
    rw [hpop c hc]
    simp [Csc.stored]

end Ldl

/-!
## Reading columns
-/

namespace Csc

/-- The columns of a square matrix follow one another within its fields, and no entry lies below
the diagonal. -/
structure IsUpper (A : Csc α) : Prop where
  square : A.rows = A.cols
  size_colptr : A.cols < A.colptr.size
  colptr_le : ∀ c < A.cols, A.colptr.getD c 0 ≤ A.colptr.getD (c + 1) 0
  last_le_rowval : ∀ c < A.cols, A.colptr.getD (c + 1) 0 ≤ A.rowval.size
  last_le_nzval : ∀ c < A.cols, A.colptr.getD (c + 1) 0 ≤ A.nzval.size
  row_le : ∀ c < A.cols, ∀ e ∈ A.column c, e.1 ≤ c

namespace IsUpper

variable {A : Csc α}

theorem readColumn_eq (h : A.IsUpper) {c : Nat} (hc : c < A.cols) :
    Ldl.readColumn A c = .ok (A.column c) := by
  have hsize := h.size_colptr
  have hstart := h.colptr_le c hc
  have hrow := h.last_le_rowval c hc
  have hval := h.last_le_nzval c hc
  unfold Ldl.readColumn
  rw [Ldl.read_of_lt A.colptr 0 (by omega), Ldl.ok_bind, Ldl.read_of_lt A.colptr 0 (by omega),
    Ldl.ok_bind, Ldl.readSlice_of_le hstart hrow, Ldl.ok_bind, Ldl.readSlice_of_le hstart hval,
    Ldl.ok_bind]
  rfl

theorem length_column (h : A.IsUpper) {c : Nat} (hc : c < A.cols) :
    (A.column c).length = A.colptr.getD (c + 1) 0 - A.colptr.getD c 0 := by
  rw [column_eq_stored]
  exact length_stored (h.last_le_rowval c hc) (h.last_le_nzval c hc)

end IsUpper

end Csc
end SoftMargin
