import SoftMargin.Proofs.Sparse.Columns

/-!
# The format check

The check goes through the fields of a matrix. It passes exactly if the columns
follow one another up to the last place, with rows that exist and rise in each
column. Where the first column starts is not looked at. Columns that start at
the first place follow one another through all of them.

None of the reads that the check makes leaves the fields, as each is made only
after what makes it safe has been checked.
-/

namespace SoftMargin

/-!
## Neighbours
-/

theorem anyNeighbours_eq_false_iff {bad : Nat → Nat → Bool} {xs : List Nat} :
    anyNeighbours bad xs = false ↔ xs.IsChain fun x y => bad x y = false := by
  fun_induction anyNeighbours bad xs with
  | case1 x y rest ih => rw [Bool.or_eq_false_iff, ih, List.isChain_cons_cons]
  | case2 xs hshort =>
      match xs with
      | [] => simp
      | [_] => simp
      | x :: y :: rest => exact absurd rfl (hshort x y rest)

theorem anyNeighbours_ge_eq_false_iff {rows : List Nat} :
    anyNeighbours (fun x y => x ≥ y) rows = false ↔ rows.Pairwise (· < ·) := by
  rw [anyNeighbours_eq_false_iff, ← List.isChain_iff_pairwise]
  simp only [ge_iff_le, decide_eq_false_iff_not, Nat.not_le]

namespace Csc

variable {α : Type} {A : Csc α}

/-!
## Formatted matrices
-/

structure IsFormatted (A : Csc α) : Prop where
  size_eq : A.rowval.size = A.nzval.size
  size_colptr : A.colptr.size = A.cols + 1
  last_eq : A.colptr.getD A.cols 0 = A.rowval.size
  colptr_le : ∀ c < A.cols, A.colptr.getD c 0 ≤ A.colptr.getD (c + 1) 0
  rises : ∀ c < A.cols,
    (A.rowval.extract (A.colptr.getD c 0) (A.colptr.getD (c + 1) 0)).toList.Pairwise (· < ·)
  row_lt : ∀ r ∈ A.rowval, r < A.rows

theorem size_eq_of_ofFields? {rows cols : Nat} {colptr rowval : Array Nat} {nzval : Array α}
    (h : ofFields? rows cols colptr rowval nzval = some A) : A.rowval.size = A.nzval.size := by
  unfold ofFields? at h
  split_ifs at h with hlengths
  rw [← Option.some.inj h]
  exact hlengths.left

theorem lt_size_colptr_of_ofFields? {rows cols : Nat} {colptr rowval : Array Nat}
    {nzval : Array α} (h : ofFields? rows cols colptr rowval nzval = some A) :
    A.cols < A.colptr.size := by
  unfold ofFields? at h
  split_ifs at h with hlengths
  rw [← Option.some.inj h]
  exact hlengths.2.1 ▸ Nat.lt_succ_self cols

theorem bounds?_eq (hcolptr : A.cols < A.colptr.size) {c : Nat} (hc : c < A.cols) :
    A.bounds? c = some (A.colptr.getD c 0, A.colptr.getD (c + 1) 0) := by
  unfold bounds?
  rw [Array.getElem?_eq_getElem (by omega), Array.getElem?_eq_getElem (by omega),
    getD_of_lt A.colptr 0 (by omega), getD_of_lt A.colptr 0 (by omega)]
  rfl

theorem anyNeighbours_colptr_iff {bad : Nat → Nat → Bool} (hcolptr : A.colptr.size = A.cols + 1) :
    anyNeighbours bad A.colptr.toList = false ↔
      ∀ c < A.cols, bad (A.colptr.getD c 0) (A.colptr.getD (c + 1) 0) = false := by
  rw [anyNeighbours_eq_false_iff, List.isChain_iff_getElem]
  simp only [Array.length_toList, Array.getElem_toList, hcolptr, Nat.add_lt_add_iff_right]
  refine forall_congr' fun c => forall_congr' fun hc => ?_
  rw [getD_of_lt A.colptr 0 (by omega), getD_of_lt A.colptr 0 (by omega)]

theorem anyNeighbours_colptr_gt_iff (hcolptr : A.colptr.size = A.cols + 1) :
    anyNeighbours (fun x y => x > y) A.colptr.toList = false ↔
      ∀ c < A.cols, A.colptr.getD c 0 ≤ A.colptr.getD (c + 1) 0 := by
  simp only [anyNeighbours_colptr_iff hcolptr, gt_iff_lt, decide_eq_false_iff_not, Nat.not_lt]

theorem anyNeighbours_columns_iff :
    ((List.range A.cols).any fun c => anyNeighbours (fun x y => x ≥ y)
      (A.rowval.extract (A.colptr.getD c 0) (A.colptr.getD (c + 1) 0)).toList) = false ↔
      ∀ c < A.cols, (A.rowval.extract (A.colptr.getD c 0)
        (A.colptr.getD (c + 1) 0)).toList.Pairwise (· < ·) := by
  simp only [List.any_eq_false, List.mem_range, Bool.not_eq_true, anyNeighbours_ge_eq_false_iff]

theorem any_ge_rows_iff : A.rowval.any (· ≥ A.rows) = false ↔ ∀ r ∈ A.rowval, r < A.rows := by
  simp only [Array.any_eq_false', ge_iff_le, decide_eq_true_eq, Nat.not_le]

theorem colptr_last_iff (hcolptr : A.colptr.size = A.cols + 1) :
    A.colptr[A.cols]? = some A.rowval.size ↔ A.colptr.getD A.cols 0 = A.rowval.size := by
  rw [Array.getElem?_eq_getElem (by omega), getD_of_lt A.colptr 0 (by omega), Option.some_inj]

theorem checkFormat_eq_ok_iff : A.checkFormat = .ok () ↔ A.IsFormatted := by
  unfold checkFormat
  constructor
  · intro h
    split_ifs at h with hfields hpointers hcolumns hrows
    simp only [not_or, not_not] at hfields
    rw [Bool.not_eq_true] at hpointers hcolumns hrows
    exact ⟨hfields.left, hfields.2.1, (colptr_last_iff hfields.2.1).mp hfields.2.2,
      (anyNeighbours_colptr_gt_iff hfields.2.1).mp hpointers, anyNeighbours_columns_iff.mp hcolumns,
      any_ge_rows_iff.mp hrows⟩
  · intro h
    rw [(anyNeighbours_colptr_gt_iff h.size_colptr).mpr h.colptr_le,
      anyNeighbours_columns_iff.mpr h.rises, any_ge_rows_iff.mpr h.row_lt, if_neg]
    · rfl
    · simp only [not_or, not_not]
      exact ⟨h.size_eq, h.size_colptr, (colptr_last_iff h.size_colptr).mpr h.last_eq⟩

/-!
## The reads of the check
-/

theorem colptr_mono (hle : ∀ c < A.cols, A.colptr.getD c 0 ≤ A.colptr.getD (c + 1) 0) {c d : Nat}
    (hcd : c ≤ d) (hd : d ≤ A.cols) : A.colptr.getD c 0 ≤ A.colptr.getD d 0 := by
  induction d, hcd using Nat.le_induction with
  | base => exact le_refl _
  | succ d hcd ih => exact (ih (by omega)).trans (hle d (by omega))

theorem columnRows?_eq (hcolptr : A.cols < A.colptr.size) {c : Nat} (hc : c < A.cols)
    (hstart : A.colptr.getD c 0 ≤ A.colptr.getD (c + 1) 0)
    (hstop : A.colptr.getD (c + 1) 0 ≤ A.rowval.size) :
    A.columnRows? c =
      some (A.rowval.extract (A.colptr.getD c 0) (A.colptr.getD (c + 1) 0)) := by
  unfold columnRows?
  rw [bounds?_eq hcolptr hc]
  exact if_pos ⟨hstart, hstop⟩

theorem anyM_eq_some {β : Type} {xs : List β} {p : β → Option Bool} {q : β → Bool}
    (h : ∀ x ∈ xs, p x = some (q x)) : xs.anyM p = some (xs.any q) := by
  induction xs with
  | nil => rfl
  | cons x rest ih =>
      have hrest := ih fun y hy => h y (List.mem_cons_of_mem x hy)
      rw [List.anyM, h x List.mem_cons_self, List.any_cons]
      cases q x with
      | true => rfl
      | false => exact hrest

theorem anyM_columns_eq (hcolptr : A.colptr.size = A.cols + 1)
    (hlast : A.colptr.getD A.cols 0 = A.rowval.size)
    (hle : ∀ c < A.cols, A.colptr.getD c 0 ≤ A.colptr.getD (c + 1) 0) :
    ((List.range A.cols).anyM fun c => do
      let rows ← A.columnRows? c
      return anyNeighbours (fun x y => x ≥ y) rows.toList) =
    some ((List.range A.cols).any fun c => anyNeighbours (fun x y => x ≥ y)
      (A.rowval.extract (A.colptr.getD c 0) (A.colptr.getD (c + 1) 0)).toList) := by
  apply anyM_eq_some
  intro c hc
  have hcols := List.mem_range.mp hc
  rw [columnRows?_eq (by omega) hcols (hle c hcols)
    ((colptr_mono hle (by omega) (le_refl _)).trans_eq hlast)]
  rfl

/-- Each read of the check is within the fields, because of what has been checked before. -/
theorem checkFormat?_eq_some
    (hcount : A.rowval.size = A.nzval.size → A.cols + 1 < Nat.pow 2 64) :
    A.checkFormat? = some A.checkFormat := by
  unfold checkFormat? checkFormat
  by_cases hsizes : A.rowval.size = A.nzval.size
  · have hnext : nextCount? A.cols = some (A.cols + 1) := if_pos (hcount hsizes)
    rw [if_neg (not_not.mpr hsizes), hnext]
    simp only [Option.bind_eq_bind, Option.bind_some, Option.pure_def]
    by_cases hcolptr : A.colptr.size = A.cols + 1
    · have hread : A.colptr[A.cols]? = some (A.colptr.getD A.cols 0) := by
        rw [Array.getElem?_eq_getElem (by omega), getD_of_lt A.colptr 0 (by omega)]
      rw [if_neg (not_not.mpr hcolptr), hread, Option.bind_some]
      by_cases hlast : A.colptr.getD A.cols 0 = A.rowval.size
      · have hlengths : ¬(A.rowval.size ≠ A.nzval.size ∨ A.colptr.size ≠ A.cols + 1 ∨
            some (A.colptr.getD A.cols 0) ≠ some A.rowval.size) := by
          simp only [not_or, not_not]
          exact ⟨hsizes, hcolptr, congrArg some hlast⟩
        rw [if_neg (not_not.mpr hlast), if_neg hlengths]
        cases hpointers : anyNeighbours (fun x y => x > y) A.colptr.toList with
        | true => rfl
        | false =>
            have hle := (anyNeighbours_colptr_gt_iff hcolptr).mp hpointers
            have hcolumns := anyM_columns_eq hcolptr hlast hle
            simp only [Option.bind_eq_bind, Option.pure_def] at hcolumns
            rw [if_neg Bool.false_ne_true, if_neg Bool.false_ne_true, hcolumns, Option.bind_some]
            split_ifs <;> rfl
      · rw [if_pos hlast, if_pos (Or.inr (Or.inr fun heq => hlast (Option.some.inj heq)))]
    · rw [if_pos hcolptr, if_pos (Or.inr (Or.inl hcolptr))]
  · rw [if_pos hsizes, if_pos (Or.inl hsizes)]
    rfl

theorem checkFormat?_eq_none_iff : A.checkFormat? = none ↔
    A.rowval.size = A.nzval.size ∧ Nat.pow 2 64 ≤ A.cols + 1 := by
  constructor
  · intro h
    by_contra hnot
    rw [checkFormat?_eq_some fun hsizes => Nat.not_le.mp fun hcount => hnot ⟨hsizes, hcount⟩] at h
    cases h
  · rintro ⟨hsizes, hcount⟩
    have hnext : nextCount? A.cols = none := if_neg (Nat.not_lt.mpr hcount)
    unfold checkFormat?
    rw [if_neg (not_not.mpr hsizes), hnext]
    rfl

/-!
## Columns that leave no place out
-/

theorem map_fst_column {c : Nat}
    (h : min (A.colptr.getD (c + 1) 0) A.rowval.size ≤ A.nzval.size) :
    (A.column c).map (·.1) =
      (A.rowval.extract (A.colptr.getD c 0) (A.colptr.getD (c + 1) 0)).toList := by
  unfold column
  rw [Array.toList_zip, List.map_fst_zip]
  rw [Array.length_toList, Array.length_toList, Array.size_extract, Array.size_extract]
  omega

theorem exists_column_of_place {n i : Nat} (hfirst : A.colptr.getD 0 0 ≤ i)
    (hi : i < A.colptr.getD n 0) :
    ∃ c < n, A.colptr.getD c 0 ≤ i ∧ i < A.colptr.getD (c + 1) 0 := by
  induction n with
  | zero => omega
  | succ n ih =>
      by_cases hbefore : i < A.colptr.getD n 0
      · rcases ih hbefore with ⟨c, hc, hplace⟩
        exact ⟨c, by omega, hplace⟩
      · exact ⟨n, Nat.lt_succ_self n, by omega, hi⟩

theorem checkFormat_of_columns (hsizes : A.rowval.size = A.nzval.size)
    (hcolptr : A.colptr.size = A.cols + 1) (hfirst : A.colptr.getD 0 0 = 0)
    (hlast : A.colptr.getD A.cols 0 = A.rowval.size)
    (hle : ∀ c < A.cols, A.colptr.getD c 0 ≤ A.colptr.getD (c + 1) 0)
    (hrises : ∀ c < A.cols, ((A.column c).map (·.1)).Pairwise (· < ·))
    (hrows : ∀ c < A.cols, ∀ e ∈ A.column c, e.1 < A.rows) : A.checkFormat = .ok () := by
  have hstored : ∀ c, min (A.colptr.getD (c + 1) 0) A.rowval.size ≤ A.nzval.size := fun c =>
    (Nat.min_le_right _ _).trans_eq hsizes
  rw [checkFormat_eq_ok_iff]
  refine ⟨hsizes, hcolptr, hlast, hle, ?_, ?_⟩
  · intro c hc
    rw [← map_fst_column (hstored c)]
    exact hrises c hc
  · intro r hr
    rcases Array.getElem_of_mem hr with ⟨i, hi, rfl⟩
    rcases exists_column_of_place (hfirst.trans_le (Nat.zero_le i)) (hi.trans_eq hlast.symm) with
      ⟨c, hc, hstart, hstop⟩
    have hmem : A.rowval[i] ∈ (A.column c).map (·.1) := by
      rw [map_fst_column (hstored c), Array.mem_toList_iff, Array.mem_extract_iff_getElem]
      refine ⟨i - A.colptr.getD c 0, by omega, ?_⟩
      simp only [Nat.add_sub_cancel' hstart]
    rcases List.mem_map.mp hmem with ⟨e, he, heq⟩
    rw [← heq]
    exact hrows c hc e he

end Csc
end SoftMargin
