import Mathlib.Data.Finset.Prod
import Mathlib.Order.Interval.Finset.Nat
import SoftMargin.Proofs.Sparse.Format

/-!
# Entries and positions

In a matrix that passes the format check, looking up a position finds the entry
that its column stores in its row. From the entry with which the first column
starts on, the stored entries and the positions at which one is found therefore
match one to one. The check does not ask that this entry be the first of all: it
also passes matrices with entries that belong to no column.
-/

namespace SoftMargin
namespace Csc

open Finset

/-!
## The search
-/

theorem getD_lt_getD {rows : Array Nat} (hrises : rows.toList.Pairwise (· < ·)) {i j : Nat}
    (hij : i < j) (hj : j < rows.size) : rows.getD i 0 < rows.getD j 0 := by
  rw [getD_of_lt rows 0 (by omega), getD_of_lt rows 0 hj, ← Array.getElem_toList,
    ← Array.getElem_toList]
  exact List.pairwise_iff_getElem.mp hrises i j _ _ hij

theorem bisectRows_eq {rows : Array Nat} (hrises : rows.toList.Pairwise (· < ·))
    {row base size place : Nat} (hrow : rows.getD place 0 = row) (hfirst : base ≤ place)
    (hlast : place < base + size) (hsize : base + size ≤ rows.size) :
    bisectRows rows row base size = place := by
  fun_induction bisectRows rows row base size with
  | case1 base size hdone => omega
  | case2 base size hmore half middle ih =>
      have hhalf : half = size / 2 := rfl
      have hmiddle : middle = base + half := rfl
      -- the row in the middle tells on which side the place is, as the rows rise
      by_cases hbeyond : rows.getD middle 0 > row
      · have hbefore : place < middle := by
          by_contra hge
          rcases (Nat.not_lt.mp hge).eq_or_lt with heq | hlt
          · rw [heq, hrow] at hbeyond
            exact Nat.lt_irrefl row hbeyond
          · have hless := getD_lt_getD hrises hlt (by omega)
            omega
        rw [if_pos hbeyond]
        rw [dif_pos hbeyond] at ih
        exact ih (by omega) (by omega) (by omega)
      · have hafter : middle ≤ place := by
          by_contra hlt
          have hless := getD_lt_getD hrises (Nat.not_le.mp hlt) (by omega)
          omega
        rw [if_neg hbeyond]
        rw [dif_neg hbeyond] at ih
        exact ih (by omega) (by omega) (by omega)

theorem findRow?_eq_some_iff {rows : Array Nat} (hrises : rows.toList.Pairwise (· < ·))
    {row place : Nat} : findRow? rows row = some place ↔ rows[place]? = some row := by
  unfold findRow?
  dsimp only
  constructor
  · intro h
    split_ifs at h with hfound
    rwa [← Option.some.inj h]
  · intro h
    rcases Array.getElem?_eq_some_iff.mp h with ⟨hplace, hrow⟩
    have hbisect : bisectRows rows row 0 rows.size = place :=
      bisectRows_eq hrises (by rw [getD_of_lt rows 0 hplace, hrow]) (Nat.zero_le _) (by omega)
        (by omega)
    rw [hbisect, if_pos h]

/-!
## Looking a position up
-/

variable {α : Type} {A : Csc α}

/-- The matrix that stores in each place the number of the place. -/
def numbered (A : Csc α) : Csc Nat :=
  ⟨A.rows, A.cols, A.colptr, A.rowval, Array.range A.nzval.size⟩

structure StoresAt (A : Csc α) (k row col : Nat) : Prop where
  start_le : A.colptr.getD col 0 ≤ k
  lt_stop : k < A.colptr.getD (col + 1) 0
  row_eq : A.rowval[k]? = some row

theorem entry?_eq_numbered (A : Csc α) (row col : Nat) : A.entry? row col =
    (A.numbered.entry? row col).map fun found => found.bind (A.nzval[·]?) := by
  have hbounds : A.numbered.bounds? col = A.bounds? col := rfl
  unfold entry?
  rw [hbounds]
  by_cases hrange : row < A.rows ∧ col < A.cols
  · rw [if_pos hrange, if_pos (show row < A.numbered.rows ∧ col < A.numbered.cols from hrange)]
    cases A.bounds? col with
    | none => rfl
    | some bounds =>
        show (slice? A.rowval bounds.1 bounds.2).bind _ =
          ((slice? A.rowval bounds.1 bounds.2).bind _).map _
        cases slice? A.rowval bounds.1 bounds.2 with
        | none => rfl
        | some rows =>
            simp only [Option.bind_some]
            cases findRow? rows row with
            | none => rfl
            | some place =>
                show (A.nzval[bounds.1 + place]?).bind _ =
                  (((Array.range A.nzval.size)[bounds.1 + place]?).bind _).map _
                by_cases hplace : bounds.1 + place < A.nzval.size
                · rw [Array.getElem?_eq_getElem hplace,
                    Array.getElem?_eq_getElem (by simpa using hplace), Array.getElem_range]
                  simp [hplace]
                · rw [Array.getElem?_eq_none (Nat.not_lt.mp hplace),
                    Array.getElem?_eq_none (by simpa using hplace)]
                  rfl
  · rw [if_neg hrange, if_neg (show ¬(row < A.numbered.rows ∧ col < A.numbered.cols) from hrange)]
    rfl

theorem entry?_outside {row col : Nat} (h : ¬(row < A.rows ∧ col < A.cols)) :
    A.entry? row col = none :=
  if_neg h

theorem IsFormatted.stop_le (h : A.IsFormatted) {col : Nat} (hcol : col < A.cols) :
    A.colptr.getD (col + 1) 0 ≤ A.rowval.size :=
  (colptr_mono h.colptr_le hcol (le_refl _)).trans_eq h.last_eq

theorem IsFormatted.numbered_entry? (h : A.IsFormatted) {row col : Nat} (hrow : row < A.rows)
    (hcol : col < A.cols) : A.numbered.entry? row col =
      some ((findRow? (A.rowval.extract (A.colptr.getD col 0) (A.colptr.getD (col + 1) 0)) row).map
        (A.colptr.getD col 0 + ·)) := by
  have hcolptr : A.cols < A.colptr.size := by rw [h.size_colptr]; exact Nat.lt_succ_self _
  have hbounds : A.numbered.bounds? col =
      some (A.colptr.getD col 0, A.colptr.getD (col + 1) 0) := bounds?_eq hcolptr hcol
  have hslice : slice? A.numbered.rowval (A.colptr.getD col 0) (A.colptr.getD (col + 1) 0) =
      some (A.rowval.extract (A.colptr.getD col 0) (A.colptr.getD (col + 1) 0)) :=
    if_pos ⟨h.colptr_le col hcol, h.stop_le hcol⟩
  unfold entry?
  rw [if_pos (show row < A.numbered.rows ∧ col < A.numbered.cols from ⟨hrow, hcol⟩), hbounds]
  simp only [Option.bind_eq_bind, Option.bind_some, hslice]
  cases hfound :
      findRow? (A.rowval.extract (A.colptr.getD col 0) (A.colptr.getD (col + 1) 0)) row with
  | none => rfl
  | some place =>
      have hplace := (findRow?_eq_some_iff (h.rises col hcol)).mp hfound
      rw [Array.getElem?_extract] at hplace
      have hstored : A.colptr.getD col 0 + place < A.nzval.size := by
        rw [← h.size_eq]
        split_ifs at hplace with hwithin
        have hstop := h.stop_le hcol
        omega
      have hnumber : A.numbered.nzval[A.colptr.getD col 0 + place]? =
          some (A.colptr.getD col 0 + place) := by
        simp only [numbered, Array.getElem?_range, if_pos hstored]
      show (A.numbered.nzval[A.colptr.getD col 0 + place]?).bind _ = _
      rw [hnumber]
      rfl

theorem IsFormatted.numbered_entry?_eq_some_iff (h : A.IsFormatted) {row col : Nat}
    (hrow : row < A.rows) (hcol : col < A.cols) {k : Nat} :
    A.numbered.entry? row col = some (some k) ↔ A.StoresAt k row col := by
  have hstop := h.stop_le hcol
  rw [h.numbered_entry? hrow hcol, Option.some_inj, Option.map_eq_some_iff]
  simp only [findRow?_eq_some_iff (h.rises col hcol), Array.getElem?_extract]
  constructor
  · rintro ⟨place, hplace, rfl⟩
    split_ifs at hplace with hwithin
    exact ⟨Nat.le_add_right _ _, by omega, hplace⟩
  · intro hstored
    have hstart := hstored.start_le
    have hwithin := hstored.lt_stop
    refine ⟨k - A.colptr.getD col 0, ?_, Nat.add_sub_cancel' hstart⟩
    rw [if_pos (by omega), Nat.add_sub_cancel' hstart]
    exact hstored.row_eq

theorem IsFormatted.isSome_entry?_iff (h : A.IsFormatted) {row col : Nat} (hrow : row < A.rows)
    (hcol : col < A.cols) : (A.entry? row col).join.isSome ↔ ∃ k, A.StoresAt k row col := by
  simp only [← h.numbered_entry?_eq_some_iff hrow hcol]
  rw [entry?_eq_numbered]
  cases hentry : A.numbered.entry? row col with
  | none => simp
  | some found =>
      cases found with
      | none => simp
      | some k =>
          have hstored := (h.numbered_entry?_eq_some_iff hrow hcol).mp hentry
          have hk : k < A.nzval.size :=
            h.size_eq ▸ hstored.lt_stop.trans_le (h.stop_le hcol)
          simp [hk]

/-!
## Entries and positions match
-/

def foundPositions (A : Csc α) : Finset (Nat × Nat) :=
  (range A.rows ×ˢ range A.cols).filter fun p => (A.entry? p.1 p.2).join.isSome

/-- The entries from number `first` on and the positions at which one is found match one to one.
Those before it are found nowhere. -/
structure MatchesPositions (A : Csc α) (first : Nat) : Prop where
  entryCount?_eq : A.entryCount? = some A.nzval.size
  located : ∀ k, first ≤ k → k < A.nzval.size → ∃! p : Nat × Nat,
    (p.1 < A.rows ∧ p.2 < A.cols) ∧ A.numbered.entry? p.1 p.2 = some (some k)
  unlocated : ∀ k < first, ∀ row col, A.numbered.entry? row col ≠ some (some k)
  vacant : ∀ row < A.rows, ∀ col < A.cols,
    (∀ k, A.numbered.entry? row col ≠ some (some k)) → A.entry? row col = some none
  card_foundPositions : A.foundPositions.card + first = A.nzval.size

theorem IsFormatted.exists_storesAt (h : A.IsFormatted) {k : Nat}
    (hfirst : A.colptr.getD 0 0 ≤ k) (hk : k < A.nzval.size) :
    ∃ row < A.rows, ∃ col < A.cols, A.StoresAt k row col := by
  have hplace : k < A.rowval.size := h.size_eq.symm ▸ hk
  rcases exists_column_of_place hfirst (hplace.trans_eq h.last_eq.symm) with
    ⟨col, hcol, hstart, hstop⟩
  exact ⟨A.rowval[k], h.row_lt _ (Array.getElem_mem hplace), col, hcol,
    ⟨hstart, hstop, Array.getElem?_eq_getElem hplace⟩⟩

theorem IsFormatted.storesAt_unique (h : A.IsFormatted) {k row col row' col' : Nat}
    (hcol : col < A.cols) (hcol' : col' < A.cols) (hstored : A.StoresAt k row col)
    (hstored' : A.StoresAt k row' col') : row = row' ∧ col = col' := by
  refine ⟨Option.some.inj (hstored.row_eq.symm.trans hstored'.row_eq), ?_⟩
  have hstart := hstored.start_le
  have hstop := hstored.lt_stop
  have hstart' := hstored'.start_le
  have hstop' := hstored'.lt_stop
  rcases Nat.lt_trichotomy col col' with hlt | heq | hgt
  · have hle : A.colptr.getD (col + 1) 0 ≤ A.colptr.getD col' 0 :=
      colptr_mono h.colptr_le hlt hcol'.le
    omega
  · exact heq
  · have hle : A.colptr.getD (col' + 1) 0 ≤ A.colptr.getD col 0 :=
      colptr_mono h.colptr_le hgt hcol.le
    omega

theorem IsFormatted.first_le (h : A.IsFormatted) : A.colptr.getD 0 0 ≤ A.nzval.size :=
  (colptr_mono h.colptr_le (Nat.zero_le A.cols) (le_refl _)).trans_eq (h.last_eq.trans h.size_eq)

theorem IsFormatted.mem_foundPositions (h : A.IsFormatted) {p : Nat × Nat} :
    p ∈ A.foundPositions ↔ (p.1 < A.rows ∧ p.2 < A.cols) ∧ ∃ k, A.StoresAt k p.1 p.2 := by
  unfold foundPositions
  rw [mem_filter, mem_product, mem_range, mem_range]
  exact and_congr_right fun hrange => h.isSome_entry?_iff hrange.left hrange.right

theorem IsFormatted.card_foundPositions (h : A.IsFormatted) :
    A.foundPositions.card = A.nzval.size - A.colptr.getD 0 0 := by
  rw [← Nat.card_Ico]
  -- Each position is counted by the number of the entry found there.
  refine card_nbij (fun p => (A.numbered.entry? p.1 p.2).join.getD 0) ?_ ?_ ?_
  · intro p hp
    rcases h.mem_foundPositions.mp hp with ⟨⟨hrow, hcol⟩, k, hstored⟩
    have hstart := hstored.start_le
    have hfirst := colptr_mono h.colptr_le (Nat.zero_le p.2) hcol.le
    dsimp only
    rw [(h.numbered_entry?_eq_some_iff hrow hcol).mpr hstored]
    exact mem_Ico.mpr ⟨hfirst.trans hstart,
      h.size_eq ▸ hstored.lt_stop.trans_le (h.stop_le hcol)⟩
  · intro p hp q hq heq
    rcases h.mem_foundPositions.mp hp with ⟨⟨hrow, hcol⟩, k, hstored⟩
    rcases h.mem_foundPositions.mp hq with ⟨⟨hrow', hcol'⟩, k', hstored'⟩
    dsimp only at heq
    rw [(h.numbered_entry?_eq_some_iff hrow hcol).mpr hstored,
      (h.numbered_entry?_eq_some_iff hrow' hcol').mpr hstored'] at heq
    have hnumber : k = k' := heq
    subst hnumber
    have hsame := h.storesAt_unique hcol hcol' hstored hstored'
    exact Prod.ext hsame.left hsame.right
  · intro k hk
    rcases mem_Ico.mp hk with ⟨hfirst, hlt⟩
    rcases h.exists_storesAt hfirst hlt with ⟨row, hrow, col, hcol, hstored⟩
    refine ⟨(row, col), h.mem_foundPositions.mpr ⟨⟨hrow, hcol⟩, k, hstored⟩, ?_⟩
    dsimp only
    rw [(h.numbered_entry?_eq_some_iff hrow hcol).mpr hstored]
    rfl

theorem IsFormatted.matchesPositions (h : A.IsFormatted) :
    A.MatchesPositions (A.colptr.getD 0 0) where
  entryCount?_eq := by
    rw [← h.size_eq]
    exact (colptr_last_iff h.size_colptr).mpr h.last_eq
  located k hfirst hk := by
    rcases h.exists_storesAt hfirst hk with ⟨row, hrow, col, hcol, hstored⟩
    refine ⟨(row, col), ⟨⟨hrow, hcol⟩, (h.numbered_entry?_eq_some_iff hrow hcol).mpr hstored⟩, ?_⟩
    rintro ⟨row', col'⟩ ⟨⟨hrow', hcol'⟩, hentry⟩
    have hsame := h.storesAt_unique hcol' hcol
      ((h.numbered_entry?_eq_some_iff hrow' hcol').mp hentry) hstored
    exact Prod.ext hsame.left hsame.right
  unlocated k hk row col hentry := by
    by_cases hrange : row < A.rows ∧ col < A.cols
    · have hstart := ((h.numbered_entry?_eq_some_iff hrange.left hrange.right).mp hentry).start_le
      have hfirst := colptr_mono h.colptr_le (Nat.zero_le col) hrange.right.le
      omega
    · rw [entry?_outside (A := A.numbered) hrange] at hentry
      cases hentry
  vacant row hrow col hcol hnone := by
    have hentry := h.numbered_entry? hrow hcol
    rw [entry?_eq_numbered]
    cases hfound :
        findRow? (A.rowval.extract (A.colptr.getD col 0) (A.colptr.getD (col + 1) 0)) row with
    | none =>
        rw [hentry, hfound]
        rfl
    | some place =>
        rw [hfound] at hentry
        exact absurd hentry (hnone _)
  card_foundPositions := by
    rw [h.card_foundPositions]
    exact Nat.sub_add_cancel h.first_le

theorem MatchesPositions.first_unique {first first' : Nat} (h : A.MatchesPositions first)
    (h' : A.MatchesPositions first') : first = first' := by
  have hcard := h.card_foundPositions
  have hcard' := h'.card_foundPositions
  omega

/-- The check gives a result unless the number of columns is one that has no next count. In a
matrix that passes it, entries and positions match one to one from the entry on with which the first
column starts: from the first entry on exactly if the column starts with it. -/
theorem checkFormat?_matchesPositions (A : Csc α) :
    (A.checkFormat? = none ↔ A.rowval.size = A.nzval.size ∧ Nat.pow 2 64 ≤ A.cols + 1) ∧
      (∀ row col, A.entry? row col =
        (A.numbered.entry? row col).map fun found => found.bind (A.nzval[·]?)) ∧
      (A.checkFormat? = some (.ok ()) → A.MatchesPositions (A.colptr.getD 0 0) ∧
        (A.MatchesPositions 0 ↔ A.colptr.getD 0 0 = 0)) := by
  refine ⟨checkFormat?_eq_none_iff, entry?_eq_numbered A, fun hok => ?_⟩
  have hcount : ¬(A.rowval.size = A.nzval.size ∧ Nat.pow 2 64 ≤ A.cols + 1) := by
    rw [← checkFormat?_eq_none_iff, hok]
    exact Option.some_ne_none _
  rw [checkFormat?_eq_some fun hsizes => Nat.not_le.mp fun hle => hcount ⟨hsizes, hle⟩,
    Option.some_inj, checkFormat_eq_ok_iff] at hok
  refine ⟨hok.matchesPositions, fun hzero => hok.matchesPositions.first_unique hzero, ?_⟩
  intro hfirst
  rw [← hfirst]
  exact hok.matchesPositions

def upperThree : Csc Nat :=
  ⟨3, 3, #[0, 1, 3, 6], #[0, 0, 1, 0, 1, 2], #[1, 3, 4, 5, 6, 7]⟩

theorem upperThree_matchesPositions :
    upperThree.checkFormat? = some (.ok ()) ∧ upperThree.MatchesPositions 0 := by
  have hok : upperThree.checkFormat? = some (.ok ()) := by decide +kernel
  exact ⟨hok, ((checkFormat?_matchesPositions upperThree).2.2 hok).right.mpr rfl⟩

/-- Two entries, of which the only column has the second. -/
def leadingEntry : Csc Nat :=
  ⟨1, 1, #[1, 2], #[0, 0], #[10, 20]⟩

/-- The check passes, but the first entry is found nowhere, and there is one position for the two
entries. -/
theorem leadingEntry_unmatched : leadingEntry.checkFormat? = some (.ok ()) ∧
    (∀ row col, leadingEntry.numbered.entry? row col ≠ some (some 0)) ∧
      leadingEntry.entryCount? = some 2 ∧ leadingEntry.foundPositions.card = 1 ∧
      ¬leadingEntry.MatchesPositions 0 := by
  have hok : leadingEntry.checkFormat = .ok () := by decide +kernel
  have hmatches := (checkFormat_eq_ok_iff.mp hok).matchesPositions
  refine ⟨by decide +kernel, hmatches.unlocated 0 Nat.one_pos, rfl, ?_, ?_⟩
  · exact Nat.succ.inj hmatches.card_foundPositions
  · intro hzero
    exact absurd (hmatches.first_unique hzero) Nat.one_ne_zero

end Csc
end SoftMargin
