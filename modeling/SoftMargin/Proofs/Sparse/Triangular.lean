import SoftMargin.Proofs.Sparse.Format

/-!
# The triangle check

The columns are read in turn, and the reading stops at the first entry below the
diagonal. A column whose bounds lie outside of the fields is met only if none
before it stops the reading.
-/

namespace SoftMargin
namespace Csc

variable {α : Type} {A : Csc α}

/-- A column that ends before it starts, or beyond the last entry. -/
def IsBroken (A : Csc α) (c : Nat) : Prop :=
  A.colptr.getD (c + 1) 0 < A.colptr.getD c 0 ∨ A.rowval.size < A.colptr.getD (c + 1) 0

def IsUpperColumn (A : Csc α) (c : Nat) : Prop :=
  ∃ rows, A.columnRows? c = some rows ∧ ∀ r ∈ rows, r ≤ c

theorem columnRows?_eq_none_iff (hcolptr : A.cols < A.colptr.size) {c : Nat} (hc : c < A.cols) :
    A.columnRows? c = none ↔ A.IsBroken c := by
  constructor
  · intro h
    by_contra hwhole
    unfold IsBroken at hwhole
    rw [columnRows?_eq hcolptr hc (by omega) (by omega)] at h
    cases h
  · intro hbroken
    have hbounds : ¬(A.colptr.getD c 0 ≤ A.colptr.getD (c + 1) 0 ∧
        A.colptr.getD (c + 1) 0 ≤ A.rowval.size) := by
      unfold IsBroken at hbroken
      omega
    unfold columnRows?
    rw [bounds?_eq hcolptr hc]
    exact if_neg hbounds

theorem columnRows?_eq_some {c : Nat} {rows : Array Nat} (h : A.columnRows? c = some rows) :
    A.colptr.getD c 0 ≤ A.colptr.getD (c + 1) 0 ∧ A.colptr.getD (c + 1) 0 ≤ A.rowval.size ∧
      rows = A.rowval.extract (A.colptr.getD c 0) (A.colptr.getD (c + 1) 0) := by
  unfold columnRows? bounds? at h
  cases hfirst : A.colptr[c]? with
  | none => simp [hfirst] at h
  | some first =>
      cases hlast : A.colptr[c + 1]? with
      | none => simp [hfirst, hlast] at h
      | some last =>
          simp only [hfirst, hlast, Option.bind_eq_bind, Option.bind_some, Option.pure_def,
            slice?] at h
          rw [Array.getD_eq_getD_getElem?, Array.getD_eq_getD_getElem?, hfirst, hlast,
            Option.getD_some, Option.getD_some]
          split_ifs at h with hbounds
          exact ⟨hbounds.left, hbounds.right, (Option.some.inj h).symm⟩

theorem IsUpperColumn.row_le {c : Nat} (h : A.IsUpperColumn c) : ∀ e ∈ A.column c, e.1 ≤ c := by
  rcases h with ⟨rows, hrows, hle⟩
  intro e he
  unfold column at he
  rw [Array.toList_zip, ← (columnRows?_eq_some hrows).2.2] at he
  exact hle e.1 (Array.mem_toList_iff.mp (List.of_mem_zip (a := e.1) (b := e.2) he).left)

/-!
## Reading in turn
-/

theorem isUpperTriangular?_go_of_isUpperColumn {left c : Nat} (h : A.IsUpperColumn c) :
    isUpperTriangular?.go A (left + 1) c = isUpperTriangular?.go A left (c + 1) := by
  rcases h with ⟨rows, hrows, hle⟩
  have hall : rows.all (· ≤ c) = true :=
    Array.all_eq_true_iff_forall_mem.mpr fun r hr => decide_eq_true (hle r hr)
  rw [isUpperTriangular?.go, hrows]
  exact if_pos hall

theorem isUpperTriangular?_go_of_not_isUpperColumn {left c : Nat} (h : ¬A.IsUpperColumn c) :
    isUpperTriangular?.go A (left + 1) c = (A.columnRows? c).map fun _ => false := by
  rw [isUpperTriangular?.go]
  cases hrows : A.columnRows? c with
  | none => rfl
  | some rows =>
      have hall : ¬rows.all (· ≤ c) = true := fun hall => h
        ⟨rows, hrows, fun r hr => of_decide_eq_true (Array.all_eq_true_iff_forall_mem.mp hall r hr)⟩
      exact if_neg hall

theorem isUpperTriangular?_go_eq_some_true_iff {left c : Nat} :
    isUpperTriangular?.go A left c = some true ↔ ∀ i < left, A.IsUpperColumn (c + i) := by
  induction left generalizing c with
  | zero => simp [isUpperTriangular?.go]
  | succ left ih =>
      simp only [Nat.forall_lt_succ_left, Nat.add_zero, ← Nat.add_assoc, Nat.add_right_comm c _ 1]
      by_cases hupper : A.IsUpperColumn c
      · rw [isUpperTriangular?_go_of_isUpperColumn hupper, ih]
        exact (and_iff_right hupper).symm
      · rw [isUpperTriangular?_go_of_not_isUpperColumn hupper]
        refine iff_of_false ?_ fun h => hupper h.left
        cases A.columnRows? c <;> simp

theorem isUpperTriangular?_go_eq_none_iff {left c : Nat} : isUpperTriangular?.go A left c = none ↔
    ∃ i < left, A.columnRows? (c + i) = none ∧ ∀ j < i, A.IsUpperColumn (c + j) := by
  induction left generalizing c with
  | zero => simp [isUpperTriangular?.go]
  | succ left ih =>
      -- a column that passes is none of the broken ones, and is one more before the first of them
      by_cases hupper : A.IsUpperColumn c
      · rw [isUpperTriangular?_go_of_isUpperColumn hupper, ih, Nat.exists_lt_succ_left]
        simp only [Nat.forall_lt_succ_left, Nat.add_zero, ← Nat.add_assoc,
          Nat.add_right_comm c _ 1, and_iff_right hupper]
        rcases hupper with ⟨rows, hrows, _⟩
        simp [hrows]
      · rw [isUpperTriangular?_go_of_not_isUpperColumn hupper, Option.map_eq_none_iff]
        constructor
        · intro hrows
          exact ⟨0, Nat.succ_pos left, hrows, fun j hj => absurd hj (Nat.not_lt_zero j)⟩
        · rintro ⟨i, _, hrows, hbefore⟩
          cases i with
          | zero => exact hrows
          | succ i => exact absurd (hbefore 0 (Nat.succ_pos i)) hupper

theorem isUpperTriangular?_eq_some_true_iff : A.isUpperTriangular? = some true ↔
    ∀ c < A.cols, A.IsUpperColumn c := by
  unfold isUpperTriangular?
  simp only [isUpperTriangular?_go_eq_some_true_iff, Nat.zero_add]

/-- The check leaves the fields at the first column that does not pass it, if that is broken. -/
theorem isUpperTriangular?_eq_none_iff (hcolptr : A.cols < A.colptr.size) :
    A.isUpperTriangular? = none ↔
      ∃ c < A.cols, A.IsBroken c ∧ ∀ d < c, A.IsUpperColumn d := by
  unfold isUpperTriangular?
  simp only [isUpperTriangular?_go_eq_none_iff, Nat.zero_add]
  refine exists_congr fun c => and_congr_right fun hc => ?_
  rw [columnRows?_eq_none_iff hcolptr hc]

/-!
## Upper triangular matrices
-/

theorem IsUpper.columnRows_eq (h : A.IsUpper) {c : Nat} (hc : c < A.cols) :
    ∃ rows, A.columnRows? c = some rows ∧ rows.toList = (A.column c).map (·.1) :=
  ⟨_, columnRows?_eq h.size_colptr hc (h.colptr_le c hc) (h.last_le_rowval c hc),
    (map_fst_column ((Nat.min_le_left _ _).trans (h.last_le_nzval c hc))).symm⟩

theorem IsUpper.isUpperTriangular_eq (h : A.IsUpper) : A.isUpperTriangular? = some true := by
  rw [isUpperTriangular?_eq_some_true_iff]
  intro c hc
  rcases h.columnRows_eq hc with ⟨rows, hrows, hlist⟩
  refine ⟨rows, hrows, fun r hr => ?_⟩
  rw [← Array.mem_toList_iff, hlist] at hr
  rcases List.mem_map.mp hr with ⟨e, he, rfl⟩
  exact h.row_le c hc e he

theorem IsUpper.readable (h : A.IsUpper) : A.Readable := by
  intro c hc
  have hrows : (A.rowval.extract (A.colptr.getD c 0) (A.colptr.getD (c + 1) 0)).all
      (· < A.rows) = true := by
    obtain ⟨rows, hfound, hlist⟩ := h.columnRows_eq hc
    rw [← (columnRows?_eq_some hfound).2.2, Array.all_eq_true_iff_forall_mem]
    intro r hr
    rw [← Array.mem_toList_iff, hlist] at hr
    obtain ⟨e, he, rfl⟩ := List.mem_map.mp hr
    have hle := h.row_le c hc e he
    have hsquare := h.square
    simp only [decide_eq_true_eq]
    omega
  rw [bounds?_eq h.size_colptr hc]
  simp only [hrows, h.colptr_le c hc, h.last_le_rowval c hc, h.last_le_nzval c hc, decide_true,
    Bool.and_self]

theorem isUpper_of_isUpperTriangular (hsizes : A.rowval.size = A.nzval.size)
    (hcolptr : A.cols < A.colptr.size) (hsquare : A.rows = A.cols)
    (h : A.isUpperTriangular? = some true) : A.IsUpper := by
  rw [isUpperTriangular?_eq_some_true_iff] at h
  have hbounds : ∀ c < A.cols, A.colptr.getD c 0 ≤ A.colptr.getD (c + 1) 0 ∧
      A.colptr.getD (c + 1) 0 ≤ A.rowval.size := by
    intro c hc
    rcases h c hc with ⟨rows, hrows, _⟩
    have hread := columnRows?_eq_some hrows
    exact ⟨hread.left, hread.2.1⟩
  exact ⟨hsquare, hcolptr, fun c hc => (hbounds c hc).left, fun c hc => (hbounds c hc).right,
    fun c hc => (hbounds c hc).right.trans_eq hsizes, fun c hc => (h c hc).row_le⟩

end Csc
end SoftMargin
