import SoftMargin.Proofs.Ldl.Phases
import SoftMargin.Proofs.Ldl.Success

/-!
# Refused matrices

The fields of a matrix may have consistent lengths and yet hold any numbers. A
matrix that passes the check of its structure is read within its fields from
there on, so that it is factored or refused for a pivot or for the number of its
signs. The check itself reads the columns before it looks at the order of their
bounds: a broken column is met if no column before it is refused.
-/

namespace SoftMargin
namespace Ldl

variable {α : Type} {A : Csc α}

/-!
## The check
-/

theorem checkStructure_eq_outOfRange_iff : checkStructure A = .error .outOfRange ↔
    A.isSquare = true ∧ A.isUpperTriangular? = none := by
  unfold checkStructure
  cases A.isSquare with
  | false => simp [throw, throwThe, MonadExceptOf.throw]
  | true =>
      cases A.isUpperTriangular? with
      | none => exact iff_of_true rfl ⟨rfl, rfl⟩
      | some upper =>
          refine iff_of_false ?_ fun h => Option.some_ne_none _ h.right
          cases upper with
          | false => exact fun h => nomatch h
          | true =>
              cases anyNeighbours (fun x y => x ≥ y) A.colptr.toList with
              | false => exact fun h => nomatch h
              | true => exact fun h => nomatch h

theorem checkStructure_of_not_upper (h : A.isUpperTriangular? ≠ some true) :
    ∃ e ∈ [LdlError.incompatibleDimension, .notUpperTriangular, .outOfRange],
      checkStructure A = .error e := by
  unfold checkStructure
  cases A.isSquare with
  | false => exact ⟨.incompatibleDimension, by decide, rfl⟩
  | true =>
      cases hupper : A.isUpperTriangular? with
      | none => exact ⟨.outOfRange, by decide, rfl⟩
      | some upper =>
          cases upper with
          | false => exact ⟨.notUpperTriangular, by decide, rfl⟩
          | true => exact absurd hupper h

/-!
## After the check
-/

theorem orderedSigns_eq_error {settings : LdlSettings α} {order : Array Nat} {n : Nat}
    (horder : IsOrder order n) {e : LdlError} (h : settings.orderedSigns order = .error e) :
    e = .incompatibleDimension := by
  by_cases hsigns : ∀ signs, settings.signs = some signs → signs.size = n
  · rcases orderedSigns_of_isOrder horder hsigns with ⟨signs, hok⟩
    rw [hok] at h
    cases h
  · push Not at hsigns
    rcases hsigns with ⟨signs, hstated, hsize⟩
    unfold LdlSettings.orderedSigns at h
    rw [hstated] at h
    dsimp only at h
    rw [if_neg (horder.size_eq.symm ▸ hsize)] at h
    cases h
    rfl

variable [Scalar α]

/-- A matrix whose structure was found to be in order is read within its fields from there on: it is
refused only if there is no order for it, if the signs are not as many as the columns, or for a
pivot. -/
theorem factorBy_eq_error {rule : OrderingRule α} {settings : LdlSettings α}
    (hA : A.IsUpper) (hcheck : checkStructure A = .ok ())
    (hrule : rule A = .error .ordering ∨ ∃ order, rule A = .ok order ∧ IsOrder order A.cols)
    {e : LdlError} (h : factorBy rule A settings = .error e) :
    e = .ordering ∨ e = .incompatibleDimension ∨ e = .zeroPivot := by
  unfold factorBy at h
  rw [hcheck, ok_bind] at h
  rcases hrule with hnone | ⟨order, hrule, horder⟩
  · rw [hnone, error_bind] at h
    cases h
    exact .inl rfl
  · rcases exists_reserved hA horder with
      ⟨B, parent, counts, hB, hupper, hcols, htree, hspec, hcounts, hcount⟩
    rw [hrule, ok_bind, hB, ok_bind] at h
    -- neither the permutation nor the tree can fail, so the signs and the pivots are left
    cases hsigns : settings.orderedSigns order with
    | error e' =>
        rw [hsigns, error_bind] at h
        cases h
        exact .inr (.inl (orderedSigns_eq_error horder hsigns))
    | ok signs =>
        have hsize : signs.size = B.cols := by
          rw [(orderedSigns_eq_ok hsigns).left, horder.size_eq, hcols]
        rw [hsigns, ok_bind, htree, ok_bind] at h
        dsimp only at h
        rcases steps_outcome settings.regularization hupper hspec hcounts hcount hsize
          (le_refl B.cols) with ⟨s, hs, _⟩ | ⟨e', he', hzero⟩
        · rw [show factorNumeric B parent (offsets counts) signs settings.regularization = .ok s
            from hs, ok_bind] at h
          cases h
        · rw [show factorNumeric B parent (offsets counts) signs settings.regularization = .error e'
            from he', error_bind] at h
          cases h
          exact .inr (.inr hzero)

theorem factorBy_of_checkStructure {rule : OrderingRule α} {settings : LdlSettings α}
    {e : LdlError} (h : checkStructure A = .error e) : factorBy rule A settings = .error e := by
  unfold factorBy
  rw [h, error_bind]

/-- For every matrix with fields of consistent lengths, and an ordering that fails or is one of the
columns: an index leads out of the fields exactly if the matrix is square and a broken column comes
before every column with an entry below the diagonal. A matrix with a broken column is never
factored; if no index leads out of the fields, it is refused for its dimensions or for an entry
below the diagonal. -/
theorem factorBy_eq_outOfRange_iff {rows cols : Nat} {colptr rowval : Array Nat} {nzval : Array α}
    {rule : OrderingRule α} (settings : LdlSettings α)
    (hfields : Csc.ofFields? rows cols colptr rowval nzval = some A)
    (hrule : rule A = .error .ordering ∨ ∃ order, rule A = .ok order ∧ IsOrder order A.cols) :
    (factorBy rule A settings = .error .outOfRange ↔
        A.rows = A.cols ∧ ∃ c < A.cols, A.IsBroken c ∧ ∀ d < c, A.IsUpperColumn d) ∧
      ((∃ c < A.cols, A.IsBroken c) →
        ∃ e ∈ [LdlError.incompatibleDimension, .notUpperTriangular, .outOfRange],
          factorBy rule A settings = .error e) := by
  have hsizes := Csc.size_eq_of_ofFields? hfields
  have hcolptr := Csc.lt_size_colptr_of_ofFields? hfields
  refine ⟨?_, ?_⟩
  · rw [← Csc.isUpperTriangular?_eq_none_iff hcolptr, ← beq_iff_eq (a := A.rows)]
    show _ ↔ A.isSquare = true ∧ _
    rw [← checkStructure_eq_outOfRange_iff]
    refine ⟨fun h => ?_, factorBy_of_checkStructure⟩
    cases hcheck : checkStructure A with
    | error e =>
        rw [factorBy_of_checkStructure hcheck] at h
        cases h
        rfl
    | ok =>
        have hstructure := checkStructure_eq_ok hcheck
        have hupper := Csc.isUpper_of_isUpperTriangular hsizes hcolptr
          (beq_iff_eq.mp hstructure.left) hstructure.right
        rcases factorBy_eq_error hupper hcheck hrule h with hne | hne | hne <;> cases hne
  · rintro ⟨c, hc, hbroken⟩
    have hupper : A.isUpperTriangular? ≠ some true := by
      intro htriangle
      rcases Csc.isUpperTriangular?_eq_some_true_iff.mp htriangle c hc with ⟨stored, hread, _⟩
      rw [(Csc.columnRows?_eq_none_iff hcolptr hc).mpr hbroken] at hread
      cases hread
    rcases checkStructure_of_not_upper hupper with ⟨e, he, herror⟩
    exact ⟨e, he, factorBy_of_checkStructure herror⟩

/-- The second column ends before it starts, but the first has an entry below the diagonal. -/
def brokenBehind : Csc ℚ :=
  ⟨3, 3, #[0, 2, 1, 2], #[0, 1], #[1, 1]⟩

theorem factorBy_brokenBehind :
    Csc.ofFields? 3 3 #[0, 2, 1, 2] #[0, 1] #[1, 1] = some brokenBehind ∧
      (∃ c < 3, brokenBehind.IsBroken c) ∧
      factorBy naturalOrder brokenBehind .default ≠ .error .outOfRange ∧
      ∃ e ∈ [LdlError.incompatibleDimension, .notUpperTriangular, .outOfRange],
        factorBy naturalOrder brokenBehind .default = .error e := by
  have hfields : Csc.ofFields? 3 3 #[0, 2, 1, 2] #[0, 1] #[1, 1] = some brokenBehind := rfl
  have horder : naturalOrder brokenBehind = .ok (Array.range 3) := rfl
  have hbroken : ∃ c < 3, brokenBehind.IsBroken c := ⟨1, by decide, .inl (by decide)⟩
  have hrefused := factorBy_eq_outOfRange_iff .default hfields
    (.inr ⟨_, horder, isOrder_naturalOrder _ horder⟩)
  refine ⟨hfields, hbroken, fun h => ?_, hrefused.right hbroken⟩
  rcases hrefused.left.mp h with ⟨-, c, hc, hfirst, hbefore⟩
  have hzero : ¬brokenBehind.IsUpperColumn 0 := by
    intro hupper
    exact absurd (hupper.row_le (1, 1) (by decide +kernel)) (by decide)
  cases c with
  | zero =>
      rcases hfirst with hends | hends
      · exact absurd hends (by decide)
      · exact absurd hends (by decide)
  | succ c => exact hzero (hbefore 0 (Nat.succ_pos c))

/-- The same bounds, without an entry below the diagonal before them. -/
def brokenBounds : Csc ℚ :=
  ⟨3, 3, #[0, 2, 1, 2], #[0, 0], #[1, 1]⟩

/-- The bounds fall, which the last part of the check looks for, but an index leads out of the
fields before that. -/
theorem factorBy_brokenBounds :
    Csc.ofFields? 3 3 #[0, 2, 1, 2] #[0, 0] #[1, 1] = some brokenBounds ∧
      naturalOrder brokenBounds = .ok #[0, 1, 2] ∧ IsOrder #[0, 1, 2] 3 ∧
      anyNeighbours (fun x y => x ≥ y) brokenBounds.colptr.toList = true ∧
      factorBy naturalOrder brokenBounds .default = .error .outOfRange := by
  have hcheck : checkStructure brokenBounds = .error .outOfRange := by decide +kernel
  refine ⟨rfl, rfl, ?_, by decide, ?_⟩
  · unfold IsOrder
    decide
  · unfold factorBy
    rw [hcheck, error_bind]

end Ldl
end SoftMargin
