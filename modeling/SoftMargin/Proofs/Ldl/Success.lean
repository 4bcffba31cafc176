import SoftMargin.Proofs.Ldl.Factor

/-!
# When a factorization succeeds

An upper triangular matrix that stores an entry in every column passes the
check. With an order of its columns and one sign for each, all that can then go
wrong is a pivot that is zero, and a regularization that replaces small pivots
rules that out.
-/

namespace SoftMargin

open Scalar

/-!
## The check
-/

namespace Ldl

theorem checkStructure_of_isUpper {α : Type} {A : Csc α} (hA : A.IsUpper)
    (hsize : A.colptr.size = A.cols + 1) (hcolumns : ∀ c < A.cols, A.column c ≠ []) :
    checkStructure A = .ok () := by
  have hrising : anyNeighbours (fun x y => x ≥ y) A.colptr.toList = false := by
    rw [Csc.anyNeighbours_colptr_iff hsize]
    intro c hc
    have hlen := hA.length_column hc
    have hpos := List.length_pos_iff.mpr (hcolumns c hc)
    exact decide_eq_false (not_le.mpr (by omega))
  unfold checkStructure
  rw [show A.isSquare = true from beq_iff_eq.mpr hA.square, hA.isUpperTriangular_eq, hrising]
  rfl

/-!
## The signs
-/

theorem mapM_read_eq_ok {β : Type} {xs : Array β} {is : List Nat} (h : ∀ i ∈ is, i < xs.size) :
    ∃ ys, is.mapM (read xs) = .ok ys := by
  induction is with
  | nil => exact ⟨[], rfl⟩
  | cons i rest ih =>
      rcases ih fun j hj => h j (List.mem_cons_of_mem i hj) with ⟨ys, hys⟩
      have hi : i < xs.size := h i List.mem_cons_self
      refine ⟨xs[i] :: ys, ?_⟩
      rw [List.mapM_cons, read_of_lt xs xs[i] hi, ok_bind, hys, ok_bind, getD_of_lt xs _ hi]
      rfl

variable {K : Type} [ExactScalar K]

omit [ExactScalar K] in
theorem orderedSigns_of_isOrder {settings : LdlSettings K} {order : Array Nat} {n : Nat}
    (horder : IsOrder order n)
    (hsigns : ∀ signs, settings.signs = some signs → signs.size = n) :
    ∃ signs, settings.orderedSigns order = .ok signs := by
  unfold LdlSettings.orderedSigns
  cases hstated : settings.signs with
  | none => exact ⟨_, rfl⟩
  | some stated =>
      have hsize := hsigns stated hstated
      have hbound : ∀ i ∈ order.toList, i < stated.size := by
        intro i hi
        rw [hsize]
        exact List.mem_range.mp (horder.mem_iff.mp hi)
      rcases mapM_read_eq_ok hbound with ⟨signs, hread⟩
      refine ⟨signs.toArray, ?_⟩
      show (if stated.size = order.size then order.mapM (read stated) else _) = _
      rw [if_pos (hsize.trans horder.size_eq.symm), Array.mapM_eq_mapM_toList, hread]
      rfl

/-!
## The factorization
-/

/-- Whatever the order, a matrix is factored if zero pivots are replaced. -/
theorem exists_factorBy {rule : OrderingRule K} {A : Csc K} (settings : LdlSettings K)
    {order : Array Nat} (hA : A.IsUpper) (hcheck : checkStructure A = .ok ())
    (hrule : rule A = .ok order) (horder : IsOrder order A.cols)
    (hsigns : ∀ signs, settings.signs = some signs → signs.size = A.cols)
    (hreg : MendsZeros settings.regularization) : ∃ F, factorBy rule A settings = .ok F := by
  rcases permuteSymmetric_symmetricEntry hA horder with ⟨B, hB, hupper, hcols, _⟩
  rcases orderedSigns_of_isOrder horder hsigns with ⟨signs, hordered⟩
  rcases eliminationTree_eq_ok hupper with ⟨parent, counts, htree, htreeSpec, hcounts, hcount⟩
  have hsize : signs.size = B.cols := by
    rw [(orderedSigns_eq_ok hordered).left, horder.size_eq, hcols]
  have houtcome := factorNumeric_outcome settings.regularization hupper htreeSpec hcounts hcount
    hsize
  rcases houtcome with ⟨s, hs, _⟩ | ⟨_, _, _, hzero⟩
  · unfold factorBy
    rw [hcheck, ok_bind, hrule, ok_bind, hB, ok_bind, hordered, ok_bind, htree, ok_bind]
    dsimp only
    rw [hs, ok_bind]
    exact ⟨_, rfl⟩
  · exact absurd hreg hzero

end Ldl
end SoftMargin
