import Mathlib.LinearAlgebra.Matrix.Block
import SoftMargin.Proofs.Sparse.Symmetric
import SoftMargin.Proofs.Sparse.Triangular

/-!
# Products with the stored triangle

The stored columns are an upper triangular matrix, whatever the order of the
rows in a column, in which entries at one position add up. The product is the
one with this matrix and its transpose, less the diagonal that the two share.
-/

namespace SoftMargin

open Scalar Finset

variable {K : Type} [ExactScalar K]

def entriesOf (n : Nat) (x : Array K) : Fin n → K :=
  fun i => x.getD i 0

namespace Csc

/-- The matrix of the stored entries. Those at one position add up. -/
def storedMatrix (A : Csc K) :=
  Matrix.of fun (r c : Fin A.cols) => entrySum (A.column c) r

theorem storedMatrix_blockTriangular {A : Csc K} (hA : A.IsUpper) :
    A.storedMatrix.BlockTriangular id := by
  intro r c hcr
  apply entrySum_eq_zero
  intro e he her
  have hle := hA.row_le c c.isLt e he
  exact absurd (her ▸ hle) (Nat.not_le.mpr hcr)

theorem symmetricTimes_eq_mulVec {A : Csc K} (hrows : ∀ c < A.cols, ∀ e ∈ A.column c, e.1 < A.cols)
    (x : Nat → K) (i : Fin A.cols) :
    A.symmetricTimes x i = (A.storedMatrix + A.storedMatrix.transpose -
      Matrix.diagonal A.storedMatrix.diag).mulVec (fun c => x c) i := by
  have hcolumn : offDiagonal (A.column i) i x =
      ∑ r ∈ range A.cols, entrySum (A.column i) r * x r - entrySum (A.column i) i * x i := by
    rw [← sum_map_eq_sum_entrySum _ (hrows i i.isLt), ← offDiagonal_add_diagonal _ (i : Nat),
      add_sub_cancel_right]
  have hstored : A.storedMatrix.mulVec (fun c => x c) i =
      ∑ c ∈ range A.cols, entrySum (A.column c) i * x c :=
    (sum_range fun c => entrySum (A.column c) i * x c).symm
  have htranspose : A.storedMatrix.transpose.mulVec (fun c => x c) i =
      ∑ r ∈ range A.cols, entrySum (A.column i) r * x r :=
    (sum_range fun r => entrySum (A.column i) r * x r).symm
  rw [Matrix.sub_mulVec, Matrix.add_mulVec, Pi.sub_apply, Pi.add_apply, Matrix.mulVec_diagonal,
    hstored, htranspose]
  unfold symmetricTimes
  rw [hcolumn, add_sub_assoc]
  rfl

/-- For every upper triangular matrix the product is that with the symmetric matrix whose upper
triangle it is. -/
theorem symmetricMulAdd?_eq_mulVec {A : Csc K} (hA : A.IsUpper) (a : K) {x : Array K} (b : K)
    {y : Array K} (hx : x.size = A.cols) (hy : y.size = A.cols) :
    A.storedMatrix.BlockTriangular id ∧
      ∃ z, A.symmetricMulAdd? a x b y = some z ∧ z.size = A.cols ∧
        entriesOf A.cols z =
          a • (A.storedMatrix + A.storedMatrix.transpose -
            Matrix.diagonal A.storedMatrix.diag).mulVec (entriesOf A.cols x) +
          b • entriesOf A.cols y := by
  have hrows : ∀ c < A.cols, ∀ e ∈ A.column c, e.1 < A.cols := fun c hc e he =>
    (hA.row_le c hc e he).trans_lt hc
  rcases symmetricMulAdd_spec a x b hy hrows with ⟨hsize, hentries⟩
  refine ⟨storedMatrix_blockTriangular hA, A.symmetricMulAdd a x b y,
    if_pos ⟨hA.square, hx, hy, hA.readable⟩, hsize, ?_⟩
  funext i
  have hproduct := symmetricTimes_eq_mulVec hrows (fun c => x.getD c 0) i
  show (A.symmetricMulAdd a x b y).getD i 0 = _
  rw [hentries i i.isLt, hproduct, add_comm]
  rfl

/-- The rows of the second column are unsorted and come twice each, also the one on the diagonal. -/
def repeatedRows : Csc ℚ :=
  ⟨3, 3, #[0, 1, 5, 7], #[0, 1, 0, 1, 0, 2, 0], #[1, 2, 3, 7, 4, 5, 6]⟩

theorem symmetricMulAdd?_repeatedRows : repeatedRows.IsUpper ∧
    repeatedRows.symmetricMulAdd? 2 #[1, -1, 2] (-1) #[1, 1, 1] = some #[11, -5, 31] ∧
      entriesOf 3 #[11, -5, 31] =
        (2 : ℚ) • (repeatedRows.storedMatrix + repeatedRows.storedMatrix.transpose -
          Matrix.diagonal repeatedRows.storedMatrix.diag).mulVec (entriesOf 3 #[1, -1, 2]) +
        (-1 : ℚ) • entriesOf 3 #[1, 1, 1] := by
  have hupper : repeatedRows.IsUpper :=
    ⟨rfl, by decide, by decide, by decide, by decide, by decide +kernel⟩
  have hx : (#[1, -1, 2] : Array ℚ).size = repeatedRows.cols := rfl
  have hy : (#[1, 1, 1] : Array ℚ).size = repeatedRows.cols := rfl
  rcases (symmetricMulAdd?_eq_mulVec hupper 2 (-1) hx hy).right with ⟨z, hz, _, hentries⟩
  have hrun : repeatedRows.symmetricMulAdd? 2 #[1, -1, 2] (-1) #[1, 1, 1] =
      some #[11, -5, 31] := by decide +kernel
  obtain rfl : z = #[11, -5, 31] := Option.some.inj (hz.symm.trans hrun)
  exact ⟨hupper, hrun, hentries⟩

end Csc
end SoftMargin
