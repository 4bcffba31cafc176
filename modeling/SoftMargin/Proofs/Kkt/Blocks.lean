import Mathlib.Algebra.BigOperators.Fin
import Mathlib.Data.Matrix.Block
import SoftMargin.Proofs.Kkt.Quasidefinite

/-!
# The blocks of a system

The assembled fields are well formed for every number of points and features.
The symmetric matrix that they stand for consists of a multiple of the identity
for the variables, the constraints with their transpose, and a multiple of the
identity for the equations. Clearing the last entries of the equations changes
the last of these blocks to zero and nothing else.
-/

namespace SoftMargin

open Scalar Finset

/-!
## The format
-/

namespace Csc

section Columns

variable {α : Type} {L : List (List (Nat × α))} {rows : Nat}

theorem size_rowval_ofColumns : (ofColumns rows L).rowval.size = L.flatten.length :=
  List.size_toArray.trans (List.length_map _)

theorem size_nzval_ofColumns : (ofColumns rows L).nzval.size = L.flatten.length :=
  List.size_toArray.trans (List.length_map _)

theorem size_colptr_ofColumns : (ofColumns rows L).colptr.size = L.length + 1 := by
  simp [ofColumns]

theorem checkFormat_ofColumns (hrises : ∀ l ∈ L, (l.map (·.1)).Pairwise (· < ·))
    (hrows : ∀ l ∈ L, ∀ e ∈ l, e.1 < rows) : (ofColumns rows L).checkFormat = .ok () := by
  have hlast : (ofColumns rows L).colptr.getD L.length 0 = L.flatten.length := by
    rw [getD_colptr_ofColumns L (le_refl L.length), List.take_of_length_le (by simp),
      ← List.length_flatten]
  refine checkFormat_of_columns (size_rowval_ofColumns.trans size_nzval_ofColumns.symm)
    size_colptr_ofColumns (getD_colptr_ofColumns L (Nat.zero_le _))
    (hlast.trans size_rowval_ofColumns.symm) ?_ ?_ ?_
  · intro c hc
    rw [getD_colptr_ofColumns L (Nat.le_of_lt hc), getD_colptr_ofColumns L hc]
    exact ((L.map List.length).take_sublist_take_left (Nat.le_succ c)).sum_le_sum
      fun _ _ => Nat.zero_le _
  · intro c hc
    rw [column_ofColumns L hc]
    exact hrises _ (List.getElem_mem hc)
  · intro c hc e he
    rw [column_ofColumns L hc] at he
    exact hrows _ (List.getElem_mem hc) e he

end Columns

end Csc

namespace Kkt

variable {K : Type} [ExactScalar K]

theorem rising_rows_equationFront (H : Matrix K) (j : Nat) :
    ((equationFront H j).map (·.1)).Pairwise (· < ·) := by
  have hrange : ∀ n offset : Nat,
      ((List.range n).map fun k => offset + k).Pairwise (· < ·) := by
    intro n offset
    exact List.pairwise_lt_range.map _ fun _ _ hlt => Nat.add_lt_add_left hlt offset
  unfold equationFront Shape.weightIndex
  dsimp only
  by_cases hpoint : j < (Shape.of H).points
  · have hweights : ((H.col j).toList.mapIdx fun k h =>
        (2 * (Shape.of H).points + 1 + k, h)).map (·.1) =
        (List.range (H.col j).toList.length).map fun k => 2 * (Shape.of H).points + 1 + k := by
      apply List.ext_getElem (by simp)
      intro i hi hi'
      simp
    rw [if_pos hpoint, List.map_append, hweights, List.pairwise_append]
    refine ⟨?_, hrange _ _, ?_⟩
    · unfold Shape.surplusIndex Shape.thresholdIndex
      simp
      omega
    · intro r hr r' hr'
      obtain ⟨k, _, rfl⟩ := List.mem_map.mp hr'
      unfold Shape.surplusIndex Shape.thresholdIndex at hr
      simp only [List.map_cons, List.map_nil, List.mem_cons, List.not_mem_nil, or_false] at hr
      omega
  · rw [if_neg hpoint, List.map_map]
    exact hrange _ _

theorem checkFormat_assemble (H : Matrix K) (rho δ : K) :
    (assemble H rho δ).checkFormat = .ok () := by
  have hdimension : (Shape.of H).dimension =
      (Shape.of H).variableCount + (Shape.of H).equationCount := rfl
  have hcases : ∀ l ∈ columns H rho δ, (∃ i < (Shape.of H).variableCount, l = [(i, rho)]) ∨
      ∃ j < (Shape.of H).equationCount,
        l = equationFront H j ++ [((Shape.of H).equationIndex j, δ)] := by
    intro l hl
    rw [columns_eq] at hl
    unfold columnsWith at hl
    rcases List.mem_append.mp hl with hvariable | hequation
    · obtain ⟨i, hi, rfl⟩ := List.mem_map.mp hvariable
      exact Or.inl ⟨i, List.mem_range.mp hi, rfl⟩
    · obtain ⟨j, hj, rfl⟩ := List.mem_map.mp hequation
      exact Or.inr ⟨j, List.mem_range.mp hj, rfl⟩
  apply Csc.checkFormat_ofColumns
  · intro l hl
    rcases hcases l hl with ⟨i, _, rfl⟩ | ⟨j, _, rfl⟩
    · exact List.pairwise_singleton _ _
    · rw [List.map_append, List.pairwise_append]
      refine ⟨rising_rows_equationFront H j, List.pairwise_singleton _ _, ?_⟩
      intro r hr r' hr'
      obtain ⟨e, he, rfl⟩ := List.mem_map.mp hr
      rw [List.mem_singleton.mp hr']
      exact Nat.lt_add_right j (row_lt_of_mem_equationFront H he)
  · intro l hl e he
    rcases hcases l hl with ⟨i, hi, rfl⟩ | ⟨j, hj, rfl⟩
    · rw [List.mem_singleton.mp he]
      exact Nat.lt_add_right _ hi
    · rcases List.mem_append.mp he with hfront | hlast
      · exact Nat.lt_add_right _ (row_lt_of_mem_equationFront H hfront)
      · rw [List.mem_singleton.mp hlast]
        exact Nat.add_lt_add_left hj _

/-!
## The entries
-/

abbrev Shape.Row (s : Shape) : Type :=
  Fin s.variableCount ⊕ Fin s.equationCount

def Shape.index (s : Shape) : s.Row → Nat
  | .inl i => i
  | .inr j => s.equationIndex j

/-- What equation `j` asks of the variables: of the slack, the surplus, the threshold and the
weights for a point, and of the weights alone for the last equation. -/
def constraintRow (H : Matrix K) (j : Nat) : Array K :=
  if j < H.cols then
    (Shape.of H).arrange (fun i => if i = j then 1 else 0) (fun i => if i = j then -1 else 0) (-1)
      (H.entry · j)
  else
    (Shape.of H).arrange (fun _ => 0) (fun _ => 0) 0 (fun _ => 1)

def constraints (H : Matrix K) :=
  Matrix.of fun (j : Fin (Shape.of H).equationCount) (i : Fin (Shape.of H).variableCount) =>
    (constraintRow H j).getD i 0

/-- The matrix `[rho * I, Aᵀ; A, δ * I]` for the constraints `A`. -/
def blocks (H : Matrix K) (rho δ : K) :=
  Matrix.fromBlocks (Matrix.diagonal fun _ => rho) (constraints H).transpose (constraints H)
    (Matrix.diagonal fun _ => δ)

theorem getD_constraintRow (H : Matrix K) {j i : Nat} (hj : j < (Shape.of H).equationCount)
    (hi : i < (Shape.of H).variableCount) :
    (constraintRow H j).getD i 0 = equationEntry H j i := by
  have hcols : (Shape.of H).points = H.cols := rfl
  have hrows : (Shape.of H).features = H.rows := rfl
  unfold constraintRow
  rcases Nat.lt_succ_iff_lt_or_eq.mp hj with hpoint | hlast
  · rw [hcols] at hpoint
    rw [if_pos hpoint]
    rcases Shape.variable_cases hi with hslack | ⟨k, hk, rfl⟩ | rfl | ⟨k, hk, rfl⟩
    · rw [Shape.getD_arrange_slack _ _ _ _ _ hslack, equationEntry_slack H hpoint hslack]
      exact if_congr eq_comm rfl rfl
    · rw [Shape.getD_arrange_surplus _ _ _ _ _ hk, hcols, equationEntry_surplus H hpoint hk]
      exact if_congr eq_comm rfl rfl
    · rw [Shape.getD_arrange_threshold, hcols, equationEntry_threshold H hpoint]
    · rw [Shape.getD_arrange_weight _ _ _ _ _ hk, hcols, equationEntry_weight H hpoint hk]
  · rw [hcols] at hlast
    rw [hlast, if_neg (Nat.lt_irrefl _), equationEntry_normalization]
    rcases Shape.variable_cases hi with hslack | ⟨k, hk, rfl⟩ | rfl | ⟨k, hk, rfl⟩
    · rw [Shape.getD_arrange_slack _ _ _ _ _ hslack, if_neg (by omega)]
    · rw [Shape.getD_arrange_surplus _ _ _ _ _ hk, if_neg (by omega)]
    · rw [Shape.getD_arrange_threshold, if_neg (by omega)]
    · rw [Shape.getD_arrange_weight _ _ _ _ _ hk, if_pos (by omega)]

theorem symmetricEntry_index (H : Matrix K) (rho δ : K) (r c : (Shape.of H).Row) :
    (assemble H rho δ).symmetricEntry ((Shape.of H).index r) ((Shape.of H).index c) =
      blocks H rho δ r c := by
  have hvariables : ∀ i i' : Fin (Shape.of H).variableCount, i ≤ i' →
      (assemble H rho δ).symmetricEntry i i' = blocks H rho δ (.inl i) (.inl i') := by
    intro i i' hle
    rw [symmetricEntry_variable H rho δ i'.isLt hle]
    simp [blocks, Matrix.diagonal_apply, Fin.ext_iff, eq_comm]
  have hequations : ∀ j j' : Fin (Shape.of H).equationCount, j ≤ j' →
      (assemble H rho δ).symmetricEntry ((Shape.of H).equationIndex j)
        ((Shape.of H).equationIndex j') = blocks H rho δ (.inr j) (.inr j') := by
    intro j j' hle
    have hnone : equationEntry H j' ((Shape.of H).equationIndex j) = 0 :=
      equationEntry_of_le H _ (Nat.le_add_right _ _)
    have hle' : (Shape.of H).equationIndex j ≤ (Shape.of H).equationIndex j' :=
      Nat.add_le_add_left hle _
    rw [symmetricEntry_equation H rho δ j'.isLt hle', hnone]
    simp [blocks, Matrix.diagonal_apply, Shape.equationIndex, Fin.ext_iff, eq_comm]
  have hmixed : ∀ (i : Fin (Shape.of H).variableCount) (j : Fin (Shape.of H).equationCount),
      (assemble H rho δ).symmetricEntry i ((Shape.of H).equationIndex j) =
        constraints H j i := by
    intro i j
    have hlt : (i : Nat) < (Shape.of H).equationIndex j := Nat.lt_add_right _ i.isLt
    rw [symmetricEntry_equation H rho δ j.isLt hlt.le, if_neg hlt.ne',
      ← getD_constraintRow H j.isLt i.isLt]
    rfl
  cases r with
  | inl i =>
      cases c with
      | inl i' =>
          rcases le_total i i' with hle | hge
          · exact hvariables i i' hle
          · rw [Csc.symmetricEntry_comm]
            refine (hvariables i' i hge).trans ?_
            simp [blocks, Matrix.diagonal_apply, eq_comm]
      | inr j => exact hmixed i j
  | inr j =>
      cases c with
      | inl i =>
          rw [Csc.symmetricEntry_comm]
          exact hmixed i j
      | inr j' =>
          rcases le_total j j' with hle | hge
          · exact hequations j j' hle
          · rw [Csc.symmetricEntry_comm]
            refine (hequations j' j hge).trans ?_
            simp [blocks, Matrix.diagonal_apply, eq_comm]

/-!
## Products
-/

theorem Shape.variable_lt {s : Shape} {i : Nat} (hi : i < s.variableCount) : i < s.dimension :=
  Nat.lt_add_right _ hi

theorem Shape.equationIndex_lt {s : Shape} {j : Nat} (hj : j < s.equationCount) :
    s.equationIndex j < s.dimension :=
  Nat.add_lt_add_left hj _

theorem Shape.index_lt {s : Shape} (r : s.Row) : s.index r < s.dimension := by
  cases r with
  | inl i => exact variable_lt i.isLt
  | inr j => exact equationIndex_lt j.isLt

theorem Shape.sum_rows (s : Shape) (f : Nat → K) :
    ∑ r ∈ range s.dimension, f r = ∑ r : s.Row, f (s.index r) := by
  unfold dimension
  rw [sum_range_add, sum_range, sum_range, Fintype.sum_sum_type]
  rfl

theorem symmetricTimes_index (H : Matrix K) (rho δ : K) (w : Nat → K) (r : (Shape.of H).Row) :
    (assemble H rho δ).symmetricTimes w ((Shape.of H).index r) =
      (blocks H rho δ).mulVec (fun c => w ((Shape.of H).index c)) r := by
  have hcols := cols_assemble H rho δ
  rw [Csc.symmetricTimes_eq_sum (isUpper_assemble H rho δ)
    (fun c hc => nodup_rows_assemble H rho δ (hc.trans_eq hcols)) w
    ((Shape.index_lt r).trans_eq hcols.symm), hcols, Shape.sum_rows]
  apply sum_congr rfl
  intro c _
  rw [symmetricEntry_index]

/-- A stored upper triangle. Its fields are in order, and they stand for the symmetric matrix `M`,
in each entry and in products. -/
structure IsUpperTriangle (s : Shape) (A : Csc K) (M : s.Row → s.Row → K) : Prop where
  rows_eq : A.rows = s.dimension
  cols_eq : A.cols = s.dimension
  checkFormat_eq : A.checkFormat = .ok ()
  isUpperTriangular_eq : A.isUpperTriangular? = some true
  entry_eq : ∀ r c, A.symmetricEntry (s.index r) (s.index c) = M r c
  product : ∀ (a : K) (x : Array K) (b : K) (y : Array K), x.size = s.dimension →
    y.size = s.dimension → ∃ v, A.symmetricMulAdd? a x b y = some v ∧ v.size = s.dimension ∧
      ∀ r, v.getD (s.index r) 0 =
        a * ∑ c, M r c * x.getD (s.index c) 0 + b * y.getD (s.index r) 0

theorem isUpperTriangle_assemble (H : Matrix K) (rho δ : K) :
    IsUpperTriangle (Shape.of H) (assemble H rho δ) (blocks H rho δ) := by
  have hcols := cols_assemble H rho δ
  have hupper := isUpper_assemble H rho δ
  refine ⟨rfl, hcols, checkFormat_assemble H rho δ, hupper.isUpperTriangular_eq,
    symmetricEntry_index H rho δ, ?_⟩
  intro a x b y hx hy
  have hproduct := symmetricMulAdd_assemble H rho δ a x b hy
  refine ⟨_, if_pos ⟨hcols.symm, hx.trans hcols.symm, hy.trans hcols.symm, hupper.readable⟩,
    hproduct.left, ?_⟩
  intro r
  rw [hproduct.right _ (Shape.index_lt r), symmetricTimes_index, add_comm]
  rfl

/-- The assembled fields stand for `[rho * I, Aᵀ; A, δ * I]`. With the last entries of the equations
cleared they stand for `[rho * I, Aᵀ; A, 0]`, in the same places. -/
theorem assembled_and_cleared (H : Matrix K) (rho δ : K) :
    let A := assemble H rho δ
    let cleared := clearEquationBlock (Shape.of H) A
    IsUpperTriangle (Shape.of H) A (blocks H rho δ) ∧
      IsUpperTriangle (Shape.of H) cleared (blocks H rho 0) ∧
      cleared.colptr = A.colptr ∧ cleared.rowval = A.rowval := by
  dsimp only
  refine ⟨isUpperTriangle_assemble H rho δ, ?_, rfl, rfl⟩
  rw [clearEquationBlock_assemble]
  exact isUpperTriangle_assemble H rho 0

end Kkt
end SoftMargin
