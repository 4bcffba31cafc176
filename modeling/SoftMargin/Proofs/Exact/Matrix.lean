import SoftMargin.Proofs.Exact.Vector
import SoftMargin.Matrix

/-!
# Dense matrices of exact scalars

The entries of a matrix stand column after column. What is built, selected or
multiplied is described through the entries.
-/

namespace SoftMargin
namespace Matrix

open Scalar Finset

variable {K : Type} [ExactScalar K]

/-!
## Building
-/

theorem length_flatMap_columns {β : Type} (rows cols : Nat) (f : Nat → Nat → β) :
    ((List.range cols).flatMap fun c => (List.range rows).map (f · c)).length = rows * cols := by
  induction cols with
  | zero => simp
  | succ cols ih =>
      rw [List.range_succ, List.flatMap_append, List.length_append, ih, List.flatMap_singleton,
        List.length_map, List.length_range, Nat.mul_succ]

theorem getElem?_flatMap_columns {β : Type} (rows cols : Nat) (f : Nat → Nat → β) {r c : Nat}
    (hr : r < rows) (hc : c < cols) :
    ((List.range cols).flatMap fun c => (List.range rows).map (f · c))[r + rows * c]? =
      some (f r c) := by
  induction cols with
  | zero => exact absurd hc (Nat.not_lt_zero c)
  | succ cols ih =>
      rw [List.range_succ, List.flatMap_append, List.flatMap_singleton, List.getElem?_append,
        length_flatMap_columns]
      rcases Nat.lt_succ_iff_lt_or_eq.mp hc with hlt | heq
      · have hle : rows * (c + 1) ≤ rows * cols := Nat.mul_le_mul_left rows hlt
        rw [Nat.mul_succ] at hle
        rw [if_pos (by omega)]
        exact ih hlt
      · rw [if_neg (by rw [heq]; omega), heq, Nat.add_sub_cancel, List.getElem?_map,
          List.getElem?_range hr]
        rfl

theorem entry_ofFn (rows cols : Nat) (f : Nat → Nat → K) {r c : Nat} (hr : r < rows)
    (hc : c < cols) : (ofFn rows cols f).entry r c = f r c := by
  unfold entry ofFn position
  rw [Array.getD_eq_getD_getElem?, List.getElem?_toArray, getElem?_flatMap_columns _ _ f hr hc,
    Option.getD_some]

/-!
## Columns
-/

omit [ExactScalar K] in
theorem size_col {A : Matrix K} (hA : A.Complete) {c : Nat} (hc : c < A.cols) :
    (A.col c).size = A.rows := by
  have hle : (c + 1) * A.rows ≤ A.rows * A.cols := by
    rw [Nat.mul_comm A.rows]
    exact Nat.mul_le_mul_right A.rows hc
  have hdata : A.rows * A.cols ≤ A.data.size := hA
  unfold col
  rw [Array.size_extract, Nat.succ_mul]
  rw [Nat.succ_mul] at hle
  omega

theorem getD_col (A : Matrix K) (c : Nat) {r : Nat} (hr : r < A.rows) :
    (A.col c).getD r 0 = A.entry r c := by
  unfold col entry position
  rw [getD_extract _ _ (by rw [Nat.succ_mul]; omega), Nat.mul_comm, Nat.add_comm]

theorem sum_take_lengths {β : Type} {L : List (List β)} {rows c : Nat}
    (h : ∀ l ∈ L, l.length = rows) (hc : c ≤ L.length) :
    ((L.map List.length).take c).sum = c * rows := by
  rw [List.map_eq_replicate_iff.mpr h, List.take_replicate, List.sum_replicate_nat,
    min_eq_left hc]

omit [ExactScalar K] in
theorem length_of_mem_columns {A : Matrix K} (hA : A.Complete) {cols : Array Nat}
    (hcols : ∀ c ∈ cols, c < A.cols) :
    ∀ l ∈ cols.toList.map fun c => (A.col c).toList, l.length = A.rows := by
  intro l hl
  rcases List.mem_map.mp hl with ⟨c, hc, rfl⟩
  rw [Array.length_toList, size_col hA (hcols c (Array.mem_toList_iff.mp hc))]

omit [ExactScalar K] in
theorem complete_select {A : Matrix K} (hA : A.Complete) {cols : Array Nat}
    (hcols : ∀ c ∈ cols, c < A.cols) : (A.select cols).Complete := by
  have hlengths := List.map_eq_replicate_iff.mpr (length_of_mem_columns hA hcols)
  have hsize : (A.select cols).data.size = cols.size * A.rows := by
    show (cols.flatMap A.col).size = _
    rw [← Array.length_toList, Array.toList_flatMap, List.flatMap_def, List.length_flatten,
      hlengths, List.sum_replicate_nat, List.length_map, Array.length_toList]
  unfold Complete
  rw [hsize, Nat.mul_comm]
  exact le_refl _

omit [ExactScalar K] in
theorem col_select {A : Matrix K} (hA : A.Complete) {cols : Array Nat}
    (hcols : ∀ c ∈ cols, c < A.cols) {j : Nat} (hj : j < cols.size) :
    (A.select cols).col j = A.col (cols.getD j 0) := by
  let L := cols.toList.map fun c => (A.col c).toList
  have hlen : ∀ l ∈ L, l.length = A.rows := length_of_mem_columns hA hcols
  have hL : L.length = cols.size := by simp [L]
  have hpart := List.drop_take_succ_flatten_eq_getElem L j (by omega)
  rw [sum_take_lengths hlen (by omega), sum_take_lengths hlen (by omega)] at hpart
  have hjL : j < L.length := by omega
  have hget : L[j] = (A.col (cols.getD j 0)).toList := by
    simp [L, getD_of_lt cols 0 hj]
  apply Array.toList_inj.mp
  unfold col select
  rw [Array.toList_extract, Array.toList_flatMap, List.extract_eq_take_drop, ← List.drop_take]
  exact hpart.trans hget

theorem entry_select {A : Matrix K} (hA : A.Complete) {cols : Array Nat}
    (hcols : ∀ c ∈ cols, c < A.cols) {r j : Nat} (hr : r < A.rows) (hj : j < cols.size) :
    (A.select cols).entry r j = A.entry r (cols.getD j 0) := by
  rw [← getD_col _ j (by exact hr), col_select hA hcols hj, getD_col A _ hr]

omit [ExactScalar K] in
theorem size_transposeMulAdd [Scalar K] (A : Matrix K) (a : K) (x : Array K) (b : K) {y : Array K}
    (hy : y.size = A.cols) : (A.transposeMulAdd a x b y).size = A.cols := by
  unfold transposeMulAdd
  rw [Array.size_zipWith, Array.size_range, hy, min_self]

theorem getD_transposeMulAdd {A : Matrix K} (hA : A.Complete) (a : K) {x : Array K} (b : K)
    {y : Array K} (hx : x.size = A.rows) (hy : y.size = A.cols) {c : Nat} (hc : c < A.cols) :
    (A.transposeMulAdd a x b y).getD c 0 =
      a * ∑ r ∈ range A.rows, A.entry r c * x.getD r 0 + b * y.getD c 0 := by
  unfold transposeMulAdd
  rw [getD_of_lt _ 0 (by rw [Array.size_zipWith, Array.size_range]; omega),
    getD_of_lt y 0 (by omega), Array.getElem_zipWith, Array.getElem_range,
    dot_eq_sum _ _ (size_col hA hc) hx]
  congr 2
  apply sum_congr rfl
  intro r hr
  rw [getD_col A c (mem_range.mp hr)]

/-!
## Rows
-/

omit [ExactScalar K] in
theorem complete_ofFn (rows cols : Nat) (f : Nat → Nat → K) : (ofFn rows cols f).Complete := by
  unfold Complete ofFn
  rw [List.size_toArray, length_flatMap_columns]

theorem mulAdd_spec {A : Matrix K} (hA : A.Complete) (a : K) (x : Array K) (b : K) {y : Array K}
    (hy : y.size = A.rows) : (A.mulAdd a x b y).size = A.rows ∧
      ∀ r < A.rows, (A.mulAdd a x b y).getD r 0 =
        a * ∑ c ∈ range A.cols, A.entry r c * x.getD c 0 + b * y.getD r 0 := by
  have hscale : (scale y b).size = A.rows := Array.size_map.trans hy
  exact foldl_range_induction
    (fun n (acc : Array K) => acc.size = A.rows ∧ ∀ r < A.rows, acc.getD r 0 =
      a * ∑ c ∈ range n, A.entry r c * x.getD c 0 + b * y.getD r 0)
    (fun acc c =>
      let axc := a * x.getD c 0
      Array.zipWith (fun u v => u + axc * v) acc (A.col c))
    A.cols (scale y b) (by
      refine ⟨hscale, ?_⟩
      intro r hr
      unfold scale
      rw [getD_map _ _ 0 _ (by omega), sum_range_zero, mul_zero, zero_add, mul_comm]) (by
      intro c hc acc hinv
      rcases hinv with ⟨hsize, hvals⟩
      have hcol := size_col hA hc
      have hnext : (Array.zipWith (fun u v => u + a * x.getD c 0 * v) acc (A.col c)).size =
          A.rows := by
        rw [Array.size_zipWith, hsize, hcol, min_self]
      refine ⟨hnext, ?_⟩
      intro r hr
      dsimp only
      rw [getD_of_lt _ 0 (by omega), Array.getElem_zipWith, ← getD_of_lt acc 0,
        ← getD_of_lt (A.col c) 0, getD_col A c hr, hvals r hr, sum_range_succ]
      ring)

end Matrix
end SoftMargin
