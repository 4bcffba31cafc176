import SoftMargin.Proofs.Sparse.Entries
import SoftMargin.Sparse.Symmetric

/-!
# Products with a symmetric matrix

Column `i` of the upper triangle acts on entry `i` of the product from above the
diagonal, and every column acts through its entries in row `i`. Where no column
has two entries in one row, this is the product with the symmetric matrix.
-/

namespace SoftMargin
namespace Csc

open Scalar Finset

variable {K : Type} [ExactScalar K]

def offDiagonal (es : List (Nat × K)) (c : Nat) (x : Nat → K) : K :=
  (es.map fun e => if e.1 = c then 0 else e.2 * x e.1).sum

def symmetricTimes (A : Csc K) (x : Nat → K) (i : Nat) : K :=
  ∑ c ∈ range A.cols, entrySum (A.column c) i * x c + offDiagonal (A.column i) i x

theorem offDiagonal_add_diagonal (es : List (Nat × K)) (c : Nat) (x : Nat → K) :
    offDiagonal es c x + entrySum es c * x c = (es.map fun e => e.2 * x e.1).sum := by
  unfold offDiagonal
  induction es with
  | nil => simp
  | cons e rest ih =>
      rw [List.map_cons, List.map_cons, List.sum_cons, List.sum_cons, entrySum_cons, ← ih]
      by_cases hec : e.1 = c
      · rw [if_pos hec, if_pos hec, hec]
        ring
      · rw [if_neg hec, if_neg hec]
        ring

theorem addSymmetricEntry_spec (a : K) (x : Array K) {acc : Array K} {row col : Nat} (v : K)
    (hrow : row < acc.size) (hcol : col < acc.size) :
    (addSymmetricEntry a x col acc row v).size = acc.size ∧
      ∀ i, (addSymmetricEntry a x col acc row v).getD i 0 = acc.getD i 0 +
        a * ((if row = i then v * x.getD col 0 else 0) +
          if col = i then (if row = col then 0 else v * x.getD row 0) else 0) := by
  unfold addSymmetricEntry
  dsimp only
  by_cases hdiag : row = col
  · rw [if_pos hdiag]
    refine ⟨Array.size_modify, ?_⟩
    intro i
    rw [getD_modify, if_pos hdiag, ite_self, add_zero]
    by_cases hi : row = i
    · rw [if_pos ⟨hi, hrow⟩, if_pos hi]
      ring
    · rw [if_neg fun hand => hi hand.left, if_neg hi, mul_zero, add_zero]
  · rw [if_neg hdiag]
    refine ⟨by rw [Array.size_modify, Array.size_modify], ?_⟩
    intro i
    rw [getD_modify, getD_modify, Array.size_modify, if_neg hdiag]
    by_cases hc : col = i
    · have hr : row ≠ i := fun hri => hdiag (hri.trans hc.symm)
      rw [if_pos ⟨hc, hcol⟩, if_neg fun hand => hr hand.left, if_neg hr, if_pos hc]
      ring
    · rw [if_neg fun hand => hc hand.left, if_neg hc]
      by_cases hr : row = i
      · rw [if_pos ⟨hr, hrow⟩, if_pos hr]
        ring
      · rw [if_neg fun hand => hr hand.left, if_neg hr, add_zero, mul_zero, add_zero]

theorem foldl_addSymmetricEntry (a : K) (x : Array K) {acc : Array K} {col : Nat}
    (es : List (Nat × K)) (hrows : ∀ e ∈ es, e.1 < acc.size) (hcol : col < acc.size) :
    (es.foldl (fun acc e => addSymmetricEntry a x col acc e.1 e.2) acc).size = acc.size ∧
      ∀ i, (es.foldl (fun acc e => addSymmetricEntry a x col acc e.1 e.2) acc).getD i 0 =
        acc.getD i 0 + a * (entrySum es i * x.getD col 0 +
          if col = i then offDiagonal es col fun r => x.getD r 0 else 0) := by
  induction es generalizing acc with
  | nil => simp [offDiagonal]
  | cons e rest ih =>
      have hentry := addSymmetricEntry_spec a x e.2 (hrows e List.mem_cons_self) hcol
      have hrows' : ∀ d ∈ rest, d.1 < (addSymmetricEntry a x col acc e.1 e.2).size := by
        intro d hd
        rw [hentry.left]
        exact hrows d (List.mem_cons_of_mem e hd)
      have hrest := ih hrows' (by rw [hentry.left]; exact hcol)
      rw [List.foldl_cons]
      refine ⟨hrest.left.trans hentry.left, ?_⟩
      intro i
      rw [hrest.right i, hentry.right i, entrySum_cons]
      unfold offDiagonal
      rw [List.map_cons, List.sum_cons]
      by_cases hc : col = i
      · rw [if_pos hc, if_pos hc, if_pos hc]
        by_cases hr : e.1 = i
        · rw [if_pos hr, if_pos hr]
          ring
        · rw [if_neg hr, if_neg hr]
          ring
      · rw [if_neg hc, if_neg hc, if_neg hc]
        by_cases hr : e.1 = i
        · rw [if_pos hr, if_pos hr]
          ring
        · rw [if_neg hr, if_neg hr]
          ring

theorem symmetricMulAdd_spec {A : Csc K} (a : K) (x : Array K) (b : K) {y : Array K}
    (hy : y.size = A.cols) (hrows : ∀ c < A.cols, ∀ e ∈ A.column c, e.1 < A.cols) :
    (A.symmetricMulAdd a x b y).size = A.cols ∧
      ∀ i < A.cols, (A.symmetricMulAdd a x b y).getD i 0 =
        b * y.getD i 0 + a * A.symmetricTimes (fun r => x.getD r 0) i := by
  have hscale : ∀ i, (scale y b).getD i 0 = b * y.getD i 0 := by
    intro i
    unfold scale
    by_cases hi : i < y.size
    · rw [getD_of_lt y 0 hi, getD_of_lt _ 0 (by simpa using hi), Array.getElem_map, mul_comm]
    · rw [getD_of_size_le y 0 (by omega), getD_of_size_le _ 0 (by simpa using hi), mul_zero]
  have hloop := foldl_range_induction
    (fun k (acc : Array K) => acc.size = A.cols ∧ ∀ i, acc.getD i 0 = b * y.getD i 0 +
      a * (∑ c ∈ range k, entrySum (A.column c) i * x.getD c 0 +
        if i < k then offDiagonal (A.column i) i fun r => x.getD r 0 else 0))
    (fun acc col =>
      (A.column col).foldl (fun acc e => addSymmetricEntry a x col acc e.1 e.2) acc)
    A.cols (scale y b) (by
      refine ⟨by simpa [scale] using hy, ?_⟩
      intro i
      rw [hscale i, sum_range_zero, if_neg (Nat.not_lt_zero i), add_zero, mul_zero, add_zero]) (by
      intro k hk acc hinv
      rcases hinv with ⟨hsize, hvals⟩
      have hinside : ∀ e ∈ A.column k, e.1 < acc.size := by
        intro e he
        rw [hsize]
        exact hrows k hk e he
      have hka : k < acc.size := by omega
      have hcolumn := foldl_addSymmetricEntry a x (A.column k) hinside hka
      refine ⟨hcolumn.left.trans hsize, ?_⟩
      intro i
      rw [hcolumn.right i, hvals i, sum_range_succ]
      by_cases hki : k = i
      · subst hki
        rw [if_pos rfl, if_neg (Nat.lt_irrefl k), if_pos (Nat.lt_succ_self k)]
        ring
      · rw [if_neg hki, add_zero, if_congr (by omega : i < k + 1 ↔ i < k) rfl rfl]
        ring)
  refine ⟨hloop.left, ?_⟩
  intro i hi
  have hval := hloop.right i
  rw [if_pos hi] at hval
  exact hval

/-!
## Columns without repeated rows
-/

theorem entrySum_eq_lastEntry {es : List (Nat × K)} (h : (es.map (·.1)).Nodup) (r : Nat) :
    entrySum es r = lastEntry es r := by
  induction es using List.reverseRecOn with
  | nil => rfl
  | append_singleton es e ih =>
      rw [List.map_append, List.nodup_append] at h
      rw [entrySum_append, lastEntry_concat, entrySum_cons, entrySum_nil, add_zero]
      by_cases her : e.1 = r
      · rw [if_pos her, if_pos her, entrySum_eq_zero, zero_add]
        intro d hd hdr
        exact h.2.2 d.1 (List.mem_map_of_mem hd) e.1 (by simp) (hdr.trans her.symm)
      · rw [if_neg her, if_neg her, add_zero, ih h.left]

theorem offDiagonal_eq_sum {es : List (Nat × K)} {c : Nat} (hrows : ∀ e ∈ es, e.1 ≤ c)
    (x : Nat → K) : offDiagonal es c x = ∑ r ∈ range c, entrySum es r * x r := by
  have hsum := offDiagonal_add_diagonal es c x
  rw [sum_map_eq_sum_entrySum es fun e he => Nat.lt_succ_of_le (hrows e he),
    sum_range_succ] at hsum
  exact add_right_cancel hsum

theorem symmetricTimes_eq_sum {A : Csc K} (hA : A.IsUpper)
    (hnodup : ∀ c < A.cols, ((A.column c).map (·.1)).Nodup) (x : Nat → K) {i : Nat}
    (hi : i < A.cols) :
    A.symmetricTimes x i = ∑ c ∈ range A.cols, A.symmetricEntry i c * x c := by
  have habove : ∀ c ∈ range A.cols, entrySum (A.column c) i * x c =
      if i ≤ c then A.symmetricEntry i c * x c else 0 := by
    intro c hc
    by_cases hic : i ≤ c
    · rw [if_pos hic, entrySum_eq_lastEntry (hnodup c (mem_range.mp hc)),
        A.symmetricEntry_of_le hic]
    · rw [if_neg hic, entrySum_eq_zero, zero_mul]
      intro e he hei
      have hle := hA.row_le c (mem_range.mp hc) e he
      omega
  have hbelow : ∑ r ∈ range i, entrySum (A.column i) r * x r =
      ∑ c ∈ range A.cols, if i ≤ c then 0 else A.symmetricEntry i c * x c := by
    rw [sum_range_of_zero hi.le]
    · apply sum_congr rfl
      intro r hr
      have hri := mem_range.mp hr
      rw [if_neg (by omega), entrySum_eq_lastEntry (hnodup i hi), A.symmetricEntry_comm,
        A.symmetricEntry_of_le hri.le]
    · intro c _ hic
      rw [if_pos hic]
  unfold symmetricTimes
  rw [offDiagonal_eq_sum (hA.row_le i hi), sum_congr rfl habove, hbelow, ← sum_add_distrib]
  apply sum_congr rfl
  intro c _
  by_cases hic : i ≤ c
  · rw [if_pos hic, if_pos hic, add_zero]
  · rw [if_neg hic, if_neg hic, zero_add]

end Csc
end SoftMargin
