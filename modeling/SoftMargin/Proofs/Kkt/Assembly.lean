import SoftMargin.Proofs.Exact.Matrix
import SoftMargin.Proofs.Sparse.Symmetric
import SoftMargin.Kkt.Assembly

/-!
# The equations of a partition

The assembled matrix has the columns that were listed for it. Cleared of its
lower right block it is the matrix assembled without one, and its product with a
vector reads off the equations: one for each variable, with the multipliers of
the points in it, and one for each point and for the sum of the weights.
-/

namespace SoftMargin

open Scalar Finset

/-!
## Matrices from columns
-/

namespace Csc

variable {α : Type}

theorem stored_toArray (es : List (Nat × α)) (first last : Nat) :
    stored (es.map (·.1)).toArray (es.map (·.2)).toArray first last =
      (es.take last).drop first := by
  unfold stored
  rw [Array.toList_zip, Array.toList_extract, Array.toList_extract, List.extract_eq_take_drop,
    List.extract_eq_take_drop, ← List.drop_take, ← List.drop_take, ← List.map_take,
    ← List.map_take, ← List.map_drop, ← List.map_drop]
  exact List.zip_map'.trans (List.map_id _)

theorem getD_colptr_ofColumns {rows : Nat} (L : List (List (Nat × α))) {c : Nat}
    (hc : c ≤ L.length) :
    (ofColumns rows L).colptr.getD c 0 = ((L.map List.length).take c).sum :=
  (Ldl.offsets_toList (L.map List.length)).right c (by rw [List.length_map]; exact hc)

theorem column_ofColumns {rows : Nat} (L : List (List (Nat × α))) {c : Nat} (hc : c < L.length) :
    (ofColumns rows L).column c = L[c] := by
  rw [column_eq_stored, getD_colptr_ofColumns L hc.le, getD_colptr_ofColumns L hc]
  exact (stored_toArray L.flatten _ _).trans (List.drop_take_succ_flatten_eq_getElem L c hc)

theorem flatten_set_last (L : List (List (Nat × α))) {c r : Nat} {front : List (Nat × α)}
    {v : α} (w : α) (hc : L[c]? = some (front ++ [(r, v)])) :
    (L.set c (front ++ [(r, w)])).flatten =
      L.flatten.set (((L.map List.length).take (c + 1)).sum - 1) (r, w) := by
  induction L generalizing c with
  | nil => simp at hc
  | cons l rest ih =>
      cases c with
      | zero =>
          rw [List.getElem?_cons_zero] at hc
          rw [Option.some.inj hc]
          simp
      | succ c =>
          rw [List.getElem?_cons_succ] at hc
          have hsum : 1 ≤ ((rest.map List.length).take (c + 1)).sum := by
            rw [List.take_add_one, List.getElem?_map, hc]
            simp
            omega
          rw [List.set_cons_succ, List.flatten_cons, ih hc, List.flatten_cons, List.map_cons,
            List.take_succ_cons, List.sum_cons, List.set_append_right _ _ (by omega)]
          congr 2
          omega

theorem lengths_set_last (L : List (List (Nat × α))) {c r : Nat} {front : List (Nat × α)} {v : α}
    (w : α) (hc : L[c]? = some (front ++ [(r, v)])) :
    (L.set c (front ++ [(r, w)])).map List.length = L.map List.length := by
  rcases List.getElem?_eq_some_iff.mp hc with ⟨hlt, hget⟩
  have hlt' : c < (L.map List.length).length := by simpa using hlt
  have hlen : (L.map List.length)[c] = (front ++ [(r, w)]).length := by
    rw [List.getElem_map, hget, List.length_append, List.length_append]
    rfl
  rw [List.map_set, ← hlen, List.set_getElem_self]

theorem ofColumns_set_last (rows : Nat) (L : List (List (Nat × α))) {c r : Nat}
    {front : List (Nat × α)} {v : α} (w : α) (hc : L[c]? = some (front ++ [(r, v)])) :
    { ofColumns rows L with
      nzval := (ofColumns rows L).nzval.setIfInBounds
        ((ofColumns rows L).colptr.getD (c + 1) 0 - 1) w } =
      ofColumns rows (L.set c (front ++ [(r, w)])) := by
  rcases List.getElem?_eq_some_iff.mp hc with ⟨hlt, hget⟩
  have hflat := flatten_set_last L w hc
  have hsame := flatten_set_last L v hc
  rw [← hget, List.set_getElem_self] at hsame
  rw [getD_colptr_ofColumns L hlt]
  unfold ofColumns
  dsimp only
  rw [hflat, lengths_set_last L w hc, List.length_set, List.map_set, List.map_set,
    List.setIfInBounds_toArray]
  congr 2
  rw [← List.map_set (f := Prod.fst) (a := (r, v)), ← hsame]

end Csc
/-!
## The lower right block
-/

namespace Kkt

variable {K : Type} [ExactScalar K]

omit [ExactScalar K] in
theorem points_of (H : Matrix K) : (Shape.of H).points = H.cols :=
  rfl

omit [ExactScalar K] in
theorem features_of (H : Matrix K) : (Shape.of H).features = H.rows :=
  rfl

/-- The part of an equation above the lower right block. -/
def equationFront (H : Matrix K) (j : Nat) : List (Nat × K) :=
  let s := Shape.of H
  if j < s.points then
    [(j, 1), (s.surplusIndex j, -1), (s.thresholdIndex, -1)] ++
      (H.col j).toList.mapIdx fun k h => (s.weightIndex k, h)
  else
    (List.range s.features).map fun k => (s.weightIndex k, 1)

/-- The columns of the system when `diagonal` stands in the lower right block. -/
def columnsWith (H : Matrix K) (rho : K) (diagonal : Nat → K) : List (List (Nat × K)) :=
  let s := Shape.of H
  (List.range s.variableCount).map (fun i => [(i, rho)]) ++
    (List.range s.equationCount).map fun j =>
      equationFront H j ++ [(s.equationIndex j, diagonal j)]

theorem columns_eq (H : Matrix K) (rho δ : K) :
    columns H rho δ = columnsWith H rho fun _ => δ := by
  unfold columns columnsWith Shape.equationCount
  dsimp only
  rw [List.range_succ, List.map_append, List.map_singleton, List.append_assoc]
  congr 2
  · apply List.map_congr_left
    intro j hj
    unfold equationFront pointColumn
    dsimp only
    rw [if_pos (List.mem_range.mp hj)]
  · unfold equationFront normalizationColumn
    dsimp only
    rw [if_neg (Nat.lt_irrefl _)]

theorem length_columnsWith (H : Matrix K) (rho : K) (diagonal : Nat → K) :
    (columnsWith H rho diagonal).length = (Shape.of H).dimension := by
  simp [columnsWith, Shape.dimension]

theorem getElem?_columnsWith_equation (H : Matrix K) (rho : K) (diagonal : Nat → K) {j : Nat}
    (hj : j < (Shape.of H).equationCount) :
    (columnsWith H rho diagonal)[(Shape.of H).equationIndex j]? =
      some (equationFront H j ++ [((Shape.of H).equationIndex j, diagonal j)]) := by
  unfold columnsWith Shape.equationIndex
  dsimp only
  rw [List.getElem?_append_right (by simp), List.length_map, List.length_range,
    Nat.add_sub_cancel_left, List.getElem?_map, List.getElem?_range hj]
  rfl

theorem columnsWith_set (H : Matrix K) (rho : K) (diagonal : Nat → K) (v : K) {j : Nat}
    (hj : j < (Shape.of H).equationCount) :
    (columnsWith H rho diagonal).set ((Shape.of H).equationIndex j)
      (equationFront H j ++ [((Shape.of H).equationIndex j, v)]) =
      columnsWith H rho (Function.update diagonal j v) := by
  apply List.ext_getElem?
  intro c
  by_cases hc : (Shape.of H).equationIndex j = c
  · subst hc
    rw [List.getElem?_set_self (by
      rw [length_columnsWith]
      unfold Shape.equationIndex Shape.dimension
      omega), getElem?_columnsWith_equation H rho _ hj, Function.update_self]
  · rw [List.getElem?_set_ne hc]
    unfold columnsWith
    dsimp only
    unfold Shape.equationIndex at hc
    by_cases hvar : c < (Shape.of H).variableCount
    · rw [List.getElem?_append_left (by simpa using hvar),
        List.getElem?_append_left (by simpa using hvar)]
    · rw [List.getElem?_append_right (by simpa using hvar),
        List.getElem?_append_right (by simpa using hvar), List.getElem?_map, List.getElem?_map,
        List.length_map, List.length_range]
      by_cases hlt : c - (Shape.of H).variableCount < (Shape.of H).equationCount
      · rw [List.getElem?_range hlt, Option.map_some, Option.map_some,
          Function.update_of_ne (by omega)]
      · rw [List.getElem?_eq_none (by simpa using hlt)]
        rfl

theorem columnsWith_congr (H : Matrix K) (rho : K) {d d' : Nat → K}
    (h : ∀ j < (Shape.of H).equationCount, d j = d' j) :
    columnsWith H rho d = columnsWith H rho d' := by
  unfold columnsWith
  dsimp only
  congr 1
  apply List.map_congr_left
  intro j hj
  rw [h j (List.mem_range.mp hj)]

theorem clearEquationBlock_assemble (H : Matrix K) (rho δ : K) :
    clearEquationBlock (Shape.of H) (assemble H rho δ) = assemble H rho 0 := by
  have hloop := foldl_range_induction
    (fun k (nzval : Array K) => { assemble H rho δ with nzval } = Csc.ofColumns
      (Shape.of H).dimension (columnsWith H rho fun j => if j < k then 0 else δ))
    (fun nzval j => nzval.setIfInBounds
      ((assemble H rho δ).colptr.getD ((Shape.of H).variableCount + j + 1) 0 - 1) 0)
    (Shape.of H).equationCount (assemble H rho δ).nzval (by
      unfold assemble
      rw [columns_eq]
      rfl) (by
      intro k hk nzval hinv
      have hset := Csc.ofColumns_set_last (Shape.of H).dimension _ (0 : K)
        (getElem?_columnsWith_equation H rho (fun j => if j < k then 0 else δ) hk)
      rw [columnsWith_set H rho _ 0 hk, ← hinv] at hset
      refine Eq.trans hset ?_
      congr 2
      funext j
      by_cases hjk : j = k
      · subst hjk
        rw [Function.update_self, if_pos (Nat.lt_succ_self j)]
      · rw [Function.update_of_ne hjk]
        exact if_congr (by omega) rfl rfl)
  unfold clearEquationBlock
  rw [List.range'_eq_map_range, List.foldl_map]
  refine Eq.trans hloop ?_
  unfold assemble
  rw [columns_eq, columnsWith_congr H rho fun j hj => if_pos hj]

/-!
## Reading off the equations
-/

theorem cols_assemble (H : Matrix K) (rho δ : K) :
    (assemble H rho δ).cols = (Shape.of H).dimension := by
  unfold assemble Csc.ofColumns
  rw [columns_eq, length_columnsWith]

theorem column_variable (H : Matrix K) (rho δ : K) {i : Nat}
    (hi : i < (Shape.of H).variableCount) : (assemble H rho δ).column i = [(i, rho)] := by
  unfold assemble
  rw [columns_eq, Csc.column_ofColumns _ (by
    rw [length_columnsWith]
    unfold Shape.dimension
    omega)]
  unfold columnsWith
  dsimp only
  rw [List.getElem_append_left (by simpa using hi), List.getElem_map, List.getElem_range]

theorem column_equation (H : Matrix K) (rho δ : K) {j : Nat}
    (hj : j < (Shape.of H).equationCount) :
    (assemble H rho δ).column ((Shape.of H).equationIndex j) =
      equationFront H j ++ [((Shape.of H).equationIndex j, δ)] := by
  have hget := getElem?_columnsWith_equation H rho (fun _ => δ) hj
  rcases List.getElem?_eq_some_iff.mp hget with ⟨hlt, hcolumn⟩
  unfold assemble
  rw [columns_eq, Csc.column_ofColumns _ hlt, hcolumn]

theorem entrySum_mapIdx (l : List K) (offset i : Nat) :
    entrySum (l.mapIdx fun k h => (offset + k, h)) i =
      if offset ≤ i then l.getD (i - offset) 0 else 0 := by
  induction l generalizing offset with
  | nil => simp
  | cons h rest ih =>
      have hshift : (fun k (h : K) => (offset + (k + 1), h)) = fun k h => (offset + 1 + k, h) := by
        funext k h
        rw [Nat.add_assoc, Nat.add_comm 1 k]
      rw [List.mapIdx_cons, entrySum_cons, Nat.add_zero, hshift, ih]
      rcases Nat.lt_trichotomy offset i with hlt | heq | hgt
      · have hsub : i - offset = i - (offset + 1) + 1 := by omega
        rw [if_neg hlt.ne, if_pos (by omega), if_pos hlt.le, zero_add, hsub, List.getD_cons_succ]
      · rw [if_pos heq, if_neg (by omega), if_pos heq.le, heq, Nat.sub_self, List.getD_cons_zero,
          add_zero]
      · rw [if_neg hgt.ne', if_neg (by omega), if_neg (by omega), add_zero]

theorem entrySum_range_map (n offset i : Nat) :
    entrySum ((List.range n).map fun k => (offset + k, (1 : K))) i =
      if offset ≤ i ∧ i < offset + n then 1 else 0 := by
  induction n with
  | zero => simp
  | succ n ih =>
      rw [List.range_succ, List.map_append, List.map_singleton, entrySum_append, ih, entrySum_cons,
        entrySum_nil, add_zero]
      by_cases hlast : offset + n = i
      · rw [if_neg (by omega), if_pos hlast, if_pos (by omega), zero_add]
      · rw [if_neg hlast, add_zero]
        exact if_congr (by omega) rfl rfl

def equationEntry (H : Matrix K) (j i : Nat) : K :=
  entrySum (equationFront H j) i

omit [ExactScalar K] in
theorem size_col_le (H : Matrix K) (j : Nat) : (H.col j).size ≤ H.rows := by
  unfold Matrix.col
  rw [Array.size_extract, Nat.succ_mul]
  omega

theorem row_lt_of_mem_equationFront (H : Matrix K) {j : Nat} {e : Nat × K}
    (he : e ∈ equationFront H j) : e.1 < (Shape.of H).variableCount := by
  have hfeatures : (Shape.of H).features = H.rows := rfl
  unfold equationFront at he
  dsimp only at he
  unfold Shape.variableCount
  by_cases hpoint : j < (Shape.of H).points
  · rw [if_pos hpoint] at he
    rcases List.mem_append.mp he with hhead | hweights
    · unfold Shape.surplusIndex Shape.thresholdIndex at hhead
      simp only [List.mem_cons, List.not_mem_nil, or_false] at hhead
      rcases hhead with rfl | rfl | rfl
      · dsimp only
        omega
      · dsimp only
        omega
      · dsimp only
        omega
    · rcases List.mem_mapIdx.mp hweights with ⟨k, hk, rfl⟩
      have hle := size_col_le H j
      rw [Array.length_toList] at hk
      unfold Shape.weightIndex
      dsimp only
      omega
  · rw [if_neg hpoint] at he
    rcases List.mem_map.mp he with ⟨k, hk, rfl⟩
    have hkn := List.mem_range.mp hk
    unfold Shape.weightIndex
    dsimp only
    omega

theorem equationEntry_of_le (H : Matrix K) (j : Nat) {i : Nat}
    (hi : (Shape.of H).variableCount ≤ i) : equationEntry H j i = 0 := by
  apply entrySum_eq_zero
  intro e he hei
  have hlt := row_lt_of_mem_equationFront H he
  omega

theorem entrySum_column_equation (H : Matrix K) (rho : K) {j : Nat}
    (hj : j < (Shape.of H).equationCount) (i : Nat) :
    entrySum ((assemble H rho 0).column ((Shape.of H).equationIndex j)) i =
      equationEntry H j i := by
  rw [column_equation H rho 0 hj, entrySum_append, entrySum_cons, entrySum_nil, ite_self, add_zero,
    add_zero]
  rfl

theorem row_lt_of_mem_column (H : Matrix K) (rho δ : K) {c : Nat}
    (hc : c < (Shape.of H).dimension) {e : Nat × K} (he : e ∈ (assemble H rho δ).column c) :
    e.1 ≤ c := by
  by_cases hvar : c < (Shape.of H).variableCount
  · rw [column_variable H rho δ hvar] at he
    rw [List.mem_singleton.mp he]
  · have hsplit : c = (Shape.of H).equationIndex (c - (Shape.of H).variableCount) := by
      unfold Shape.equationIndex
      omega
    have hj : c - (Shape.of H).variableCount < (Shape.of H).equationCount := by
      unfold Shape.dimension at hc
      omega
    rw [hsplit, column_equation H rho δ hj] at he
    rcases List.mem_append.mp he with hfront | hlast
    · have hlt := row_lt_of_mem_equationFront H hfront
      omega
    · rw [List.mem_singleton.mp hlast]
      exact hsplit.symm.le

theorem symmetricMulAdd_assemble (H : Matrix K) (rho δ a : K) (x : Array K) (b : K) {y : Array K}
    (hy : y.size = (Shape.of H).dimension) :
    ((assemble H rho δ).symmetricMulAdd a x b y).size = (Shape.of H).dimension ∧
      ∀ i < (Shape.of H).dimension, ((assemble H rho δ).symmetricMulAdd a x b y).getD i 0 =
        b * y.getD i 0 + a * (assemble H rho δ).symmetricTimes (fun r => x.getD r 0) i := by
  rw [← cols_assemble H rho δ] at hy ⊢
  apply Csc.symmetricMulAdd_spec a x b hy
  intro c hc e he
  exact (row_lt_of_mem_column H rho δ (hc.trans_eq (cols_assemble H rho δ)) he).trans_lt hc

theorem symmetricTimes_variable (H : Matrix K) (rho : K) (w : Nat → K) {i : Nat}
    (hi : i < (Shape.of H).variableCount) :
    (assemble H rho 0).symmetricTimes w i = rho * w i +
      ∑ j ∈ range (Shape.of H).equationCount,
        equationEntry H j i * w ((Shape.of H).equationIndex j) := by
  have hdiag : ∑ c ∈ range (Shape.of H).variableCount,
      entrySum ((assemble H rho 0).column c) i * w c = rho * w i := by
    have hterm : ∀ c ∈ range (Shape.of H).variableCount,
        entrySum ((assemble H rho 0).column c) i * w c = if i = c then rho * w c else 0 := by
      intro c hc
      rw [column_variable H rho 0 (mem_range.mp hc), entrySum_cons, entrySum_nil, add_zero, ite_mul,
        zero_mul]
      exact if_congr eq_comm rfl rfl
    rw [sum_congr rfl hterm, sum_ite_eq, if_pos (mem_range.mpr hi)]
  have hrest : ∑ j ∈ range (Shape.of H).equationCount,
      entrySum ((assemble H rho 0).column ((Shape.of H).variableCount + j)) i *
        w ((Shape.of H).variableCount + j) = ∑ j ∈ range (Shape.of H).equationCount,
          equationEntry H j i * w ((Shape.of H).equationIndex j) := by
    apply sum_congr rfl
    intro j hj
    rw [← entrySum_column_equation H rho (mem_range.mp hj) i]
    rfl
  have hself : Csc.offDiagonal ((assemble H rho 0).column i) i w = 0 := by
    rw [column_variable H rho 0 hi]
    simp [Csc.offDiagonal]
  unfold Csc.symmetricTimes
  rw [cols_assemble, hself, add_zero]
  unfold Shape.dimension
  rw [sum_range_add, hdiag, hrest]

theorem symmetricTimes_equation (H : Matrix K) (rho : K) (w : Nat → K) {j : Nat}
    (hj : j < (Shape.of H).equationCount) :
    (assemble H rho 0).symmetricTimes w ((Shape.of H).equationIndex j) =
      ∑ i ∈ range (Shape.of H).variableCount, equationEntry H j i * w i := by
  have habove : ∑ c ∈ range (Shape.of H).dimension,
      entrySum ((assemble H rho 0).column c) ((Shape.of H).equationIndex j) * w c = 0 := by
    apply sum_eq_zero
    intro c hc
    have hdim := mem_range.mp hc
    unfold Shape.dimension at hdim
    by_cases hvar : c < (Shape.of H).variableCount
    · rw [column_variable H rho 0 hvar, entrySum_cons, entrySum_nil, add_zero, if_neg, zero_mul]
      unfold Shape.equationIndex
      omega
    · have hsplit : c = (Shape.of H).equationIndex (c - (Shape.of H).variableCount) := by
        unfold Shape.equationIndex
        omega
      rw [hsplit, entrySum_column_equation H rho (by omega),
        equationEntry_of_le H _ (show _ ≤ (Shape.of H).equationIndex j from Nat.le_add_right _ _),
        zero_mul]
  have hdim : (Shape.of H).equationIndex j < (Shape.of H).dimension := by
    unfold Shape.equationIndex Shape.dimension
    omega
  unfold Csc.symmetricTimes
  rw [cols_assemble, habove, zero_add,
    Csc.offDiagonal_eq_sum fun e he => row_lt_of_mem_column H rho 0 hdim he]
  rw [sum_range_of_zero (n := (Shape.of H).equationIndex j) (Nat.le_add_right _ _)]
  · apply sum_congr rfl
    intro i _
    rw [entrySum_column_equation H rho hj]
  · intro i _ hi
    rw [entrySum_column_equation H rho hj, equationEntry_of_le H j hi, zero_mul]

/-!
## The entries of the equations
-/

section Entries

variable (H : Matrix K) {j k : Nat}

theorem equationEntry_point (hj : j < H.cols) (i : Nat) : equationEntry H j i =
    (if j = i then 1 else 0) + (if H.cols + j = i then -1 else 0) +
      (if 2 * H.cols = i then -1 else 0) +
      if 2 * H.cols + 1 ≤ i then (H.col j).toList.getD (i - (2 * H.cols + 1)) 0 else 0 := by
  have hpoint : j < (Shape.of H).points := hj
  unfold equationEntry equationFront
  dsimp only
  rw [if_pos hpoint, entrySum_append, entrySum_cons, entrySum_cons, entrySum_cons, entrySum_nil,
    add_zero]
  unfold Shape.weightIndex Shape.surplusIndex Shape.thresholdIndex
  rw [entrySum_mapIdx, ← add_assoc]
  rfl

theorem equationEntry_slack (hj : j < H.cols) (hk : k < H.cols) :
    equationEntry H j k = if j = k then 1 else 0 := by
  rw [equationEntry_point H hj, if_neg (by omega : ¬ H.cols + j = k),
    if_neg (by omega : ¬ 2 * H.cols = k), if_neg (by omega : ¬ 2 * H.cols + 1 ≤ k), add_zero,
    add_zero, add_zero]

theorem equationEntry_surplus (hj : j < H.cols) (hk : k < H.cols) :
    equationEntry H j (H.cols + k) = if j = k then -1 else 0 := by
  rw [equationEntry_point H hj, if_neg (by omega : ¬ j = H.cols + k),
    if_neg (by omega : ¬ 2 * H.cols = H.cols + k),
    if_neg (by omega : ¬ 2 * H.cols + 1 ≤ H.cols + k), add_zero, add_zero, zero_add]
  exact if_congr (by omega) rfl rfl

theorem equationEntry_threshold (hj : j < H.cols) : equationEntry H j (2 * H.cols) = -1 := by
  rw [equationEntry_point H hj, if_neg (by omega : ¬ j = 2 * H.cols),
    if_neg (by omega : ¬ H.cols + j = 2 * H.cols), if_pos rfl, if_neg (by omega), zero_add,
    zero_add, add_zero]

theorem equationEntry_weight (hj : j < H.cols) (hk : k < H.rows) :
    equationEntry H j (2 * H.cols + 1 + k) = H.entry k j := by
  rw [equationEntry_point H hj, if_neg (by omega : ¬ j = 2 * H.cols + 1 + k),
    if_neg (by omega : ¬ H.cols + j = 2 * H.cols + 1 + k),
    if_neg (by omega : ¬ 2 * H.cols = 2 * H.cols + 1 + k), if_pos (Nat.le_add_right _ _), zero_add,
    zero_add, zero_add, Nat.add_sub_cancel_left, ← Matrix.getD_col H j hk,
    Array.getD_eq_getD_getElem?, List.getD_eq_getElem?_getD, Array.getElem?_toList]

theorem equationEntry_normalization (i : Nat) : equationEntry H H.cols i =
    if 2 * H.cols + 1 ≤ i ∧ i < 2 * H.cols + 1 + H.rows then 1 else 0 := by
  have hpoints : (Shape.of H).points = H.cols := rfl
  unfold equationEntry equationFront
  dsimp only
  rw [if_neg (by omega)]
  unfold Shape.weightIndex
  exact entrySum_range_map H.rows (2 * H.cols + 1) i

end Entries

theorem Shape.variable_cases {s : Shape} {i : Nat} (hi : i < s.variableCount) :
    i < s.points ∨ (∃ j < s.points, i = s.points + j) ∨ i = 2 * s.points ∨
      ∃ k < s.features, i = 2 * s.points + 1 + k := by
  unfold variableCount at hi
  rcases Nat.lt_or_ge i s.points with hslack | hge
  · exact Or.inl hslack
  rcases Nat.lt_or_ge i (2 * s.points) with hsurplus | hge'
  · exact Or.inr (Or.inl ⟨i - s.points, by omega, by omega⟩)
  rcases Nat.eq_or_lt_of_le hge' with heq | hlt
  · exact Or.inr (Or.inr (Or.inl heq.symm))
  · exact Or.inr (Or.inr (Or.inr ⟨i - (2 * s.points + 1), by omega, by omega⟩))

theorem sum_variables (s : Shape) (g : Nat → K) : ∑ i ∈ range s.variableCount, g i =
    ∑ j ∈ range s.points, g j + ∑ j ∈ range s.points, g (s.points + j) + g (2 * s.points) +
      ∑ k ∈ range s.features, g (2 * s.points + 1 + k) := by
  have hcount : s.variableCount = s.points + s.points + 1 + s.features := by
    unfold Shape.variableCount
    omega
  rw [hcount, sum_range_add, sum_range_succ, sum_range_add, Nat.two_mul]

section Rows

variable (H : Matrix K) (y : Nat → K)

theorem sum_equations_slack {i : Nat} (hi : i < H.cols) :
    ∑ j ∈ range (H.cols + 1), equationEntry H j i * y j = y i := by
  have hterm : ∀ j ∈ range H.cols, equationEntry H j i * y j = if i = j then y j else 0 := by
    intro j hj
    rw [equationEntry_slack H (mem_range.mp hj) hi, ite_mul, one_mul, zero_mul]
    exact if_congr eq_comm rfl rfl
  rw [sum_range_succ, sum_congr rfl hterm, sum_ite_eq, if_pos (mem_range.mpr hi),
    equationEntry_normalization, if_neg (by omega), zero_mul, add_zero]

theorem sum_equations_surplus {i : Nat} (hi : i < H.cols) :
    ∑ j ∈ range (H.cols + 1), equationEntry H j (H.cols + i) * y j = -y i := by
  have hterm : ∀ j ∈ range H.cols,
      equationEntry H j (H.cols + i) * y j = if i = j then -y j else 0 := by
    intro j hj
    rw [equationEntry_surplus H (mem_range.mp hj) hi, ite_mul, neg_one_mul, zero_mul]
    exact if_congr eq_comm rfl rfl
  rw [sum_range_succ, sum_congr rfl hterm, sum_ite_eq, if_pos (mem_range.mpr hi),
    equationEntry_normalization, if_neg (by omega), zero_mul, add_zero]

theorem sum_equations_threshold :
    ∑ j ∈ range (H.cols + 1), equationEntry H j (2 * H.cols) * y j =
      -∑ j ∈ range H.cols, y j := by
  have hterm : ∀ j ∈ range H.cols, equationEntry H j (2 * H.cols) * y j = -y j := by
    intro j hj
    rw [equationEntry_threshold H (mem_range.mp hj), neg_one_mul]
  rw [sum_range_succ, sum_congr rfl hterm, sum_neg_distrib, equationEntry_normalization,
    if_neg (by omega), zero_mul, add_zero]

theorem sum_equations_weight {k : Nat} (hk : k < H.rows) :
    ∑ j ∈ range (H.cols + 1), equationEntry H j (2 * H.cols + 1 + k) * y j =
      ∑ j ∈ range H.cols, H.entry k j * y j + y H.cols := by
  have hterm : ∀ j ∈ range H.cols,
      equationEntry H j (2 * H.cols + 1 + k) * y j = H.entry k j * y j := by
    intro j hj
    rw [equationEntry_weight H (mem_range.mp hj) hk]
  rw [sum_range_succ, sum_congr rfl hterm, equationEntry_normalization, if_pos (by omega), one_mul]

theorem sum_variables_point {j : Nat} (hj : j < H.cols) :
    ∑ i ∈ range (Shape.of H).variableCount, equationEntry H j i * y i =
      y j - y (H.cols + j) - y (2 * H.cols) +
        ∑ k ∈ range H.rows, H.entry k j * y (2 * H.cols + 1 + k) := by
  have hslack : ∀ i ∈ range H.cols, equationEntry H j i * y i = if j = i then y i else 0 := by
    intro i hi
    rw [equationEntry_slack H hj (mem_range.mp hi), ite_mul, one_mul, zero_mul]
  have hsurplus : ∀ i ∈ range H.cols,
      equationEntry H j (H.cols + i) * y (H.cols + i) =
        if j = i then -y (H.cols + i) else 0 := by
    intro i hi
    rw [equationEntry_surplus H hj (mem_range.mp hi), ite_mul, neg_one_mul, zero_mul]
  have hweight : ∀ k ∈ range H.rows,
      equationEntry H j (2 * H.cols + 1 + k) * y (2 * H.cols + 1 + k) =
        H.entry k j * y (2 * H.cols + 1 + k) := by
    intro k hk
    rw [equationEntry_weight H hj (mem_range.mp hk)]
  rw [sum_variables, points_of, features_of, sum_congr rfl hslack, sum_congr rfl hsurplus,
    sum_congr rfl hweight, sum_ite_eq, sum_ite_eq, if_pos (mem_range.mpr hj),
    if_pos (mem_range.mpr hj), equationEntry_threshold H hj]
  ring

theorem sum_variables_normalization :
    ∑ i ∈ range (Shape.of H).variableCount, equationEntry H H.cols i * y i =
      ∑ k ∈ range H.rows, y (2 * H.cols + 1 + k) := by
  have hbefore : ∀ i, i < 2 * H.cols + 1 → equationEntry H H.cols i * y i = 0 := by
    intro i hi
    rw [equationEntry_normalization, if_neg (by omega), zero_mul]
  have hweight : ∀ k ∈ range H.rows,
      equationEntry H H.cols (2 * H.cols + 1 + k) * y (2 * H.cols + 1 + k) =
        y (2 * H.cols + 1 + k) := by
    intro k hk
    have hkn := mem_range.mp hk
    rw [equationEntry_normalization, if_pos (by omega), one_mul]
  have hslack : ∀ i ∈ range H.cols, equationEntry H H.cols i * y i = 0 := by
    intro i hi
    have hin := mem_range.mp hi
    exact hbefore i (by omega)
  have hsurplus : ∀ i ∈ range H.cols,
      equationEntry H H.cols (H.cols + i) * y (H.cols + i) = 0 := by
    intro i hi
    have hin := mem_range.mp hi
    exact hbefore _ (by omega)
  rw [sum_variables, points_of, features_of, sum_congr rfl hslack, sum_congr rfl hsurplus,
    sum_congr rfl hweight, hbefore _ (by omega), sum_const_zero, zero_add, zero_add, zero_add]

end Rows

/-!
## Vectors of variables
-/

namespace Shape

def arrange (s : Shape) (slack surplus : Nat → K) (threshold : K) (weight : Nat → K) : Array K :=
  (Array.range s.points).map slack ++ (Array.range s.points).map surplus ++ #[threshold] ++
    (Array.range s.features).map weight

variable (s : Shape) (slack surplus : Nat → K) (threshold : K) (weight : Nat → K)

omit [ExactScalar K] in
theorem size_arrange : (s.arrange slack surplus threshold weight).size = s.variableCount := by
  simp [arrange, variableCount]
  omega

theorem getD_map_range (f : Nat → K) {n j : Nat} (hj : j < n) :
    ((Array.range n).map f).getD j 0 = f j := by
  rw [getD_map _ _ 0 _ (by simpa using hj), getD_of_lt _ _ (by simpa using hj),
    Array.getElem_range]

theorem getD_arrange_slack {j : Nat} (hj : j < s.points) :
    (s.arrange slack surplus threshold weight).getD j 0 = slack j := by
  unfold arrange
  rw [getD_append_left _ _ _ (by simp; omega), getD_append_left _ _ _ (by simp; omega),
    getD_append_left _ _ _ (by simpa using hj), getD_map_range slack hj]

theorem getD_arrange_surplus {j : Nat} (hj : j < s.points) :
    (s.arrange slack surplus threshold weight).getD (s.points + j) 0 = surplus j := by
  unfold arrange
  rw [getD_append_left _ _ _ (by simp; omega), getD_append_left _ _ _ (by simp; omega),
    getD_append_right _ _ _ (by simp), Array.size_map, Array.size_range, Nat.add_sub_cancel_left,
    getD_map_range surplus hj]

theorem getD_arrange_threshold :
    (s.arrange slack surplus threshold weight).getD (2 * s.points) 0 = threshold := by
  unfold arrange
  rw [getD_append_left _ _ _ (by simp; omega), getD_append_right _ _ _ (by simp; omega)]
  have hzero : 2 * s.points -
      ((Array.range s.points).map slack ++ (Array.range s.points).map surplus).size = 0 := by
    simp
    omega
  rw [hzero]
  rfl

theorem getD_arrange_weight {k : Nat} (hk : k < s.features) :
    (s.arrange slack surplus threshold weight).getD (2 * s.points + 1 + k) 0 = weight k := by
  have hsize : ((Array.range s.points).map slack ++ (Array.range s.points).map surplus ++
      #[threshold]).size = 2 * s.points + 1 := by
    simp
    omega
  unfold arrange
  rw [getD_append_right _ _ _ (by omega), hsize, Nat.add_sub_cancel_left, getD_map_range weight hk]

end Shape

end Kkt
end SoftMargin
