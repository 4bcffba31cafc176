import SoftMargin.Proofs.Exact.Matrix
import SoftMargin.Proofs.Ldl.Factor

/-!
# Solving with a factor

The substitutions solve with the unit lower triangular factor and with its
transpose. What the workspace held before is written over, so that a solve does
not depend on the ones before. An exact factor gives the solution of the system
with the matrix, which is one and the same for every order of elimination.
-/

namespace SoftMargin

open Scalar Finset

variable {K : Type} [ExactScalar K]

namespace Ldl

/-!
## Substitutions
-/

theorem foldl_modify_sub (es : List (Nat × K)) (y : K) (x : Array K)
    (h : ∀ e ∈ es, e.1 < x.size) :
    (es.foldl (fun x e => x.modify e.1 fun v => v - e.2 * y) x).size = x.size ∧
      ∀ r, (es.foldl (fun x e => x.modify e.1 fun v => v - e.2 * y) x).getD r 0 =
        x.getD r 0 - entrySum es r * y := by
  induction es generalizing x with
  | nil => simp
  | cons e rest ih =>
      have hrest := ih (x.modify e.1 fun v => v - e.2 * y) (by
        intro d hd
        rw [Array.size_modify]
        exact h d (List.mem_cons_of_mem e hd))
      refine ⟨by rw [List.foldl_cons, hrest.left, Array.size_modify], ?_⟩
      intro r
      rw [List.foldl_cons, hrest.right r, getD_modify, entrySum_cons]
      by_cases her : e.1 = r
      · rw [if_pos ⟨her, h e List.mem_cons_self⟩, if_pos her]
        ring
      · rw [if_neg fun hand => her hand.left, if_neg her, zero_add]

theorem lowerSolve_spec {L : Csc K} {b : Array K} (hL : L.IsStrictlyLower b.size) :
    (lowerSolve L b).size = b.size ∧ ∀ r, (lowerSolve L b).getD r 0 =
      b.getD r 0 - ∑ m ∈ range b.size, entrySum (L.column m) r * (lowerSolve L b).getD m 0 := by
  have hloop := foldl_range_induction
    (fun i (x : Array K) => x.size = b.size ∧ ∀ r, x.getD r 0 =
      b.getD r 0 - ∑ m ∈ range i, entrySum (L.column m) r * x.getD m 0)
    (fun x i =>
      let xi := x.getD i 0
      (L.column i).foldl (fun x e => x.modify e.1 fun v => v - e.2 * xi) x)
    b.size b (by simp) (by
      intro i hi x hinv
      rcases hinv with ⟨hsize, hvals⟩
      have hcolumn := foldl_modify_sub (L.column i) (x.getD i 0) x (by
        intro e he
        rw [hsize]
        exact (hL i hi e he).right)
      dsimp only
      generalize (L.column i).foldl _ x = y at hcolumn ⊢
      rcases hcolumn with ⟨hsize', hvals'⟩
      -- column `i` does not change what stands at or above its diagonal
      have hkeep : ∀ m ≤ i, y.getD m 0 = x.getD m 0 := by
        intro m hm
        rw [hvals' m, hL.entrySum_eq_zero hi hm, zero_mul, sub_zero]
      refine ⟨hsize'.trans hsize, ?_⟩
      intro r
      have hsum : ∑ m ∈ range i, entrySum (L.column m) r * y.getD m 0 =
          ∑ m ∈ range i, entrySum (L.column m) r * x.getD m 0 := by
        apply sum_congr rfl
        intro m hm
        rw [hkeep m (mem_range.mp hm).le]
      rw [sum_range_succ, hsum, hkeep i (le_refl i), hvals' r, hvals r]
      ring)
  exact hloop

theorem upperSolve_spec {L : Csc K} {b : Array K} (hL : L.IsStrictlyLower b.size) :
    (upperSolve L b).size = b.size ∧ ∀ c < b.size, (upperSolve L b).getD c 0 =
      b.getD c 0 - ∑ r ∈ range b.size, entrySum (L.column c) r * (upperSolve L b).getD r 0 := by
  have hloop := foldr_range_induction
    (fun i (x : Array K) => x.size = b.size ∧ ∀ c < b.size, x.getD c 0 =
      b.getD c 0 - if i ≤ c then ∑ r ∈ range b.size, entrySum (L.column c) r * x.getD r 0 else 0)
    (fun i x =>
      let s := (L.column i).foldl (fun acc e => acc + e.2 * x.getD e.1 0) 0
      x.modify i fun v => v - s)
    b.size b (by
      refine ⟨rfl, ?_⟩
      intro c hc
      rw [if_neg (by omega), sub_zero]) (by
      intro i hi x hinv
      rcases hinv with ⟨hsize, hvals⟩
      have hdot : (L.column i).foldl (fun acc e => acc + e.2 * x.getD e.1 0) 0 =
          ∑ r ∈ range b.size, entrySum (L.column i) r * x.getD r 0 := by
        rw [← sum_map_eq_sum_entrySum _ (fun e he => (hL i hi e he).right) fun r => x.getD r 0,
          ← zero_add (List.sum _), ← foldl_add_eq, List.foldl_map]
      dsimp only
      rw [hdot]
      refine ⟨by rw [Array.size_modify, hsize], ?_⟩
      intro c hc
      -- the columns from `i` on do not look at row `i`
      have hkeep : i ≤ c → ∑ r ∈ range b.size, entrySum (L.column c) r *
          (x.modify i fun v => v - ∑ r ∈ range b.size, entrySum (L.column i) r *
            x.getD r 0).getD r 0 = ∑ r ∈ range b.size, entrySum (L.column c) r * x.getD r 0 := by
        intro hic
        apply sum_congr rfl
        intro r _
        by_cases hir : i = r
        · rw [hL.entrySum_eq_zero hc (hir ▸ hic), zero_mul, zero_mul]
        · rw [getD_modify, if_neg fun hand => hir hand.left]
      rw [getD_modify]
      by_cases hic : i = c
      · subst hic
        rw [if_pos ⟨rfl, by omega⟩, if_pos (le_refl i), hkeep (le_refl i), hvals i hc,
          if_neg (by omega), sub_zero]
      · rw [if_neg fun hand => hic hand.left, hvals c hc]
        by_cases hlt : i ≤ c
        · rw [if_pos hlt, if_pos (by omega), hkeep hlt]
        · rw [if_neg hlt, if_neg (by omega)])
  refine ⟨hloop.left, ?_⟩
  intro c hc
  have hval := hloop.right c hc
  rwa [if_pos (Nat.zero_le c)] at hval

/-!
## Orders
-/

theorem IsOrder.sum_eq {order : Array Nat} {n : Nat} (h : IsOrder order n) (g : Nat → K) :
    ∑ i ∈ range n, g i = ∑ k ∈ range n, g (order.getD k 0) := by
  refine (sum_nbij (fun k => order.getD k 0) ?_ ?_ ?_ fun k _ => rfl).symm
  · intro k hk
    exact mem_range.mpr (h.lt (mem_range.mp hk))
  · intro j hj k hk heq
    exact h.inj (mem_range.mp hj) (mem_range.mp hk) heq
  · intro i hi
    rcases h.surj (mem_range.mp hi) with ⟨k, hk, heq⟩
    exact ⟨k, mem_range.mpr hk, heq⟩

end Ldl

namespace LdlFactor

variable {F : LdlFactor K} {n : Nat}

theorem getD_toOrder (b : Array K) {k : Nat} (hk : k < F.order.size) :
    (F.toOrder b).getD k 0 = b.getD (F.order.getD k 0) 0 := by
  unfold toOrder
  rw [getD_of_lt _ 0 (by simpa using hk), Array.getElem_map, getD_of_lt F.order 0 hk]

theorem size_toOrder (F : LdlFactor K) (b : Array K) : (F.toOrder b).size = F.order.size :=
  Array.size_map

theorem fromOrder_spec (horder : Ldl.IsOrder F.order n) {x b : Array K} (hx : x.size = n)
    (hb : b.size = n) : (F.fromOrder x b).size = n ∧
      ∀ k < n, (F.fromOrder x b).getD (F.order.getD k 0) 0 = x.getD k 0 := by
  have hloop := foldl_range_induction
    (fun i (y : Array K) => y.size = n ∧ ∀ k < i, y.getD (F.order.getD k 0) 0 = x.getD k 0)
    (fun y k => y.setIfInBounds (F.order.getD k 0) (x.getD k 0)) n b
    ⟨hb, fun k hk => absurd hk (Nat.not_lt_zero k)⟩ (by
      intro i hi y hinv
      rcases hinv with ⟨hsize, hvals⟩
      refine ⟨by rw [Array.size_setIfInBounds, hsize], ?_⟩
      intro k hk
      by_cases hki : k = i
      · subst hki
        exact Ldl.getD_setIfInBounds_self _ _ _ (by rw [hsize]; exact horder.lt hi)
      · rw [Ldl.getD_setIfInBounds_ne _ _ _ fun heq =>
          hki (horder.inj hi (by omega) heq).symm]
        exact hvals k (by omega))
  have hzip : (F.order.zip x).toList = (List.range n).map fun k =>
      (F.order.getD k 0, x.getD k 0) := by
    have hsize := horder.size_eq
    apply List.ext_getElem
    · simp [hx, hsize]
    · intro k hk hk'
      have hkn : k < n := by simpa using hk'
      rw [List.getElem_map, List.getElem_range, getD_of_lt _ 0 (by omega),
        getD_of_lt _ 0 (by omega), Array.getElem_toList, Array.getElem_zip]
  unfold fromOrder
  rw [← Array.foldl_toList, hzip, List.foldl_map]
  exact hloop

/-!
## The system that is solved
-/

theorem orderedEntry_eq_sum (hlower : F.lower.IsStrictlyLower n) {r c : Nat} (hr : r < n)
    (hc : c < n) : F.orderedEntry r c =
      ∑ m ∈ range n, F.lowerEntry r m * F.pivots.getD m 0 * F.lowerEntry c m := by
  have hfold : F.orderedEntry r c =
      ∑ m ∈ range (min r c + 1), F.lowerEntry r m * F.pivots.getD m 0 * F.lowerEntry c m := by
    apply foldl_range_induction
      (fun i acc => acc = ∑ m ∈ range i, F.lowerEntry r m * F.pivots.getD m 0 * F.lowerEntry c m)
    · rw [sum_range_zero]
    · intro k _ acc hacc
      rw [hacc, sum_range_succ]
  rw [hfold, ← sum_range_of_zero (n := n) (by omega)]
  intro m hm hmin
  rcases le_total r c with hrc | hcr
  · rw [lowerEntry_of_lt hlower (by omega : r < m) hm, zero_mul, zero_mul]
  · rw [lowerEntry_of_lt hlower (by omega : c < m) hm, mul_zero]

theorem entry_product (horder : Ldl.IsOrder F.order n) (hlower : F.lower.IsStrictlyLower n)
    {r c : Nat} (hr : r < n) (hc : c < n) :
    F.product.entry (F.order.getD r 0) (F.order.getD c 0) =
      ∑ m ∈ range n, F.lowerEntry r m * F.pivots.getD m 0 * F.lowerEntry c m := by
  unfold product
  rw [horder.size_eq, Matrix.entry_ofFn _ _ _ (horder.lt hr) (horder.lt hc),
    Ldl.inverseOrder_order horder hr, Ldl.inverseOrder_order horder hc,
    orderedEntry_eq_sum hlower hr hc]

theorem lowerEntry_eq_add (hlower : F.lower.IsStrictlyLower n) (r : Nat) {c : Nat} (hc : c < n) :
    F.lowerEntry r c = (if r = c then 1 else 0) + entrySum (F.lower.column c) r := by
  by_cases hrc : r = c
  · rw [hrc, F.lowerEntry_self, if_pos rfl, hlower.entrySum_eq_zero hc (le_refl c), add_zero]
  · rw [F.lowerEntry_of_ne hrc, if_neg hrc, zero_add]

theorem sum_lowerSolve (hlower : F.lower.IsStrictlyLower n) {b : Array K} (hb : b.size = n)
    {r : Nat} (hr : r < n) :
    ∑ m ∈ range n, F.lowerEntry r m * (Ldl.lowerSolve F.lower b).getD m 0 = b.getD r 0 := by
  subst hb
  have hterm : ∀ m ∈ range b.size, F.lowerEntry r m * (Ldl.lowerSolve F.lower b).getD m 0 =
      (if r = m then (Ldl.lowerSolve F.lower b).getD m 0 else 0) +
        entrySum (F.lower.column m) r * (Ldl.lowerSolve F.lower b).getD m 0 := by
    intro m hm
    rw [lowerEntry_eq_add hlower r (mem_range.mp hm), add_mul, ite_mul, one_mul, zero_mul]
  rw [sum_congr rfl hterm, sum_add_distrib, sum_ite_eq, if_pos (mem_range.mpr hr),
    (Ldl.lowerSolve_spec hlower).right r, sub_add_cancel]

theorem sum_upperSolve (hlower : F.lower.IsStrictlyLower n) {b : Array K} (hb : b.size = n)
    {c : Nat} (hc : c < n) :
    ∑ r ∈ range n, F.lowerEntry r c * (Ldl.upperSolve F.lower b).getD r 0 = b.getD c 0 := by
  subst hb
  have hterm : ∀ r ∈ range b.size, F.lowerEntry r c * (Ldl.upperSolve F.lower b).getD r 0 =
      (if c = r then (Ldl.upperSolve F.lower b).getD r 0 else 0) +
        entrySum (F.lower.column c) r * (Ldl.upperSolve F.lower b).getD r 0 := by
    intro r _
    rw [lowerEntry_eq_add hlower r hc, add_mul, ite_mul, one_mul, zero_mul,
      if_congr (eq_comm (a := r) (b := c)) rfl rfl]
  rw [sum_congr rfl hterm, sum_add_distrib, sum_ite_eq, if_pos (mem_range.mpr hc),
    (Ldl.upperSolve_spec hlower).right c hc, sub_add_cancel]

theorem size_lowerSolve (hlower : F.lower.IsStrictlyLower n) {b : Array K} (hb : b.size = n) :
    (Ldl.lowerSolve F.lower b).size = n := by
  subst hb
  exact (Ldl.lowerSolve_spec hlower).left

theorem size_upperSolve (hlower : F.lower.IsStrictlyLower n) {b : Array K} (hb : b.size = n) :
    (Ldl.upperSolve F.lower b).size = n := by
  subst hb
  exact (Ldl.upperSolve_spec hlower).left

section Solve

variable {A : Csc K} {settings : LdlSettings K} {replaced : Finset Nat}
  (hF : F.Factors A settings replaced)

include hF

theorem Factors.size_scaled {x : Array K} (hx : x.size = A.cols) :
    (Array.zipWith (· * ·) x F.inverses).size = A.cols := by
  rw [Array.size_zipWith, hx, hF.size_inverses, min_self]

theorem Factors.pivot_mul_scaled {x : Array K} (hx : x.size = A.cols) {m : Nat} (hm : m < A.cols) :
    F.pivots.getD m 0 * (Array.zipWith (· * ·) x F.inverses).getD m 0 = x.getD m 0 := by
  have hinverses := hF.size_inverses
  have hscaled := hF.size_scaled hx
  rw [getD_of_lt _ 0 (by omega : m < (Array.zipWith (· * ·) x F.inverses).size),
    Array.getElem_zipWith, ← getD_of_lt x 0, ← getD_of_lt F.inverses 0, mul_left_comm,
    hF.inverse m hm, mul_one]

theorem Factors.sum_substituted {b : Array K} (hb : b.size = A.cols) {r : Nat}
    (hr : r < A.cols) :
    ∑ c ∈ range A.cols,
      (∑ m ∈ range A.cols, F.lowerEntry r m * F.pivots.getD m 0 * F.lowerEntry c m) *
        (Ldl.upperSolve F.lower
          (Array.zipWith (· * ·) (Ldl.lowerSolve F.lower b) F.inverses)).getD c 0 =
      b.getD r 0 := by
  have hsize := size_lowerSolve hF.lower hb
  have hscaled := hF.size_scaled hsize
  generalize hx : Ldl.upperSolve F.lower
    (Array.zipWith (· * ·) (Ldl.lowerSolve F.lower b) F.inverses) = x
  calc ∑ c ∈ range A.cols, (∑ m ∈ range A.cols,
        F.lowerEntry r m * F.pivots.getD m 0 * F.lowerEntry c m) * x.getD c 0
      = ∑ m ∈ range A.cols, F.lowerEntry r m * (F.pivots.getD m 0 *
          ∑ c ∈ range A.cols, F.lowerEntry c m * x.getD c 0) := by
        simp only [sum_mul, mul_sum]
        rw [sum_comm]
        apply sum_congr rfl
        intro m _
        apply sum_congr rfl
        intro c _
        ring
    _ = ∑ m ∈ range A.cols, F.lowerEntry r m * (Ldl.lowerSolve F.lower b).getD m 0 := by
        apply sum_congr rfl
        intro m hm
        rw [← hx, sum_upperSolve hF.lower hscaled (mem_range.mp hm),
          hF.pivot_mul_scaled hsize (mem_range.mp hm)]
    _ = b.getD r 0 := sum_lowerSolve hF.lower hb hr

/-- What a solve leaves in its workspace does not depend on what stood there. -/
theorem Factors.solveIn_eq {work b : Array K} (hwork : work.size = A.cols) :
    F.solveIn work b =
      let x := Ldl.upperSolve F.lower
        (Array.zipWith (· * ·) (Ldl.lowerSolve F.lower (F.toOrder b)) F.inverses)
      (x, F.fromOrder x b) := by
  have hsize : (F.toOrder b).size = work.size := by
    rw [F.size_toOrder, hF.order.size_eq, hwork]
  unfold solveIn
  rw [overwriteMap_eq_map id hsize, Array.map_id]

theorem Factors.size_solveIn {work b : Array K} (hwork : work.size = A.cols) :
    (F.solveIn work b).1.size = A.cols := by
  have horder : (F.toOrder b).size = A.cols := by
    rw [F.size_toOrder, hF.order.size_eq]
  rw [hF.solveIn_eq hwork]
  exact size_upperSolve hF.lower (hF.size_scaled (size_lowerSolve hF.lower horder))

theorem Factors.size_workspace : F.workspace.size = A.cols := by
  unfold workspace
  rw [size_zeros, hF.size_pivots]

theorem Factors.size_workspaceAfter (earlier : List (Array K)) :
    (F.workspaceAfter earlier).size = A.cols := by
  induction earlier using List.reverseRecOn with
  | nil => exact hF.size_workspace
  | append_singleton earlier b ih =>
      unfold workspaceAfter at ih ⊢
      rw [List.foldl_append, List.foldl_cons, List.foldl_nil]
      by_cases hb : b.size = F.pivots.size
      · rw [if_pos hb]
        exact hF.size_solveIn ih
      · rw [if_neg hb]
        exact ih

theorem Factors.solveIn_workspaceAfter (earlier : List (Array K)) (b : Array K) :
    (F.solveIn (F.workspaceAfter earlier) b).2 = F.solve b := by
  unfold solve
  rw [hF.solveIn_eq (hF.size_workspaceAfter earlier), hF.solveIn_eq hF.size_workspace]

theorem Factors.solve_spec {b : Array K} (hb : b.size = A.cols) :
    (F.solve b).size = A.cols ∧ ∀ r < A.cols,
      ∑ c ∈ range A.cols, F.product.entry r c * (F.solve b).getD c 0 = b.getD r 0 := by
  have horder : (F.toOrder b).size = A.cols := by
    rw [F.size_toOrder, hF.order.size_eq]
  have hsolve : F.solve b = F.fromOrder (Ldl.upperSolve F.lower
      (Array.zipWith (· * ·) (Ldl.lowerSolve F.lower (F.toOrder b)) F.inverses)) b := by
    unfold solve
    rw [hF.solveIn_eq hF.size_workspace]
  have hplaced := fromOrder_spec hF.order (x := Ldl.upperSolve F.lower
    (Array.zipWith (· * ·) (Ldl.lowerSolve F.lower (F.toOrder b)) F.inverses))
    (size_upperSolve hF.lower (hF.size_scaled (size_lowerSolve hF.lower horder))) hb
  rw [hsolve]
  refine ⟨hplaced.left, ?_⟩
  intro r hr
  rcases hF.order.surj hr with ⟨j, hj, rfl⟩
  rw [hF.order.sum_eq, ← getD_toOrder b (by rw [hF.order.size_eq]; exact hj),
    ← hF.sum_substituted horder hj]
  apply sum_congr rfl
  intro k hk
  rw [hplaced.right k (mem_range.mp hk), entry_product hF.order hF.lower hj (mem_range.mp hk)]

/-!
## Uniqueness
-/

theorem Factors.entry_product_comm {r c : Nat} (hr : r < A.cols) (hc : c < A.cols) :
    F.product.entry r c = F.product.entry c r := by
  rcases hF.order.surj hr with ⟨j, hj, rfl⟩
  rcases hF.order.surj hc with ⟨k, hk, rfl⟩
  rw [entry_product hF.order hF.lower hj hk, entry_product hF.order hF.lower hk hj,
    F.sum_lowerEntry_comm]

/-- Each entry of a solution is a fixed combination of the right hand side: the matrix is
symmetric, so that a system solved for a unit vector reads the entry off. -/
theorem Factors.getD_of_solution {b y : Array K}
    (h : ∀ r < A.cols, ∑ c ∈ range A.cols, F.product.entry r c * y.getD c 0 = b.getD r 0)
    {j : Nat} (hj : j < A.cols) : y.getD j 0 = ∑ c ∈ range A.cols,
      (F.solve ((zeros A.cols).setIfInBounds j 1)).getD c 0 * b.getD c 0 := by
  have hunit := (hF.solve_spec (b := (zeros A.cols).setIfInBounds j 1) (by simp)).right
  generalize F.solve ((zeros A.cols).setIfInBounds j 1) = v at hunit ⊢
  calc y.getD j 0
      = ∑ r ∈ range A.cols, ((zeros A.cols).setIfInBounds j 1).getD r 0 * y.getD r 0 := by
        have hterm : ∀ r ∈ range A.cols,
            ((zeros A.cols).setIfInBounds j (1 : K)).getD r 0 * y.getD r 0 =
              if j = r then y.getD r 0 else 0 := by
          intro r _
          by_cases hjr : j = r
          · rw [if_pos hjr, ← hjr, Ldl.getD_setIfInBounds_self _ _ _ (by simpa using hj), one_mul]
          · rw [if_neg hjr, Ldl.getD_setIfInBounds_ne _ _ _ hjr, getD_zeros, zero_mul]
        rw [sum_congr rfl hterm, sum_ite_eq, if_pos (mem_range.mpr hj)]
    _ = ∑ r ∈ range A.cols,
          ∑ c ∈ range A.cols, v.getD c 0 * (F.product.entry c r * y.getD r 0) := by
        apply sum_congr rfl
        intro r hr
        rw [← hunit r (mem_range.mp hr), sum_mul]
        apply sum_congr rfl
        intro c hc
        rw [hF.entry_product_comm (mem_range.mp hr) (mem_range.mp hc)]
        ring
    _ = ∑ c ∈ range A.cols, v.getD c 0 * b.getD c 0 := by
        rw [sum_comm]
        apply sum_congr rfl
        intro c hc
        rw [← mul_sum, h c (mem_range.mp hc)]

theorem Factors.eq_solve {b y : Array K} (hb : b.size = A.cols) (hy : y.size = A.cols)
    (h : ∀ r < A.cols, ∑ c ∈ range A.cols, F.product.entry r c * y.getD c 0 = b.getD r 0) :
    y = F.solve b := by
  have hsolve := hF.solve_spec hb
  apply ext_getD 0 (hy.trans hsolve.left.symm)
  intro j hj
  rw [hF.getD_of_solution h (by omega), hF.getD_of_solution hsolve.right (by omega)]

theorem Factors.system_iff (y b : Array K) :
    (∀ r < A.cols, ∑ c ∈ range A.cols,
      (∑ m ∈ range A.cols, F.lowerEntry r m * F.pivots.getD m 0 * F.lowerEntry c m) *
        y.getD (F.order.getD c 0) 0 = b.getD (F.order.getD r 0) 0) ↔
      ∀ r < A.cols, ∑ c ∈ range A.cols, F.product.entry r c * y.getD c 0 = b.getD r 0 := by
  have hsum : ∀ r < A.cols, ∑ c ∈ range A.cols,
      F.product.entry (F.order.getD r 0) c * y.getD c 0 = ∑ c ∈ range A.cols,
        (∑ m ∈ range A.cols, F.lowerEntry r m * F.pivots.getD m 0 * F.lowerEntry c m) *
          y.getD (F.order.getD c 0) 0 := by
    intro r hr
    rw [hF.order.sum_eq]
    apply sum_congr rfl
    intro c hc
    rw [entry_product hF.order hF.lower hr (mem_range.mp hc)]
  constructor
  · intro h r hr
    rcases hF.order.surj hr with ⟨j, hj, rfl⟩
    rw [hsum j hj, h j hj]
  · intro h r hr
    rw [← hsum r hr, h _ (hF.order.lt hr)]

theorem Factors.entry_product_eq (hcount : F.regularizeCount = 0) {r c : Nat} (hr : r < A.cols)
    (hc : c < A.cols) : F.product.entry r c = A.symmetricEntry r c := by
  have hnone : replaced = ∅ := card_eq_zero.mp (hF.replaced_card.trans hcount)
  rcases hF.product with ⟨error, herror, hproduct⟩
  rcases hF.order.surj hr with ⟨j, hj, rfl⟩
  rcases hF.order.surj hc with ⟨k, hk, rfl⟩
  rw [entry_product hF.order hF.lower hj hk, hproduct j hj k hk,
    herror j (by rw [hnone]; exact notMem_empty j), ite_self, add_zero]

theorem Factors.solve_exact (hcount : F.regularizeCount = 0) {b : Array K}
    (hb : b.size = A.cols) {r : Nat} (hr : r < A.cols) :
    ∑ c ∈ range A.cols, A.symmetricEntry r c * (F.solve b).getD c 0 = b.getD r 0 := by
  rw [← (hF.solve_spec hb).right r hr]
  apply sum_congr rfl
  intro c hc
  rw [hF.entry_product_eq hcount hr (mem_range.mp hc)]

theorem Factors.solve_eq_solve {F' : LdlFactor K} {settings' : LdlSettings K}
    {replaced' : Finset Nat} (hF' : F'.Factors A settings' replaced')
    (hcount : F.regularizeCount = 0) (hcount' : F'.regularizeCount = 0) {b : Array K}
    (hb : b.size = A.cols) : F'.solve b = F.solve b := by
  apply hF.eq_solve hb (hF'.solve_spec hb).left
  intro r hr
  rw [← hF'.solve_exact hcount' hb hr]
  apply sum_congr rfl
  intro c hc
  rw [hF.entry_product_eq hcount hr (mem_range.mp hc)]

end Solve

/-- A solve, after any others, replaces the right hand side by the one solution of the system with
the product. If no pivot was replaced, that is the solution of the system with the matrix, whatever
the order of elimination. -/
theorem solveIn_factorBy {rule : Ldl.OrderingRule K} {A : Csc K} {settings : LdlSettings K}
    {F : LdlFactor K} (hrule : ∀ order, rule A = .ok order → Ldl.IsOrder order A.cols)
    (hF : Ldl.factorBy rule A settings = .ok F) (earlier : List (Array K)) {b : Array K}
    (hb : b.size = A.cols) :
    let x := (F.solveIn (F.workspaceAfter earlier) b).2
    F.solve? b = some x ∧ x.size = A.cols ∧
    (∀ y : Array K, y.size = A.cols →
      ((∀ r < A.cols, ∑ c ∈ range A.cols,
        (∑ m ∈ range A.cols, F.lowerEntry r m * F.pivots.getD m 0 * F.lowerEntry c m) *
          y.getD (F.order.getD c 0) 0 = b.getD (F.order.getD r 0) 0) ↔ y = x)) ∧
    (F.regularizeCount = 0 →
      (∀ r < A.cols, ∑ c ∈ range A.cols, A.symmetricEntry r c * x.getD c 0 = b.getD r 0) ∧
      ∀ (rule' : Ldl.OrderingRule K) (settings' : LdlSettings K) (F' : LdlFactor K),
        (∀ order, rule' A = .ok order → Ldl.IsOrder order A.cols) →
        Ldl.factorBy rule' A settings' = .ok F' → F'.regularizeCount = 0 → F'.solve b = x) := by
  rcases Ldl.factorBy_factors hrule hF with ⟨replaced, hfactors⟩
  rw [hfactors.solveIn_workspaceAfter earlier b]
  have hsolve := hfactors.solve_spec hb
  refine ⟨?_, hsolve.left, ?_, ?_⟩
  · unfold solve?
    rw [if_pos (by rw [hb, hfactors.size_pivots])]
  · intro y hy
    rw [hfactors.system_iff]
    constructor
    · exact hfactors.eq_solve hb hy
    · intro heq
      rw [heq]
      exact hsolve.right
  · intro hcount
    refine ⟨fun r hr => hfactors.solve_exact hcount hb hr, ?_⟩
    intro rule' settings' F' hrule' hF' hcount'
    rcases Ldl.factorBy_factors hrule' hF' with ⟨replaced', hfactors'⟩
    exact hfactors.solve_eq_solve hfactors' hcount hcount' hb

/-- A second solve, in an order that is not its own inverse. -/
theorem solveIn_factorBy_cyclic :
    let A : Csc ℚ := ⟨3, 3, #[0, 1, 3, 5], #[0, 1, 0, 2, 0], #[4, 3, 1, 5, 2]⟩
    let b : Array ℚ := #[1, 2, 3]
    ∃ F, Ldl.factorBy (fun _ => .ok #[1, 2, 0]) A LdlSettings.default = .ok F ∧
      let x := (F.solveIn (F.workspaceAfter [#[7, 8, 9]]) b).2
      F.regularizeCount = 0 ∧ F.solve? b = some x ∧
        ∀ r < 3, ∑ c ∈ range 3, A.symmetricEntry r c * x.getD c 0 = b.getD r 0 := by
  intro A b
  have hcount : ((Ldl.factorBy (fun _ => .ok #[1, 2, 0]) A LdlSettings.default).toOption.map
      fun F => F.regularizeCount) = some 0 := by decide +kernel
  cases hF : Ldl.factorBy (fun _ => .ok #[1, 2, 0]) A LdlSettings.default with
  | error e =>
      rw [hF] at hcount
      cases hcount
  | ok F =>
      rw [hF] at hcount
      have hzero : F.regularizeCount = 0 := Option.some.inj hcount
      have horder : ∀ order : Array Nat, (.ok #[1, 2, 0] : Except LdlError _) = .ok order →
          Ldl.IsOrder order A.cols := by
        intro order heq
        cases heq
        unfold Ldl.IsOrder
        decide
      have hsolve := solveIn_factorBy horder hF [#[7, 8, 9]] (b := b) rfl
      exact ⟨F, rfl, hzero, hsolve.left, (hsolve.2.2.2 hzero).left⟩

end LdlFactor
end SoftMargin
