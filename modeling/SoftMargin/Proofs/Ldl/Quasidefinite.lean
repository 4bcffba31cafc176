import SoftMargin.Proofs.Ldl.Solve

/-!
# Quasidefinite matrices

Each column of a matrix is given a sign. The matrix is quasidefinite if its
diagonal has these signs, and entries off the diagonal join columns of opposite
signs only. Such a matrix can be factored in every order: eliminating other
columns moves a pivot away from zero, never towards it, and the pivots have the
signs of their columns.
-/

namespace SoftMargin

open Scalar Finset

variable {K : Type} [ExactScalar K]

/-- The diagonal has the given signs, and entries off the diagonal join columns of opposite
signs. -/
structure Csc.IsQuasidefinite (A : Csc K) (sign : Nat → K) : Prop where
  diagonal : ∀ c < A.cols, 0 ≤ sign c * A.symmetricEntry c c
  opposite : ∀ r < A.cols, ∀ c < A.cols, r ≠ c → (sign r + sign c) * A.symmetricEntry r c = 0

/-!
## Quadratic forms
-/

/-- If entries off the diagonal cancel against their transposes, only the diagonal is left of a
quadratic form. -/
theorem sum_quadratic_eq_sum_diagonal {n : Nat} {M : Nat → Nat → K}
    (h : ∀ i < n, ∀ j < n, i ≠ j → M i j + M j i = 0) (x : Nat → K) :
    ∑ i ∈ range n, x i * ∑ j ∈ range n, M i j * x j = ∑ i ∈ range n, M i i * x i ^ 2 := by
  have hswap : ∑ i ∈ range n, x i * ∑ j ∈ range n, M i j * x j =
      ∑ i ∈ range n, ∑ j ∈ range n, M j i * (x i * x j) := by
    simp only [mul_sum]
    rw [sum_comm]
    apply sum_congr rfl
    intro i _
    apply sum_congr rfl
    intro j _
    ring
  have hterm : ∀ i ∈ range n, x i * ∑ j ∈ range n, M i j * x j +
      ∑ j ∈ range n, M j i * (x i * x j) = 2 * (M i i * x i ^ 2) := by
    intro i hi
    rw [mul_sum, ← sum_add_distrib, sum_eq_single_of_mem i hi]
    · ring
    · intro j hj hji
      linear_combination
        x i * x j * h i (mem_range.mp hi) j (mem_range.mp hj) (Ne.symm hji)
  have hdouble := sum_congr rfl hterm
  rw [sum_add_distrib, ← hswap, ← mul_sum] at hdouble
  linarith

namespace LdlFactor

variable {F : LdlFactor K} {n k : Nat}

/-!
## One pivot
-/

/-- The combination of the rows of the factor up to `k` that is row `k` of the unit matrix. -/
theorem exists_unit_combination (hlower : F.lower.IsStrictlyLower n) (hk : k < n) :
    ∃ x : Nat → K, x k = 1 ∧
      ∀ c < n, ∑ r ∈ range (k + 1), F.lowerEntry r c * x r = if c = k then 1 else 0 := by
  let b : Array K := (zeros n).setIfInBounds k 1
  have hsize : b.size = n := by
    show ((zeros n : Array K).setIfInBounds k 1).size = n
    rw [Array.size_setIfInBounds, size_zeros]
  have hb : ∀ c, b.getD c 0 = if c = k then 1 else 0 := by
    intro c
    show ((zeros n : Array K).setIfInBounds k 1).getD c 0 = _
    rw [Ldl.getD_setIfInBounds, getD_zeros, size_zeros]
    by_cases hc : c = k
    · rw [if_pos ⟨hc.symm, hk⟩, if_pos hc]
    · rw [if_neg fun hand => hc hand.left.symm, if_neg hc]
  let x : Nat → K := fun r => (Ldl.upperSolve F.lower b).getD r 0
  have hsolves : ∀ c < n, ∑ r ∈ range n, F.lowerEntry r c * x r = if c = k then 1 else 0 := by
    intro c hc
    rw [← hb c]
    exact sum_upperSolve hlower hsize hc
  -- a column later than `k` meets only entries of `x` that are zero already
  have hlater : ∀ left c, c + left = n → k < c → ∀ r, c ≤ r → r < n → x r = 0 := by
    intro left
    induction left with
    | zero =>
        intro c hc _ r hcr hr
        exact absurd hr (by omega)
    | succ left ih =>
        intro c hc hkc r hcr hr
        have hrest := ih (c + 1) (by omega) (by omega)
        rcases Nat.eq_or_lt_of_le hcr with heq | hlt
        · have hrow := hsolves c (by omega)
          rw [if_neg hkc.ne', sum_eq_single_of_mem c (mem_range.mpr (by omega)), F.lowerEntry_self,
            one_mul] at hrow
          · rw [← heq, hrow]
          · intro m hm hmc
            rcases Nat.lt_or_gt_of_ne hmc with hbefore | hafter
            · rw [lowerEntry_of_lt hlower hbefore (by omega), zero_mul]
            · rw [hrest m hafter (mem_range.mp hm), mul_zero]
        · exact hrest r hlt hr
  have hsum : ∀ c < n, ∑ r ∈ range (k + 1), F.lowerEntry r c * x r = if c = k then 1 else 0 := by
    intro c hc
    rw [← hsolves c hc]
    refine (sum_range_of_zero (by omega) ?_).symm
    intro r hr hkr
    rw [hlater (n - (k + 1)) (k + 1) (by omega) (Nat.lt_succ_self k) r hkr hr, mul_zero]
  refine ⟨x, ?_, hsum⟩
  have hlast := hsum k hk
  rw [if_pos rfl, sum_range_succ, F.lowerEntry_self, one_mul, sum_eq_zero, zero_add] at hlast
  · exact hlast
  · intro r hr
    rw [lowerEntry_of_lt hlower (mem_range.mp hr) hk, zero_mul]

theorem exists_quadratic_eq_pivot (hlower : F.lower.IsStrictlyLower n) (hk : k < n) {d : Nat → K}
    {M : Nat → Nat → K} (hproduct : ∀ i < k + 1, ∀ j < k + 1,
      ∑ m ∈ range (k + 1), F.lowerEntry i m * d m * F.lowerEntry j m = M i j) :
    ∃ x : Nat → K, x k = 1 ∧
      ∀ i < k + 1, ∑ j ∈ range (k + 1), M i j * x j = if i = k then d k else 0 := by
  rcases exists_unit_combination hlower hk with ⟨x, hxk, hx⟩
  refine ⟨x, hxk, ?_⟩
  intro i hi
  calc ∑ j ∈ range (k + 1), M i j * x j
      = ∑ m ∈ range (k + 1), F.lowerEntry i m * d m *
          ∑ j ∈ range (k + 1), F.lowerEntry j m * x j := by
        simp only [mul_sum]
        rw [sum_comm]
        apply sum_congr rfl
        intro j hj
        rw [← hproduct i hi j (mem_range.mp hj), sum_mul]
        apply sum_congr rfl
        intro m _
        ring
    _ = F.lowerEntry i k * d k := by
        rw [sum_eq_single_of_mem k (self_mem_range_succ k), hx k hk, if_pos rfl, mul_one]
        intro m hm hmk
        rw [hx m ((mem_range.mp hm).trans_le hk), if_neg hmk, mul_zero]
    _ = if i = k then d k else 0 := by
        by_cases hik : i = k
        · rw [if_pos hik, hik, F.lowerEntry_self, one_mul]
        · rw [if_neg hik, lowerEntry_of_lt hlower (by omega) hk, zero_mul]

theorem diagonal_le_pivot (sign : Nat → K) (hlower : F.lower.IsStrictlyLower n) (hk : k < n)
    {d : Nat → K} {M : Nat → Nat → K} (hproduct : ∀ i < k + 1, ∀ j < k + 1,
      ∑ m ∈ range (k + 1), F.lowerEntry i m * d m * F.lowerEntry j m = M i j)
    (hdiagonal : ∀ i < k + 1, 0 ≤ sign i * M i i)
    (hopposite : ∀ i < k + 1, ∀ j < k + 1, i ≠ j → sign i * M i j + sign j * M j i = 0) :
    sign k * M k k ≤ sign k * d k := by
  rcases exists_quadratic_eq_pivot hlower hk hproduct with ⟨x, hxk, hx⟩
  have hpivot : ∑ i ∈ range (k + 1), x i * ∑ j ∈ range (k + 1), sign i * M i j * x j =
      sign k * d k := by
    rw [sum_eq_single_of_mem k (self_mem_range_succ k)]
    · simp only [mul_assoc]
      rw [← mul_sum, hx k (Nat.lt_succ_self k), if_pos rfl, hxk, one_mul]
    · intro i hi hik
      simp only [mul_assoc]
      rw [← mul_sum, hx i (mem_range.mp hi), if_neg hik, mul_zero, mul_zero]
  have hterm : sign k * M k k * x k ^ 2 ≤ ∑ i ∈ range (k + 1), sign i * M i i * x i ^ 2 :=
    single_le_sum (f := fun i => sign i * M i i * x i ^ 2)
      (fun i hi => mul_nonneg (hdiagonal i (mem_range.mp hi)) (sq_nonneg _))
      (self_mem_range_succ k)
  rw [← hpivot, sum_quadratic_eq_sum_diagonal (M := fun i j => sign i * M i j) hopposite]
  rwa [hxk, one_pow, mul_one] at hterm

/-!
## All pivots
-/

section Factors

variable {A : Csc K} {settings : LdlSettings K} {replaced : Finset Nat} {sign : Nat → K}

/-- Up to a step before which no pivot was replaced, the rows multiply out to the matrix, with what
was left for the pivot of that step in its place. -/
theorem Factors.leading_product (h : F.Factors A settings replaced) (hk : k < A.cols)
    (hkept : ∀ m < k, m ∉ replaced) {i j : Nat} (hi : i < k + 1) (hj : j < k + 1) :
    ∑ m ∈ range (k + 1), F.lowerEntry i m *
      Function.update (fun m => F.pivots.getD m 0) k
        (A.symmetricEntry (F.order.getD k 0) (F.order.getD k 0) -
          ∑ m ∈ range k, F.lowerEntry k m * F.pivots.getD m 0 * F.lowerEntry k m) m *
      F.lowerEntry j m = A.symmetricEntry (F.order.getD i 0) (F.order.getD j 0) := by
  rcases h.product with ⟨error, herror, hproduct⟩
  have hfirst : ∀ i j : Nat, ∑ m ∈ range k, F.lowerEntry i m *
      Function.update (fun m => F.pivots.getD m 0) k
        (A.symmetricEntry (F.order.getD k 0) (F.order.getD k 0) -
          ∑ m ∈ range k, F.lowerEntry k m * F.pivots.getD m 0 * F.lowerEntry k m) m *
      F.lowerEntry j m =
        ∑ m ∈ range k, F.lowerEntry i m * F.pivots.getD m 0 * F.lowerEntry j m := by
    intro i j
    apply sum_congr rfl
    intro m hm
    rw [Function.update_of_ne (mem_range.mp hm).ne]
  rw [sum_range_succ, hfirst, Function.update_self]
  by_cases hlast : i = k ∧ j = k
  · rw [hlast.left, hlast.right, F.lowerEntry_self, one_mul, mul_one, add_sub_cancel]
  · have hzero : F.lowerEntry i k * F.lowerEntry j k = 0 := by
      rcases Nat.lt_or_ge i k with hik | hik
      · rw [lowerEntry_of_lt h.lower hik hk, zero_mul]
      · rw [lowerEntry_of_lt h.lower (by omega : j < k) hk, mul_zero]
    have hshort : ∑ m ∈ range A.cols, F.lowerEntry i m * F.pivots.getD m 0 * F.lowerEntry j m =
        ∑ m ∈ range k, F.lowerEntry i m * F.pivots.getD m 0 * F.lowerEntry j m := by
      apply sum_range_of_zero hk.le
      intro m hm hkm
      rcases Nat.lt_or_ge i k with hik | hik
      · rw [lowerEntry_of_lt h.lower (by omega : i < m) hm, zero_mul, zero_mul]
      · rw [lowerEntry_of_lt h.lower (by omega : j < m) hm, mul_zero]
    rw [mul_right_comm, hzero, zero_mul, add_zero, ← hshort,
      hproduct i (by omega) j (by omega)]
    by_cases hij : i = j
    · rw [if_pos hij, herror i (hkept i (by omega)), add_zero]
    · rw [if_neg hij, add_zero]

theorem Factors.diagonal_le_left (h : F.Factors A settings replaced)
    (hA : A.IsQuasidefinite sign) (hk : k < A.cols) (hkept : ∀ m < k, m ∉ replaced) :
    sign (F.order.getD k 0) * A.symmetricEntry (F.order.getD k 0) (F.order.getD k 0) ≤
      sign (F.order.getD k 0) *
        (A.symmetricEntry (F.order.getD k 0) (F.order.getD k 0) -
          ∑ m ∈ range k, F.lowerEntry k m * F.pivots.getD m 0 * F.lowerEntry k m) := by
  have hbound := diagonal_le_pivot (fun i => sign (F.order.getD i 0)) h.lower hk
    (fun i hi j hj => h.leading_product hk hkept hi hj)
    (fun i hi => hA.diagonal _ (h.order.lt (by omega))) (by
      intro i hi j hj hij
      have hne : F.order.getD i 0 ≠ F.order.getD j 0 := fun heq =>
        hij (h.order.inj (by omega) (by omega) heq)
      rw [A.symmetricEntry_comm (F.order.getD j 0), ← add_mul]
      exact hA.opposite _ (h.order.lt (by omega)) _ (h.order.lt (by omega)) hne)
  rwa [Function.update_self] at hbound

/-- In a quasidefinite matrix with a diagonal that is not too small no pivot is replaced. -/
theorem Factors.not_mem_replaced (h : F.Factors A settings replaced)
    (hA : A.IsQuasidefinite sign)
    (hsign : ∀ k < A.cols, settings.pivotSign F.order k = sign (F.order.getD k 0))
    (hlimit : ∀ c < A.cols, settings.limit ≤ sign c * A.symmetricEntry c c) (k : Nat) :
    k ∉ replaced := by
  induction k using Nat.strong_induction_on with
  | _ k ih =>
      intro hk
      have hkn := mem_range.mp (h.replaced_subset hk)
      have hsmall := h.replaced_small k hk
      rw [hsign k hkn, mul_comm] at hsmall
      have hlarge := (hlimit _ (h.order.lt hkn)).trans (h.diagonal_le_left hA hkn ih)
      exact absurd hsmall (not_lt.mpr hlarge)

theorem Factors.pivot_eq_left (h : F.Factors A settings replaced) (hk : k < A.cols)
    (hkept : k ∉ replaced) : F.pivots.getD k 0 =
      A.symmetricEntry (F.order.getD k 0) (F.order.getD k 0) -
        ∑ m ∈ range k, F.lowerEntry k m * F.pivots.getD m 0 * F.lowerEntry k m := by
  rcases h.product with ⟨error, herror, hproduct⟩
  have hdiagonal := hproduct k hk k hk
  rw [if_pos rfl, herror k hkept, add_zero, sum_range_of_zero (j := k + 1) (by omega),
    sum_range_succ, F.lowerEntry_self, one_mul, mul_one] at hdiagonal
  · rw [← hdiagonal, add_sub_cancel_left]
  · intro m hm hkm
    rw [lowerEntry_of_lt h.lower hkm hm, mul_zero]

/-- In every order each pivot of a quasidefinite matrix is at least as large as the diagonal entry
that it comes from, and has the same sign. -/
theorem Factors.diagonal_le_pivots (h : F.Factors A settings replaced)
    (hA : A.IsQuasidefinite sign)
    (hsign : ∀ k < A.cols, settings.pivotSign F.order k = sign (F.order.getD k 0))
    (hlimit : ∀ c < A.cols, settings.limit ≤ sign c * A.symmetricEntry c c) :
    F.regularizeCount = 0 ∧ ∀ k < A.cols,
      sign (F.order.getD k 0) * A.symmetricEntry (F.order.getD k 0) (F.order.getD k 0) ≤
        sign (F.order.getD k 0) * F.pivots.getD k 0 := by
  have hkept := h.not_mem_replaced hA hsign hlimit
  constructor
  · rw [← h.replaced_card, card_eq_zero]
    exact eq_empty_of_forall_notMem hkept
  · intro k hk
    rw [h.pivot_eq_left hk (hkept k)]
    exact h.diagonal_le_left hA hk fun m _ => hkept m

/-- The inertia counts the columns of positive sign, since no pivot changes the sign of its
column. -/
theorem Factors.positiveInertia_eq (h : F.Factors A settings replaced)
    (hpivot : ∀ k < A.cols, 0 < sign (F.order.getD k 0) * F.pivots.getD k 0) :
    F.positiveInertia = #{c ∈ range A.cols | 0 < sign c} := by
  rw [h.positive]
  refine card_bij (fun k _ => F.order.getD k 0) ?_ ?_ ?_
  · intro k hk
    have hin := mem_filter.mp hk
    have hkn := mem_range.mp hin.left
    exact mem_filter.mpr ⟨mem_range.mpr (h.order.lt hkn),
      (pos_iff_pos_of_mul_pos (hpivot k hkn)).mpr hin.right⟩
  · intro j hj k hk
    exact h.order.inj (mem_range.mp (mem_filter.mp hj).left)
      (mem_range.mp (mem_filter.mp hk).left)
  · intro c hc
    have hin := mem_filter.mp hc
    rcases h.order.surj (mem_range.mp hin.left) with ⟨k, hkn, hkc⟩
    refine ⟨k, mem_filter.mpr ⟨mem_range.mpr hkn, ?_⟩, hkc⟩
    have hpos := hpivot k hkn
    rw [hkc] at hpos
    exact (pos_iff_pos_of_mul_pos hpos).mp hin.right

end Factors

end LdlFactor
end SoftMargin
