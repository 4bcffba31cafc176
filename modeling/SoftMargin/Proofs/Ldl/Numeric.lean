import SoftMargin.Proofs.Ldl.Slots

/-!
# The numeric factorization

A step solves a triangular system. A column is treated when all columns that it
depends on have been treated, so that its scratch entry is final by then, and
nothing is subtracted from it later. What the steps leave are the equations of
the factorization, one for each entry of the matrix.
-/

namespace SoftMargin
namespace Ldl

open Scalar Finset

variable {K : Type} [ExactScalar K]

/-!
## Eliminating with a column
-/

theorem getD_subtracted {es : List (Nat × K)} {row : Array K} (h : ∀ e ∈ es, e.1 < row.size)
    (y : K) (i : Nat) :
    (subtracted es y row).getD i 0 = row.getD i 0 - entrySum es i * y := by
  induction es using List.reverseRecOn with
  | nil =>
      rw [entrySum_nil, zero_mul, sub_zero]
      rfl
  | append_singleton es e ih =>
      have hes := ih fun d hd => h d (List.mem_append_left _ hd)
      rw [subtracted_concat, entrySum_append, entrySum_cons, entrySum_nil, add_zero]
      by_cases hei : e.1 = i
      · subst hei
        rw [getD_setIfInBounds_self _ _ _ (by rw [size_subtracted]; exact h e (by simp)),
          if_pos rfl, hes]
        ring
      · rw [getD_setIfInBounds_ne _ _ _ hei, if_neg hei, add_zero, hes]

/-!
## The state between steps
-/

def signValue (sign : Int) : K :=
  if sign < 0 then -1 else 1

/-- The first `k` rows are factored. The entries that are placed satisfy the equations of the
factorization, but for the pivots that were replaced. -/
structure Factored (A : Csc K) (parent : Array (Option Nat)) (colptr : Array Nat)
    (signs : Array Int) (reg : Option (Regularization K)) (k : Nat) (s : NumericState K)
    (content : Nat → List (Nat × K)) (replaced : Finset Nat) : Prop
    extends Placed A parent colptr k s content where
  lower : ∀ i < k, ∀ j < i,
    ∑ m ∈ range j, entrySum (content m) i * s.pivots.getD m 0 * entrySum (content m) j +
      entrySum (content j) i * s.pivots.getD j 0 = lastEntry (A.column i) j
  pivot : ∀ i < k, i ∉ replaced →
    ∑ m ∈ range i, entrySum (content m) i * s.pivots.getD m 0 * entrySum (content m) i +
      s.pivots.getD i 0 = lastEntry (A.column i) i
  replaced_subset : replaced ⊆ range k
  replaced_card : replaced.card = s.regularized
  replaced_pivot : ∀ i ∈ replaced, ∃ r, reg = some r ∧
    s.pivots.getD i 0 = r.replacement * signValue (signs.getD i 0)
  replaced_small : ∀ i ∈ replaced, ∀ r, reg = some r → (lastEntry (A.column i) i -
    ∑ m ∈ range i, entrySum (content m) i * s.pivots.getD m 0 * entrySum (content m) i) *
      signValue (signs.getD i 0) < r.limit
  inverse : ∀ i < k, s.pivots.getD i 0 * s.inverses.getD i 0 = 1
  positive : s.positive = #{i ∈ range k | 0 < s.pivots.getD i 0}

/-- The columns in `done` have been treated, with the values `w` of their scratch entries. -/
structure Eliminated (A : Csc K) (colptr : Array Nat) (k : Nat) (s : NumericState K)
    (content : Nat → List (Nat × K)) (p : Pattern K) (done : List Nat) (w : Nat → K)
    (t : NumericState K) : Prop
    extends Treated A colptr k s content p done (fun c => w c * s.inverses.getD c 0) t where
  positive_eq : t.positive = s.positive
  regularized_eq : t.regularized = s.regularized
  pivots_ne : ∀ i, i ≠ k → t.pivots.getD i 0 = s.pivots.getD i 0
  pivot : t.pivots.getD k 0 =
    p.diagonal - ∑ m ∈ range A.cols, w m * (w m * s.inverses.getD m 0)
  row : ∀ i, i ∉ done → t.row.getD i 0 =
    p.row.getD i 0 - ∑ m ∈ range A.cols, entrySum (content m) i * w m
  unused : ∀ m, m ∉ done → w m = 0
  solved : ∀ c ∈ done, w c =
    p.row.getD c 0 - ∑ m ∈ range A.cols, entrySum (content m) c * w m

theorem sum_update {n c : Nat} (hc : c < n) {w : Nat → K} (hw : w c = 0) (y : K)
    (g : Nat → K → K) (hg : g c 0 = 0) :
    ∑ m ∈ range n, g m (Function.update w c y m) = ∑ m ∈ range n, g m (w m) + g c y := by
  have hterm : ∀ m ∈ range n,
      g m (Function.update w c y m) = g m (w m) + if c = m then g c y else 0 := by
    intro m _
    by_cases hm : c = m
    · subst hm
      rw [Function.update_self, hw, if_pos rfl, hg, zero_add]
    · rw [Function.update_of_ne (Ne.symm hm), if_neg hm, add_zero]
  rw [sum_congr rfl hterm, sum_add_distrib, sum_ite_eq, if_pos (mem_range.mpr hc)]

section Step

variable {A : Csc K} {parent : Array (Option Nat)} {colptr : Array Nat} {signs : Array Int}
  {reg : Option (Regularization K)} {k : Nat} {s t : NumericState K}
  {content : Nat → List (Nat × K)} {replaced : Finset Nat} {p : Pattern K}
  {done todo : List Nat} {c : Nat} {w : Nat → K}

theorem Factored.entrySum_eq_zero (h : Factored A parent colptr signs reg k s content replaced)
    {c i : Nat} (hc : c < A.cols) (hclimb : ¬ (c < i ∧ i < k ∧ Climbs parent c i)) :
    entrySum (content c) i = 0 := by
  apply SoftMargin.entrySum_eq_zero
  intro e he heq
  exact hclimb (heq ▸ h.rows c hc e he)

theorem Factored.entrySum_done (h : Factored A parent colptr signs reg k s content replaced)
    (htree : IsEliminationTree A parent A.cols) (hk : k < A.cols)
    (hp : IsPattern parent k A.cols (A.column k) p) (hsplit : p.columns = done ++ c :: todo)
    {i : Nat} (hi : i ∈ done) : entrySum (content c) i = 0 := by
  apply SoftMargin.entrySum_eq_zero
  intro e he heq
  exact (h.row_pending htree hk hp.toCollects hsplit he).right (heq ▸ hi)

theorem Eliminated.afterColumn (ht : Eliminated A colptr k s content p done w t)
    (htree : IsEliminationTree A parent A.cols) (hcolptr : Reserves A parent colptr)
    (hk : k < A.cols) (hp : IsPattern parent k A.cols (A.column k) p)
    (h : Factored A parent colptr signs reg k s content replaced)
    (hsplit : p.columns = done ++ c :: todo) :
    Eliminated A colptr k s content p (done ++ [c]) (Function.update w c (t.row.getD c 0))
      (t.afterColumn k c (subtracted (content c) (t.row.getD c 0) t.row)) := by
  have hmem : c ∈ p.columns := by
    rw [hsplit]
    exact List.mem_append_right _ List.mem_cons_self
  have hck := hp.lt c hmem
  have hcn : c < A.cols := hck.trans hk
  have hdone := hp.not_mem_done hsplit
  have hwc : w c = 0 := ht.unused c hdone
  have hbefore : ∀ i ∈ done, entrySum (content c) i = 0 :=
    fun i hi => h.entrySum_done htree hk hp hsplit hi
  have hself : entrySum (content c) c = 0 :=
    h.entrySum_eq_zero hcn fun hclimb => Nat.lt_irrefl c hclimb.1
  have hsum : ∀ i, ∑ m ∈ range A.cols,
      entrySum (content m) i * Function.update w c (t.row.getD c 0) m =
      ∑ m ∈ range A.cols, entrySum (content m) i * w m +
        entrySum (content c) i * t.row.getD c 0 :=
    fun i => sum_update hcn hwc _ (fun m v => entrySum (content m) i * v) (mul_zero _)
  have hrows : ∀ e ∈ content c, e.1 < t.row.size := by
    intro e he
    have hrow := h.rows c hcn e he
    rw [ht.size_row]
    omega
  have hvalues := getD_subtracted hrows (t.row.getD c 0)
  refine ⟨?_, ht.positive_eq, ht.regularized_eq, ?_, ?_, ?_, ?_, ?_⟩
  · have htreated := ht.toTreated.afterColumn htree hcolptr hk hp.toCollects h.toPlaced hsplit
    have hentries : Function.update (fun d => w d * s.inverses.getD d 0) c
        (t.row.getD c 0 * t.inverses.getD c 0) =
        fun d => Function.update w c (t.row.getD c 0) d * s.inverses.getD d 0 := by
      funext d
      by_cases hdc : d = c
      · rw [hdc, Function.update_self, Function.update_self, ht.inverses_eq]
      · rw [Function.update_of_ne hdc, Function.update_of_ne hdc]
    rw [← hentries]
    exact htreated
  · intro i hi
    unfold NumericState.afterColumn
    rw [getD_setIfInBounds_ne _ _ _ (Ne.symm hi)]
    exact ht.pivots_ne i hi
  · unfold NumericState.afterColumn
    rw [getD_setIfInBounds_self _ _ _ (by rw [ht.size_pivots]; exact hk), ht.pivot,
      ht.inverses_eq, sum_update hcn hwc _ (fun m v => v * (v * s.inverses.getD m 0))
        (zero_mul _)]
    ring
  · intro i hi
    rw [List.mem_append, List.mem_singleton, not_or] at hi
    unfold NumericState.afterColumn
    rw [hsum i, getD_setIfInBounds_ne _ _ _ (Ne.symm hi.right), hvalues i, ht.row i hi.left]
    ring
  · intro m hm
    rw [List.mem_append, List.mem_singleton, not_or] at hm
    rw [Function.update_of_ne hm.right]
    exact ht.unused m hm.left
  · intro i hi
    rw [hsum i]
    rcases List.mem_append.mp hi with hold | hnew
    · rw [hbefore i hold, zero_mul, add_zero, Function.update_of_ne]
      · exact ht.solved i hold
      · intro hic
        exact hdone (hic ▸ hold)
    · rw [List.mem_singleton.mp hnew, Function.update_self, hself, zero_mul, add_zero]
      exact ht.row c hdone

theorem eliminate_columns (htree : IsEliminationTree A parent A.cols)
    (hcolptr : Reserves A parent colptr) (hk : k < A.cols)
    (hp : IsPattern parent k A.cols (A.column k) p)
    (h : Factored A parent colptr signs reg k s content replaced) :
    ∃ t, p.columns.foldlM (NumericState.eliminate colptr k) (s.withPattern k p) = .ok t ∧
      ∃ w, Eliminated A colptr k s content p p.columns w t := by
  have hstart : Eliminated A colptr k s content p [] (fun _ => 0) (s.withPattern k p) := by
    refine ⟨h.start_treated hp.toCollects, rfl, rfl, ?_, ?_, ?_, fun m _ => rfl, ?_⟩
    · intro i hi
      exact getD_setIfInBounds_ne _ _ _ (Ne.symm hi)
    · unfold NumericState.withPattern
      rw [getD_setIfInBounds_self _ _ _ (by rw [h.size_pivots]; exact hk)]
      simp
    · intro i _
      simp [NumericState.withPattern]
    · intro c hc
      exact absurd hc List.not_mem_nil
  refine foldlM_eq_ok (fun done t => ∃ w, Eliminated A colptr k s content p done w t)
    (NumericState.eliminate colptr k) p.columns _ ⟨_, hstart⟩ ?_
  rintro done c todo t hsplit ⟨w, ht⟩
  exact ⟨_, (ht.eliminate_eq htree hcolptr hk hp.toCollects h.toPlaced hsplit).2.2, _,
    ht.afterColumn htree hcolptr hk hp h hsplit⟩

/-!
## The new row
-/

/-- Rows that are not in the pattern take no part in the step. -/
theorem Eliminated.untouched (htree : IsEliminationTree A parent A.cols) (hA : A.IsUpper)
    (hk : k < A.cols) (hp : IsPattern parent k A.cols (A.column k) p)
    (h : Factored A parent colptr signs reg k s content replaced)
    (ht : Eliminated A colptr k s content p p.columns w t) {i : Nat} (hi : i ∉ p.columns) :
    p.row.getD i 0 = 0 ∧ ∑ m ∈ range A.cols, entrySum (content m) i * w m = 0 := by
  constructor
  · rw [hp.row i]
    by_cases hik : i = k
    · rw [if_pos hik]
    · rw [if_neg hik]
      apply lastEntry_eq_zero
      intro e he hei
      have hle := hA.row_le k hk e he
      exact hi (hei ▸ hp.rows_mem e he (by omega))
  · apply sum_eq_zero
    intro m hm
    by_cases hmem : m ∈ p.columns
    · rw [h.entrySum_eq_zero (mem_range.mp hm), zero_mul]
      intro hclimb
      exact hi (hp.mem_of_climbs htree.rising hclimb.2.2 hmem hclimb.2.1)
    · rw [ht.unused m hmem, mul_zero]

/-- The scratch entries with which the columns were treated solve the system of the step. -/
theorem Eliminated.solves (htree : IsEliminationTree A parent A.cols) (hA : A.IsUpper)
    (hk : k < A.cols) (hp : IsPattern parent k A.cols (A.column k) p)
    (h : Factored A parent colptr signs reg k s content replaced)
    (ht : Eliminated A colptr k s content p p.columns w t) {j : Nat} (hj : j < k) :
    ∑ m ∈ range j, entrySum (content m) j * w m + w j = lastEntry (A.column k) j := by
  have hlower : ∑ m ∈ range A.cols, entrySum (content m) j * w m =
      ∑ m ∈ range j, entrySum (content m) j * w m := by
    apply sum_range_of_zero (by omega)
    intro m hm hjm
    rw [h.entrySum_eq_zero hm (fun hclimb => absurd hclimb.1 (by omega)), zero_mul]
  have hrow : p.row.getD j 0 = lastEntry (A.column k) j := by
    rw [hp.row j, if_neg hj.ne]
  by_cases hmem : j ∈ p.columns
  · rw [← hlower, ht.solved j hmem, hrow]
    ring
  · have hzero := ht.untouched htree hA hk hp h hmem
    rw [← hlower, hzero.right, ht.unused j hmem, ← hrow, hzero.left, add_zero]

end Step

end Ldl
end SoftMargin
