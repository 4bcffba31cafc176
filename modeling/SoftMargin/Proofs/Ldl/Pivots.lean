import SoftMargin.Proofs.Ldl.Numeric

/-!
# Pivots and steps

A step ends with its pivot: the one that is left over, or one that was put in
its place. With it the equations of the factorization hold for one more row.
The only error of the numeric factorization is a pivot that is zero.
-/

namespace SoftMargin
namespace Ldl

open Scalar Finset

variable {K : Type} [ExactScalar K]

/-!
## Choosing the pivot
-/

/-- The pivot `d` is the one left over, which is not too small, or the replacement that the expected
sign asks for. -/
def IsPivot (reg : Option (Regularization K)) (sign : Int) (left d : K) (flag : Bool) : Prop :=
  (flag = false ∧ d = left ∧ ∀ r, reg = some r → r.limit ≤ left * signValue sign) ∨
    (flag = true ∧ ∃ r, reg = some r ∧ d = r.replacement * signValue sign ∧
      left * signValue sign < r.limit)

def MendsZeros (reg : Option (Regularization K)) : Prop :=
  ∃ r, reg = some r ∧ 0 < r.limit ∧ r.replacement ≠ 0

theorem signValue_eq_one_or (sign : Int) :
    (signValue sign : K) = 1 ∨ (signValue sign : K) = -1 := by
  unfold signValue
  by_cases hsign : sign < 0
  · exact Or.inr (if_pos hsign)
  · exact Or.inl (if_neg hsign)

theorem signValue_ne_zero (sign : Int) : (signValue sign : K) ≠ 0 := by
  rcases signValue_eq_one_or (K := K) sign with h | h
  · rw [h]
    exact one_ne_zero
  · rw [h]
    exact neg_ne_zero.mpr one_ne_zero

theorem isPivot_regularize (reg : Option (Regularization K)) (sign : Int) (left : K) :
    IsPivot reg sign left (regularize reg sign left).1 (regularize reg sign left).2 := by
  cases reg with
  | none => exact Or.inl ⟨rfl, rfl, fun r hr => by cases hr⟩
  | some r =>
      unfold regularize
      dsimp only
      by_cases hsmall : left * (if sign < 0 then -1 else 1) < r.limit
      · rw [if_pos hsmall]
        exact Or.inr ⟨rfl, r, rfl, rfl, hsmall⟩
      · rw [if_neg hsmall]
        refine Or.inl ⟨rfl, rfl, ?_⟩
        intro r' hr'
        cases hr'
        exact not_lt.mp hsmall

theorem IsPivot.ne_zero {reg : Option (Regularization K)} {sign : Int} {left d : K} {flag : Bool}
    (h : IsPivot reg sign left d flag) (hreg : MendsZeros reg) : d ≠ 0 := by
  rcases hreg with ⟨r, hr, hlimit, hreplacement⟩
  rcases h with ⟨_, hkept, hlarge⟩ | ⟨_, r', hr', hreplaced, _⟩
  · intro hzero
    have hle := hlarge r hr
    rw [← hkept, hzero, zero_mul] at hle
    exact absurd hlimit (not_lt.mpr hle)
  · rw [hr] at hr'
    rw [hreplaced, ← Option.some.inj hr']
    exact mul_ne_zero hreplacement (signValue_ne_zero sign)

theorem finishPivot_isPivot (reg : Option (Regularization K)) {signs : Array Int} {k : Nat}
    {t : NumericState K} (hsigns : k < signs.size) (hpivots : k < t.pivots.size)
    (hinverses : k < t.inverses.size) :
    Outcome
      (fun u => ∃ d flag, u = t.withPivot k d flag ∧ d ≠ 0 ∧
        IsPivot reg (signs.getD k 0) (t.pivots.getD k 0) d flag)
      (fun e => e = .zeroPivot ∧ ¬MendsZeros reg) (t.finishPivot reg signs k) := by
  have hpivot := isPivot_regularize reg (signs.getD k 0) (t.pivots.getD k 0)
  rcases finishPivot_outcome reg hsigns hpivots hinverses with
    ⟨u, hu, heq, hzero, _⟩ | ⟨e, he, herror, hbad⟩
  · refine Or.inl ⟨u, hu, _, _, heq, ?_, hpivot⟩
    intro hd
    rw [(same_iff _ 0).mpr hd] at hzero
    cases hzero
  · refine Or.inr ⟨e, he, herror, fun hreg => hpivot.ne_zero hreg ?_⟩
    rcases hbad with hsame | hinfinite
    · exact (same_iff _ 0).mp hsame
    · cases hinfinite

/-!
## The next row
-/

section Step

variable {A : Csc K} {parent : Array (Option Nat)} {colptr : Array Nat} {signs : Array Int}
  {reg : Option (Regularization K)} {k : Nat} {s t : NumericState K}
  {content : Nat → List (Nat × K)} {replaced : Finset Nat} {p : Pattern K} {w : Nat → K}

theorem entrySum_withRow (v : Nat → K) {done : List Nat} {c : Nat} (hv : c ∉ done → v c = 0)
    (i : Nat) : entrySum (withRow content k done v c) i =
      entrySum (content c) i + if k = i then v c else 0 := by
  by_cases hc : c ∈ done
  · rw [withRow_of_mem _ _ _ hc, entrySum_append, entrySum_cons, entrySum_nil, add_zero]
  · rw [withRow_of_not_mem _ _ _ hc, hv hc, ite_self, add_zero]

theorem getD_pivots_withPivot (ht : k < t.pivots.size) (d : K) (flag : Bool) (i : Nat) :
    (t.withPivot k d flag).pivots.getD i 0 = if i = k then d else t.pivots.getD i 0 := by
  unfold NumericState.withPivot
  by_cases hik : i = k
  · rw [if_pos hik, hik, getD_setIfInBounds_self _ _ _ ht]
  · rw [if_neg hik, getD_setIfInBounds_ne _ _ _ (Ne.symm hik)]

theorem Eliminated.row_equation (htree : IsEliminationTree A parent A.cols) (hA : A.IsUpper)
    (hk : k < A.cols) (hp : IsPattern parent k A.cols (A.column k) p)
    (h : Factored A parent colptr signs reg k s content replaced)
    (ht : Eliminated A colptr k s content p p.columns w t) {j : Nat} (hj : j < k) :
    ∑ m ∈ range j, w m * s.inverses.getD m 0 * s.pivots.getD m 0 * entrySum (content m) j +
      w j * s.inverses.getD j 0 * s.pivots.getD j 0 = lastEntry (A.column k) j := by
  have hcancel : ∀ m < k, w m * s.inverses.getD m 0 * s.pivots.getD m 0 = w m := by
    intro m hm
    rw [mul_assoc, mul_comm (s.inverses.getD m 0), h.inverse m hm, mul_one]
  rw [← ht.solves htree hA hk hp h hj, hcancel j hj]
  congr 1
  apply sum_congr rfl
  intro m hm
  rw [hcancel m ((mem_range.mp hm).trans hj), mul_comm]

theorem Eliminated.pivot_equation (hk : k < A.cols)
    (hp : IsPattern parent k A.cols (A.column k) p)
    (h : Factored A parent colptr signs reg k s content replaced)
    (ht : Eliminated A colptr k s content p p.columns w t) :
    ∑ m ∈ range k, w m * s.inverses.getD m 0 * s.pivots.getD m 0 *
        (w m * s.inverses.getD m 0) + t.pivots.getD k 0 = lastEntry (A.column k) k := by
  have hsum : ∑ m ∈ range A.cols, w m * (w m * s.inverses.getD m 0) =
      ∑ m ∈ range k, w m * s.inverses.getD m 0 * s.pivots.getD m 0 *
        (w m * s.inverses.getD m 0) := by
    rw [sum_range_of_zero hk.le]
    · apply sum_congr rfl
      intro m hm
      rw [mul_assoc (w m) _ (s.pivots.getD m 0), mul_comm (s.inverses.getD m 0),
        h.inverse m (mem_range.mp hm), mul_one]
    · intro m _ hkm
      rw [ht.unused m fun hmem => absurd (hp.lt m hmem) (Nat.not_lt.mpr hkm), zero_mul]
  rw [ht.pivot, hsum, hp.diagonal]
  ring

/-!
## The equations with the new row
-/

def NumericState.nextContent (s : NumericState K) (content : Nat → List (Nat × K)) (k : Nat)
    (p : Pattern K) (w : Nat → K) : Nat → List (Nat × K) :=
  withRow content k p.columns fun c => w c * s.inverses.getD c 0

theorem Eliminated.entrySum_old (ht : Eliminated A colptr k s content p p.columns w t) (c : Nat)
    {i : Nat} (hi : i < k) :
    entrySum (s.nextContent content k p w c) i = entrySum (content c) i := by
  unfold NumericState.nextContent
  rw [entrySum_withRow, if_neg hi.ne', add_zero]
  intro hc
  rw [ht.unused c hc, zero_mul]

theorem Eliminated.entrySum_new (hk : k < A.cols)
    (h : Factored A parent colptr signs reg k s content replaced)
    (ht : Eliminated A colptr k s content p p.columns w t) {c : Nat} (hc : c < k) :
    entrySum (s.nextContent content k p w c) k = w c * s.inverses.getD c 0 := by
  unfold NumericState.nextContent
  rw [entrySum_withRow, if_pos rfl, h.entrySum_eq_zero (hc.trans hk)
    (fun hclimb => Nat.lt_irrefl k hclimb.2.1), zero_add]
  intro hnot
  rw [ht.unused c hnot, zero_mul]

theorem Eliminated.pivot_new (hk : k < A.cols)
    (ht : Eliminated A colptr k s content p p.columns w t) (d : K) (flag : Bool) :
    (t.withPivot k d flag).pivots.getD k 0 = d := by
  rw [getD_pivots_withPivot (by rw [ht.size_pivots]; exact hk), if_pos rfl]

theorem Eliminated.pivot_old (hk : k < A.cols)
    (ht : Eliminated A colptr k s content p p.columns w t) (d : K) (flag : Bool) {i : Nat}
    (hi : i < k) : (t.withPivot k d flag).pivots.getD i 0 = s.pivots.getD i 0 := by
  rw [getD_pivots_withPivot (by rw [ht.size_pivots]; exact hk), if_neg hi.ne,
    ht.pivots_ne i hi.ne]

theorem Eliminated.succ_lower (htree : IsEliminationTree A parent A.cols) (hA : A.IsUpper)
    (hk : k < A.cols) (hp : IsPattern parent k A.cols (A.column k) p)
    (h : Factored A parent colptr signs reg k s content replaced)
    (ht : Eliminated A colptr k s content p p.columns w t) (d : K) (flag : Bool) {i j : Nat}
    (hi : i < k + 1) (hj : j < i) :
    ∑ m ∈ range j, entrySum (s.nextContent content k p w m) i *
        (t.withPivot k d flag).pivots.getD m 0 * entrySum (s.nextContent content k p w m) j +
      entrySum (s.nextContent content k p w j) i * (t.withPivot k d flag).pivots.getD j 0 =
      lastEntry (A.column i) j := by
  have hjk : j < k := by omega
  rw [ht.pivot_old hk d flag hjk]
  rcases Nat.lt_succ_iff_lt_or_eq.mp hi with hlt | heq
  · rw [← h.lower i hlt j hj, ht.entrySum_old j hlt]
    congr 1
    apply sum_congr rfl
    intro m hm
    have hmk := (mem_range.mp hm).trans hjk
    rw [ht.entrySum_old m hlt, ht.entrySum_old m hjk, ht.pivot_old hk d flag hmk]
  · rw [heq, ← ht.row_equation htree hA hk hp h hjk, ht.entrySum_new hk h hjk]
    congr 1
    apply sum_congr rfl
    intro m hm
    have hmk := (mem_range.mp hm).trans hjk
    rw [ht.entrySum_new hk h hmk, ht.entrySum_old m hjk, ht.pivot_old hk d flag hmk]

theorem Eliminated.sum_old (hk : k < A.cols)
    (ht : Eliminated A colptr k s content p p.columns w t) (d : K) (flag : Bool) {i : Nat}
    (hi : i < k) :
    ∑ m ∈ range i, entrySum (s.nextContent content k p w m) i *
        (t.withPivot k d flag).pivots.getD m 0 * entrySum (s.nextContent content k p w m) i =
      ∑ m ∈ range i, entrySum (content m) i * s.pivots.getD m 0 * entrySum (content m) i := by
  apply sum_congr rfl
  intro m hm
  rw [ht.entrySum_old m hi, ht.pivot_old hk d flag ((mem_range.mp hm).trans hi)]

theorem Eliminated.sum_new (hk : k < A.cols)
    (hp : IsPattern parent k A.cols (A.column k) p)
    (h : Factored A parent colptr signs reg k s content replaced)
    (ht : Eliminated A colptr k s content p p.columns w t) (d : K) (flag : Bool) :
    ∑ m ∈ range k, entrySum (s.nextContent content k p w m) k *
        (t.withPivot k d flag).pivots.getD m 0 * entrySum (s.nextContent content k p w m) k +
      t.pivots.getD k 0 = lastEntry (A.column k) k := by
  rw [← ht.pivot_equation hk hp h]
  congr 1
  apply sum_congr rfl
  intro m hm
  have hmk := mem_range.mp hm
  rw [ht.entrySum_new hk h hmk, ht.pivot_old hk _ flag hmk]

theorem Eliminated.succ_pivot (hk : k < A.cols)
    (hp : IsPattern parent k A.cols (A.column k) p)
    (h : Factored A parent colptr signs reg k s content replaced)
    (ht : Eliminated A colptr k s content p p.columns w t) {d : K} (flag : Bool) {i : Nat}
    (hi : i < k + 1) (hold : i < k → i ∉ replaced) (hnew : i = k → d = t.pivots.getD k 0) :
    ∑ m ∈ range i, entrySum (s.nextContent content k p w m) i *
        (t.withPivot k d flag).pivots.getD m 0 * entrySum (s.nextContent content k p w m) i +
      (t.withPivot k d flag).pivots.getD i 0 = lastEntry (A.column i) i := by
  rcases Nat.lt_succ_iff_lt_or_eq.mp hi with hlt | heq
  · rw [ht.sum_old hk d flag hlt, ht.pivot_old hk d flag hlt]
    exact h.pivot i hlt (hold hlt)
  · rw [heq, ht.pivot_new hk d flag, hnew heq]
    exact ht.sum_new hk hp h _ flag

theorem Eliminated.succ_inverse (hk : k < A.cols)
    (h : Factored A parent colptr signs reg k s content replaced)
    (ht : Eliminated A colptr k s content p p.columns w t) {d : K} (flag : Bool) (hd : d ≠ 0)
    {i : Nat} (hi : i < k + 1) : (t.withPivot k d flag).pivots.getD i 0 *
      (t.withPivot k d flag).inverses.getD i 0 = 1 := by
  have hinverses : (t.withPivot k d flag).inverses = s.inverses.setIfInBounds k (recip d) := by
    rw [← ht.inverses_eq]
    rfl
  rw [hinverses]
  rcases Nat.lt_succ_iff_lt_or_eq.mp hi with hlt | heq
  · rw [ht.pivot_old hk d flag hlt, getD_setIfInBounds_ne _ _ _ hlt.ne']
    exact h.inverse i hlt
  · rw [heq, ht.pivot_new hk d flag,
      getD_setIfInBounds_self _ _ _ (by rw [h.size_inverses]; exact hk)]
    exact mul_one_div_cancel hd

theorem Eliminated.succ_positive (hk : k < A.cols)
    (h : Factored A parent colptr signs reg k s content replaced)
    (ht : Eliminated A colptr k s content p p.columns w t) (d : K) (flag : Bool) :
    (t.withPivot k d flag).positive =
      #{i ∈ range (k + 1) | 0 < (t.withPivot k d flag).pivots.getD i 0} := by
  have hfilter : {i ∈ range k | 0 < (t.withPivot k d flag).pivots.getD i 0} =
      {i ∈ range k | 0 < s.pivots.getD i 0} := by
    apply filter_congr
    intro i hi
    rw [ht.pivot_old hk d flag (mem_range.mp hi)]
  have hpositive : (t.withPivot k d flag).positive =
      if 0 < d then s.positive + 1 else s.positive := by
    rw [← ht.positive_eq]
    rfl
  rw [hpositive, range_add_one, filter_insert, ht.pivot_new hk d flag, hfilter]
  by_cases hpos : 0 < d
  · rw [if_pos hpos, if_pos hpos, card_insert_of_notMem (by simp), h.positive]
  · rw [if_neg hpos, if_neg hpos, h.positive]

/-- With its pivot the new row satisfies the equations of the factorization. -/
theorem Eliminated.succ (htree : IsEliminationTree A parent A.cols) (hA : A.IsUpper)
    (hk : k < A.cols) (hp : IsPattern parent k A.cols (A.column k) p)
    (h : Factored A parent colptr signs reg k s content replaced)
    (ht : Eliminated A colptr k s content p p.columns w t) {d : K} {flag : Bool} (hd : d ≠ 0)
    (hpivot : IsPivot reg (signs.getD k 0) (t.pivots.getD k 0) d flag) :
    Factored A parent colptr signs reg (k + 1) (t.withPivot k d flag)
      (s.nextContent content k p w) (if flag then insert k replaced else replaced) := by
  have hnew : k ∉ replaced := fun hmem =>
    Nat.lt_irrefl k (mem_range.mp (h.replaced_subset hmem))
  have hmem : ∀ i, i ∈ (if flag then insert k replaced else replaced) ↔
      (flag = true ∧ i = k) ∨ i ∈ replaced := by
    intro i
    cases flag with
    | false => simp
    | true => simp
  refine ⟨ht.placed htree hk hp.toCollects h.toPlaced d flag,
    fun i hi j hj => ht.succ_lower htree hA hk hp h d flag hi hj, ?_, ?_, ?_, ?_, ?_,
    fun i hi => ht.succ_inverse hk h flag hd hi, ht.succ_positive hk h d flag⟩
  · intro i hi hnot
    rw [hmem i, not_or] at hnot
    apply ht.succ_pivot hk hp h flag hi (fun _ => hnot.right)
    intro heq
    rcases hpivot with hkept | hflag
    · exact hkept.2.1
    · exact absurd ⟨hflag.left, heq⟩ hnot.left
  · intro i hi
    rcases (hmem i).mp hi with ⟨_, heq⟩ | hin
    · rw [heq]
      exact mem_range.mpr (Nat.lt_succ_self k)
    · exact mem_range.mpr ((mem_range.mp (h.replaced_subset hin)).trans (Nat.lt_succ_self k))
  · cases flag with
    | false => exact h.replaced_card.trans ht.regularized_eq.symm
    | true =>
        rw [if_pos rfl, card_insert_of_notMem hnew, h.replaced_card, ← ht.regularized_eq]
        rfl
  · intro i hi
    rcases (hmem i).mp hi with ⟨hflag, heq⟩ | hin
    · rcases hpivot with hkept | hrep
      · exact absurd (hflag.symm.trans hkept.left) (by simp)
      · rcases hrep.right with ⟨r, hr, hreplaced, _⟩
        rw [heq, ht.pivot_new hk d flag]
        exact ⟨r, hr, hreplaced⟩
    · rw [ht.pivot_old hk d flag (mem_range.mp (h.replaced_subset hin))]
      exact h.replaced_pivot i hin
  · intro i hi r hr
    rcases (hmem i).mp hi with ⟨hflag, heq⟩ | hin
    · rcases hpivot with hkept | ⟨_, r', hr', _, hsmall⟩
      · exact absurd (hflag.symm.trans hkept.left) (by simp)
      · rw [hr] at hr'
        rw [heq, sub_eq_iff_eq_add'.mpr (ht.sum_new hk hp h d flag).symm, Option.some.inj hr']
        exact hsmall
    · rw [ht.sum_old hk d flag (mem_range.mp (h.replaced_subset hin))]
      exact h.replaced_small i hin r hr

/-- A step factors one more row, or ends in a pivot that is zero and not mended. -/
theorem Factored.step (htree : IsEliminationTree A parent A.cols) (hA : A.IsUpper)
    (hcolptr : Reserves A parent colptr) (hsigns : signs.size = A.cols) (hk : k < A.cols)
    (h : Factored A parent colptr signs reg k s content replaced) :
    Outcome
      (fun u => ∃ content' replaced',
        Factored A parent colptr signs reg (k + 1) u content' replaced')
      (fun e => e = .zeroPivot ∧ ¬MendsZeros reg) (s.step A parent colptr signs reg k) := by
  rcases pattern_eq_ok htree.rising htree.size hk (hA.row_le k hk) h.size_row h.row_zero
    h.size_visited h.not_visited with ⟨p, hpattern, hp⟩
  rcases eliminate_columns htree hcolptr hk hp h with ⟨t, hcolumns, w, ht⟩
  have hfinish := finishPivot_isPivot reg (hk.trans_eq hsigns.symm)
    (hk.trans_eq ht.size_pivots.symm) (hk.trans_eq (ht.size_inverses h.toPlaced).symm)
  rw [h.step_eq hA hk hpattern, hcolumns, ok_bind]
  rcases hfinish with ⟨u, hu, d, flag, heq, hd, hpivot⟩ | herror
  · exact Or.inl ⟨u, hu, _, _, heq ▸ ht.succ htree hA hk hp h hd hpivot⟩
  · exact Or.inr herror

end Step

/-!
## All steps
-/

theorem factorNumeric_outcome {A : Csc K} {parent : Array (Option Nat)} {counts : Array Nat}
    {signs : Array Int} (reg : Option (Regularization K)) (hA : A.IsUpper)
    (htree : IsEliminationTree A parent A.cols) (hcounts : counts.size = A.cols)
    (hcount : ∀ c < A.cols, counts.getD c 0 = takenBy A parent A.cols c)
    (hsigns : signs.size = A.cols) :
    Outcome
      (fun s => ∃ content replaced,
        Factored A parent (offsets counts) signs reg A.cols s content replaced)
      (fun e => e = .zeroPivot ∧ ¬MendsZeros reg)
      (factorNumeric A parent (offsets counts) signs reg) := by
  have hstart : Factored A parent (offsets counts) signs reg 0
      (NumericState.initial A.cols (offsets counts)) (fun _ => []) ∅ := by
    have hnone : ∀ {P : Nat → Prop}, ∀ i < 0, P i := fun i hi => absurd hi (Nat.not_lt_zero i)
    exact ⟨placed_initial hcounts, hnone, hnone, by simp, by simp [NumericState.initial],
      by simp, by simp, hnone, by simp [NumericState.initial]⟩
  refine foldlM_range_outcome
    (fun k s => ∃ content replaced,
      Factored A parent (offsets counts) signs reg k s content replaced)
    _ (NumericState.step A parent (offsets counts) signs reg) A.cols _ ⟨_, _, hstart⟩ ?_
  rintro k hk s ⟨content, replaced, h⟩
  exact h.step htree hA (reserves_offsets hcounts hcount) hsigns hk

end Ldl
end SoftMargin
