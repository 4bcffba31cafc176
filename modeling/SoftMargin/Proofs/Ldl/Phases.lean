import SoftMargin.Proofs.Ldl.Factor

/-!
# The two phases of a factorization

The first phase walks up the tree while it is being built, and counts. The
second walks up the finished tree, and writes. They meet the same nodes: every
entry goes to a place that was counted for its column, and when no pivot stops
the second phase all places are taken. This holds for every pattern of entries
and in every arithmetic.
-/

namespace SoftMargin
namespace Ldl

open Scalar

variable {α : Type} [Scalar α]

/-!
## Walks
-/

/-- Where parents come later no walk goes on for ever. -/
theorem Rising.walk_ends {parent : Array (Option Nat)} {n : Nat} (h : Rising parent n)
    (walk : Nat → Nat) : ∃ m ≤ n, parent.getD (walk m) none ≠ some (walk (m + 1)) := by
  by_contra! hclimbs
  have hhigh : ∀ m ≤ n, m < walk (m + 1) := by
    intro m
    induction m with
    | zero =>
        intro hm
        have hfirst := (h _ _ (hclimbs 0 hm)).left
        omega
    | succ m ih =>
        intro hm
        have hbefore := ih (by omega)
        have hnext := (h _ _ (hclimbs (m + 1) hm)).left
        omega
  have hlast := (h _ _ (hclimbs n (le_refl n))).right
  have hbeyond := hhigh n (le_refl n)
  omega

/-!
## Writes
-/

def stateBefore (A : Csc α) (parent : Array (Option Nat)) (colptr : Array Nat)
    (signs : Array Int) (reg : Option (Regularization α)) (k : Nat) :
    Except LdlError (NumericState α) :=
  (List.range k).foldlM (NumericState.step A parent colptr signs reg)
    (NumericState.initial A.cols colptr)

/-- The scratch row is zero, and no column is marked. -/
structure NumericState.IsCleared (s : NumericState α) (n : Nat) : Prop where
  size_row : s.row.size = n
  row_zero : ∀ i, s.row.getD i 0 = 0
  size_visited : s.visited.size = n
  not_visited : ∀ i, s.visited.getD i false = false

/-- From the first state to the second, an entry of row `k` is written into the first free place of
column `c`, which is one of those that the column has. -/
structure WritesInto (colptr counts : Array Nat) (k c : Nat) (t u : NumericState α) : Prop where
  first_le : colptr.getD c 0 ≤ t.next.getD c 0
  lt_last : t.next.getD c 0 < colptr.getD c 0 + counts.getD c 0
  rowval_eq : u.rowval = t.rowval.setIfInBounds (t.next.getD c 0) k
  nzval_eq : ∃ v, u.nzval = t.nzval.setIfInBounds (t.next.getD c 0) v
  next_eq : u.next = t.next.setIfInBounds c (t.next.getD c 0 + 1)

/-- Step `k` from a state: the walks of its column end and give a pattern, the columns of the
pattern are treated in turn, each of them is written within its places, and choosing the pivot
writes no more. -/
structure StepStaysWithin (A : Csc α) (parent : Array (Option Nat)) (colptr counts : Array Nat)
    (signs : Array Int) (reg : Option (Regularization α)) (k : Nat) (s : NumericState α)
    (p : Pattern α) : Prop where
  pattern_eq : (A.column k).foldlM (Pattern.addEntry parent k (A.cols + 1))
    { diagonal := 0, row := s.row, visited := s.visited, columns := [] } = .ok p
  step_eq : s.step A parent colptr signs reg k =
    p.columns.foldlM (NumericState.eliminate colptr k) (s.withPattern k p) >>=
      fun t => t.finishPivot reg signs k
  writes : ∀ done c todo, p.columns = done ++ c :: todo → ∃ t u,
    done.foldlM (NumericState.eliminate colptr k) (s.withPattern k p) = .ok t ∧
      t.eliminate colptr k c = .ok u ∧ WritesInto colptr counts k c t u
  keeps : ∀ t u : NumericState α, t.finishPivot reg signs k = .ok u →
    u.rowval = t.rowval ∧ u.nzval = t.nzval ∧ u.next = t.next

/-- Every column of the factor is full, with rows that rise from below its diagonal. -/
structure FillsPlaces (n : Nat) (colptr counts : Array Nat) (s : NumericState α) : Prop where
  next_eq : ∀ c < n, s.next.getD c 0 = colptr.getD (c + 1) 0
  length_column : ∀ c < n,
    ((Csc.mk n n colptr s.rowval s.nzval).column c).length = counts.getD c 0
  rises : ∀ c < n,
    (((Csc.mk n n colptr s.rowval s.nzval).column c).map (·.1)).Pairwise (· < ·)
  lower : ∀ c < n, ∀ e ∈ (Csc.mk n n colptr s.rowval s.nzval).column c, c < e.1 ∧ e.1 < n
  checkFormat_eq : (Csc.mk n n colptr s.rowval s.nzval).checkFormat = .ok ()

section Matrix

variable {A : Csc α} {parent : Array (Option Nat)} {counts : Array Nat} {signs : Array Int}
  {reg : Option (Regularization α)} {k : Nat} {s : NumericState α}
  {content : Nat → List (Nat × α)}

theorem finishPivot_keeps {t u : NumericState α} (h : t.finishPivot reg signs k = .ok u) :
    u.rowval = t.rowval ∧ u.nzval = t.nzval ∧ u.next = t.next := by
  unfold NumericState.finishPivot at h
  rcases bind_eq_ok.mp h with ⟨sign, _, h⟩
  rcases bind_eq_ok.mp h with ⟨left, _, h⟩
  dsimp only at h
  split at h
  · cases h
  · rcases bind_eq_ok.mp h with ⟨pivots, _, h⟩
    rcases bind_eq_ok.mp h with ⟨inverses, _, h⟩
    cases h
    exact ⟨rfl, rfl, rfl⟩

theorem Placed.isCleared {colptr : Array Nat} (h : Placed A parent colptr k s content) :
    s.IsCleared A.cols :=
  ⟨h.size_row, h.row_zero, h.size_visited, h.not_visited⟩

theorem Placed.stepStaysWithin (h : Placed A parent (offsets counts) k s content)
    (hA : A.IsUpper) (htree : IsEliminationTree A parent A.cols) (hcounts : counts.size = A.cols)
    (hcount : ∀ c < A.cols, counts.getD c 0 = takenBy A parent A.cols c) (hk : k < A.cols) :
    ∃ p, StepStaysWithin A parent (offsets counts) counts signs reg k s p := by
  have hcolptr := reserves_offsets hcounts hcount
  rcases collects_eq_ok htree.rising htree.size hk (hA.row_le k hk) h.size_row h.row_zero
    h.size_visited h.not_visited with ⟨p, hpattern, hp⟩
  refine ⟨p, hpattern, h.step_eq hA hk hpattern, ?_, fun t u => finishPivot_keeps⟩
  intro done c todo hsplit
  rcases h.eliminate_columns htree hcolptr hk hp hsplit with ⟨t, ht, v, htreated⟩
  rcases htreated.eliminate_eq htree hcolptr hk hp h hsplit with ⟨hfirst, hfree, hu⟩
  have hc : c < counts.size := by
    have hmem : c ∈ p.columns := by
      rw [hsplit]
      exact List.mem_append_right _ List.mem_cons_self
    rw [hcounts]
    exact (hp.lt c hmem).trans hk
  rw [getD_offsets_succ counts hc] at hfree
  exact ⟨t, _, ht, hu, hfirst, hfree, rfl, ⟨_, rfl⟩, rfl⟩

theorem Placed.fillsPlaces (h : Placed A parent (offsets counts) A.cols s content)
    (hcounts : counts.size = A.cols)
    (hcount : ∀ c < A.cols, counts.getD c 0 = takenBy A parent A.cols c) :
    FillsPlaces A.cols (offsets counts) counts s := by
  have hcolptr := reserves_offsets hcounts hcount
  refine ⟨fun c hc => h.next_eq hcolptr hc, ?_, ?_, ?_,
    h.checkFormat_eq hcolptr (getD_offsets_zero counts)⟩
  · intro c hc
    rw [h.column_eq hcolptr hc, h.length_content c hc, hcount c hc]
  · intro c hc
    rw [h.column_eq hcolptr hc, List.pairwise_map]
    exact h.sorted c hc
  · intro c hc e he
    rw [h.column_eq hcolptr hc] at he
    have hrow := h.rows c hc e he
    exact ⟨hrow.left, hrow.2.1⟩

end Matrix

/-!
## The phases of a matrix in an order of elimination
-/

theorem exists_reserved {A : Csc α} (hA : A.IsUpper) {order : Array Nat}
    (horder : IsOrder order A.cols) : ∃ B parent counts,
      permuteSymmetric A (inverseOrder order) = .ok B ∧ B.IsUpper ∧ B.cols = A.cols ∧
      eliminationTree B = .ok (parent, counts) ∧ IsEliminationTree B parent B.cols ∧
      counts.size = B.cols ∧ ∀ c < B.cols, counts.getD c 0 = takenBy B parent B.cols c := by
  have hsize : (inverseOrder order).size = A.cols := by
    rw [size_inverseOrder, horder.size_eq]
  rcases permuteSymmetric_eq_ok hA hsize (fun i hi => inverseOrder_lt horder hi) with
    ⟨B, hB, hupper, hcols, _⟩
  rcases eliminationTree_eq_ok hupper with ⟨parent, counts, htree, hspec, hcounts, hcount⟩
  exact ⟨B, parent, counts, hB, hupper, hcols, htree, hspec, hcounts, hcount⟩

/-- Whatever the entries of the matrix, their order, and the order of elimination: the tree leads
up, so that its walks end; the second phase comes to each step with cleared vectors, writes within
the places that the first phase has counted, and stops only at a pivot; and if it does not stop it
fills them all, with rows that rise below the diagonal. -/
theorem phases_agree {A : Csc α} (hA : A.IsUpper) {order : Array Nat}
    (horder : IsOrder order A.cols) {signs : Array Int} (hsigns : signs.size = A.cols)
    (reg : Option (Regularization α)) :
    ∃ B parent counts, permuteSymmetric A (inverseOrder order) = .ok B ∧ B.cols = A.cols ∧
      eliminationTree B = .ok (parent, counts) ∧
      (∀ i p, parent.getD i none = some p → i < p ∧ p < A.cols) ∧
      (∀ walk : Nat → Nat, ∃ m ≤ A.cols, parent.getD (walk m) none ≠ some (walk (m + 1))) ∧
      (∀ k < A.cols, ∀ s, stateBefore B parent (offsets counts) signs reg k = .ok s →
        s.IsCleared A.cols ∧
          ∃ p, StepStaysWithin B parent (offsets counts) counts signs reg k s p) ∧
      (∀ e, factorNumeric B parent (offsets counts) signs reg = .error e → e = .zeroPivot) ∧
      ∀ s, factorNumeric B parent (offsets counts) signs reg = .ok s →
        FillsPlaces A.cols (offsets counts) counts s := by
  rcases exists_reserved hA horder with
    ⟨B, parent, counts, hB, hupper, hcols, htree, hspec, hcounts, hcount⟩
  rw [← hcols] at hsigns ⊢
  have hbefore := fun {k : Nat} (hk : k ≤ B.cols) =>
    steps_outcome reg hupper hspec hcounts hcount hsigns hk
  refine ⟨B, parent, counts, hB, rfl, htree, hspec.rising, hspec.rising.walk_ends, ?_, ?_, ?_⟩
  · intro k hk s hs
    rcases (hbefore hk.le).of_ok hs with ⟨content, hplaced⟩
    exact ⟨hplaced.isCleared, hplaced.stepStaysWithin hupper hspec hcounts hcount hk⟩
  · intro e he
    rcases hbefore (le_refl B.cols) with ⟨s, hs, _⟩ | ⟨e', he', hzero⟩
    · rw [show factorNumeric B parent (offsets counts) signs reg = .ok s from hs] at he
      cases he
    · rw [show factorNumeric B parent (offsets counts) signs reg = .error e' from he'] at he
      cases he
      exact hzero
  · intro s hs
    rcases (hbefore (le_refl B.cols)).of_ok hs with ⟨content, hplaced⟩
    exact hplaced.fillsPlaces hcounts hcount

/-- A matrix with unsorted rows, with two entries at one position, and without a diagonal entry in
its third column. -/
def scattered : Csc ℚ :=
  ⟨4, 4, #[0, 1, 3, 5, 8], #[0, 1, 0, 0, 0, 3, 1, 0], #[4, 3, 1, 5, 2, 1, 1, 1]⟩

/-- In this order the tree branches, and its first column has no entry of its own. -/
theorem phases_agree_scattered :
    let order := #[2, 3, 1, 0]
    let counts := #[1, 2, 1, 0]
    let signs := #[1, 1, 1, 1]
    let reg : Option (Regularization ℚ) := some ⟨1 / 1000, 1 / 10⟩
    ∃ B parent s, permuteSymmetric scattered (inverseOrder order) = .ok B ∧
      eliminationTree B = .ok (parent, counts) ∧
      (∀ k < 4, ∀ t, stateBefore B parent (offsets counts) signs reg k = .ok t →
        t.IsCleared 4 ∧ ∃ p, StepStaysWithin B parent (offsets counts) counts signs reg k t p) ∧
      factorNumeric B parent (offsets counts) signs reg = .ok s ∧
      s.rowval = #[3, 2, 3, 3] ∧ FillsPlaces 4 (offsets counts) counts s := by
  intro order counts signs reg
  have hupper : scattered.IsUpper :=
    ⟨rfl, by decide, by decide, by decide, by decide, by decide +kernel⟩
  have horder : IsOrder order scattered.cols := by
    unfold IsOrder
    decide
  obtain ⟨B, parent, found, hB, _, htree, _, _, hsteps, _, hfills⟩ :=
    phases_agree hupper horder (rfl : signs.size = 4) reg
  have hrun : ((permuteSymmetric scattered (inverseOrder order)).toOption.bind fun B =>
      (eliminationTree B).toOption.bind fun tree =>
        (factorNumeric B tree.1 (offsets tree.2) signs reg).toOption.map fun s =>
          (tree.2, s.rowval)) = some (counts, #[3, 2, 3, 3]) := by decide +kernel
  rw [hB] at hrun
  simp only [Except.toOption, Option.bind_some, htree] at hrun
  cases hs : factorNumeric B parent (offsets found) signs reg with
  | error e =>
      rw [hs] at hrun
      cases hrun
  | ok s =>
      rw [hs] at hrun
      obtain ⟨rfl, hrows⟩ := Prod.mk.inj (Option.some.inj hrun)
      exact ⟨B, parent, s, hB, htree, hsteps, hs, hrows, hfills s hs⟩

end Ldl
end SoftMargin
