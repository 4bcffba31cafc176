import SoftMargin.Proofs.Ldl.Pattern
import SoftMargin.Proofs.Sparse.Format

/-!
# The places of the factor

The tree reserves a place for each entry of the factor before any of them is
known. A step gives an entry to the columns that its own column takes up, and to
no others, so that every column is full when all steps are done and never before.
Nothing here depends on the values: the scalars may be of any type.
-/

namespace SoftMargin
namespace Ldl

open Scalar

/-!
## Columns that gain an entry
-/

def withRow {α : Type} (content : Nat → List (Nat × α)) (k : Nat) (done : List Nat) (v : Nat → α)
    (c : Nat) : List (Nat × α) :=
  if c ∈ done then content c ++ [(k, v c)] else content c

theorem withRow_of_mem {α : Type} (content : Nat → List (Nat × α)) (k : Nat) {done : List Nat}
    (v : Nat → α) {c : Nat} (hc : c ∈ done) :
    withRow content k done v c = content c ++ [(k, v c)] :=
  if_pos hc

theorem withRow_of_not_mem {α : Type} (content : Nat → List (Nat × α)) (k : Nat)
    {done : List Nat} (v : Nat → α) {c : Nat} (hc : c ∉ done) :
    withRow content k done v c = content c :=
  if_neg hc

theorem withRow_concat {α : Type} (content : Nat → List (Nat × α)) (k : Nat) {done : List Nat}
    (v : Nat → α) {c : Nat} (hc : c ∉ done) (x : α) :
    Function.update (withRow content k done v) c (withRow content k done v c ++ [(k, x)]) =
      withRow content k (done ++ [c]) (Function.update v c x) := by
  funext d
  by_cases hdc : d = c
  · subst hdc
    rw [Function.update_self, withRow_of_not_mem _ _ _ hc, withRow_of_mem _ _ _ (by simp),
      Function.update_self]
  · rw [Function.update_of_ne hdc]
    unfold withRow
    rw [Function.update_of_ne hdc]
    exact if_congr (by simp [hdc]) rfl rfl

variable {α : Type} [Scalar α]

/-!
## Subtracting a column
-/

def subtracted (es : List (Nat × α)) (y : α) (row : Array α) : Array α :=
  es.foldl (fun row e => row.setIfInBounds e.1 (row.getD e.1 0 - e.2 * y)) row

@[simp] theorem size_subtracted (es : List (Nat × α)) (y : α) (row : Array α) :
    (subtracted es y row).size = row.size := by
  unfold subtracted
  induction es generalizing row with
  | nil => rfl
  | cons e rest ih => rw [List.foldl_cons, ih, Array.size_setIfInBounds]

theorem subtracted_concat (es : List (Nat × α)) (e : Nat × α) (y : α) (row : Array α) :
    subtracted (es ++ [e]) y row = (subtracted es y row).setIfInBounds e.1
      ((subtracted es y row).getD e.1 0 - e.2 * y) := by
  unfold subtracted
  rw [List.foldl_append]
  rfl

theorem getD_subtracted_of_ne {es : List (Nat × α)} {i : Nat} (h : ∀ e ∈ es, e.1 ≠ i) (y : α)
    (row : Array α) : (subtracted es y row).getD i 0 = row.getD i 0 := by
  induction es using List.reverseRecOn with
  | nil => rfl
  | append_singleton es e ih =>
      rw [subtracted_concat, getD_setIfInBounds_ne _ _ _ (h e (by simp))]
      exact ih fun d hd => h d (List.mem_append_left _ hd)

theorem subtractColumn_eq_ok {s : NumericState α} {first c : Nat} (y : α) {row : Array α}
    (hc : c < s.next.size) (hfirst : first ≤ s.next.getD c 0)
    (hrow : s.next.getD c 0 ≤ s.rowval.size) (hval : s.next.getD c 0 ≤ s.nzval.size)
    (hrows : ∀ e ∈ Csc.stored s.rowval s.nzval first (s.next.getD c 0), e.1 < row.size) :
    subtractColumn first s c y row =
      .ok (subtracted (Csc.stored s.rowval s.nzval first (s.next.getD c 0)) y row) := by
  have hloop := foldlM_range'_outcome
    (fun t row' => row' = subtracted (Csc.stored s.rowval s.nzval first (first + t)) y row)
    (fun _ : LdlError => False)
    (fun row ptr => do
      let r ← read s.rowval ptr
      let v ← read s.nzval ptr
      write row r ((← read row r) - v * y))
    first (s.next.getD c 0 - first) row (by
      simp [Csc.stored, subtracted]) (by
      rintro t ht row' rfl
      have hr : first + t < s.rowval.size := by omega
      have hv : first + t < s.nzval.size := by omega
      have hlt : t < (Csc.stored s.rowval s.nzval first (s.next.getD c 0)).length := by
        rw [Csc.length_stored hrow hval]
        exact ht
      have hbound := hrows _ (List.getElem_mem hlt)
      rw [Csc.getElem_stored hrow hval (by omega) hlt] at hbound
      rw [read_of_lt s.rowval 0 hr, ok_bind, read_of_lt s.nzval 0 hv, ok_bind,
        getD_of_lt s.rowval 0 hr, getD_of_lt s.nzval 0 hv,
        read_of_lt _ 0 (by rw [size_subtracted]; exact hbound), ok_bind,
        write_of_lt _ (by rw [size_subtracted]; exact hbound), ← Nat.add_assoc,
        Csc.stored_succ (Nat.le_add_right first t) hr hv, subtracted_concat]
      exact Or.inl ⟨_, rfl, rfl⟩)
  rcases hloop.exists_ok with ⟨row', hrow', hvalue⟩
  rw [Nat.add_sub_cancel' hfirst] at hvalue
  unfold subtractColumn
  rw [read_of_lt s.next 0 hc, ok_bind, ← hvalue]
  exact hrow'

/-!
## The state between steps
-/

/-- Each column of the factor has a place for every column that takes it up. -/
structure Reserves (A : Csc α) (parent : Array (Option Nat)) (colptr : Array Nat) : Prop where
  size : colptr.size = A.cols + 1
  succ : ∀ c < A.cols, colptr.getD (c + 1) 0 = colptr.getD c 0 + takenBy A parent A.cols c

omit [Scalar α] in
theorem reserves_offsets {A : Csc α} {parent : Array (Option Nat)} {counts : Array Nat}
    (hcounts : counts.size = A.cols)
    (hcount : ∀ c < A.cols, counts.getD c 0 = takenBy A parent A.cols c) :
    Reserves A parent (offsets counts) := by
  refine ⟨by rw [size_offsets, hcounts], ?_⟩
  intro c hc
  rw [getD_offsets_succ counts (by omega), hcount c hc]

/-- The factor has its first `k` rows. Column `c` holds the entries `content c`, one for each step
that has taken the column up, and the scratch vectors are cleared. -/
structure Placed (A : Csc α) (parent : Array (Option Nat)) (colptr : Array Nat) (k : Nat)
    (s : NumericState α) (content : Nat → List (Nat × α)) : Prop where
  filled : Csc.Filled colptr A.cols s.rowval s.nzval s.next content
  size_rowval : s.rowval.size = colptr.getD A.cols 0
  size_nzval : s.nzval.size = colptr.getD A.cols 0
  size_pivots : s.pivots.size = A.cols
  size_inverses : s.inverses.size = A.cols
  size_row : s.row.size = A.cols
  size_visited : s.visited.size = A.cols
  row_zero : ∀ i, s.row.getD i 0 = 0
  not_visited : ∀ i, s.visited.getD i false = false
  length_content : ∀ c < A.cols, (content c).length = takenBy A parent k c
  rows : ∀ c < A.cols, ∀ e ∈ content c, c < e.1 ∧ e.1 < k ∧ Climbs parent c e.1
  sorted : ∀ c < A.cols, (content c).Pairwise fun d e => d.1 < e.1

/-- The columns in `done` have been treated, and have gained the entries `v` in row `k`. -/
structure Treated (A : Csc α) (colptr : Array Nat) (k : Nat) (s : NumericState α)
    (content : Nat → List (Nat × α)) (p : Pattern α) (done : List Nat) (v : Nat → α)
    (t : NumericState α) : Prop where
  filled : Csc.Filled colptr A.cols t.rowval t.nzval t.next (withRow content k done v)
  size_rowval : t.rowval.size = colptr.getD A.cols 0
  size_nzval : t.nzval.size = colptr.getD A.cols 0
  inverses_eq : t.inverses = s.inverses
  size_pivots : t.pivots.size = A.cols
  size_row : t.row.size = A.cols
  row_zero : ∀ i, i ∈ done ∨ i ∉ p.columns → t.row.getD i 0 = 0
  size_visited : t.visited.size = A.cols
  visited_iff : ∀ i, t.visited.getD i false = true ↔ i ∈ p.columns ∧ i ∉ done

def NumericState.withPattern (s : NumericState α) (k : Nat) (p : Pattern α) : NumericState α :=
  { s with pivots := s.pivots.setIfInBounds k p.diagonal, row := p.row, visited := p.visited }

def NumericState.afterColumn (t : NumericState α) (k c : Nat) (row' : Array α) :
    NumericState α :=
  { t with
    rowval := t.rowval.setIfInBounds (t.next.getD c 0) k
    nzval := t.nzval.setIfInBounds (t.next.getD c 0) (t.row.getD c 0 * t.inverses.getD c 0)
    next := t.next.setIfInBounds c (t.next.getD c 0 + 1)
    pivots := t.pivots.setIfInBounds k
      (t.pivots.getD k 0 - t.row.getD c 0 * (t.row.getD c 0 * t.inverses.getD c 0))
    row := row'.setIfInBounds c 0
    visited := t.visited.setIfInBounds c false }

def NumericState.withPivot (t : NumericState α) (k : Nat) (d : α) (flag : Bool) :
    NumericState α :=
  { t with
    pivots := t.pivots.setIfInBounds k d
    inverses := t.inverses.setIfInBounds k (recip d)
    positive := if 0 < d then t.positive + 1 else t.positive
    regularized := if flag then t.regularized + 1 else t.regularized }

section Step

variable {A : Csc α} {parent : Array (Option Nat)} {colptr : Array Nat} {signs : Array Int}
  {reg : Option (Regularization α)} {k : Nat} {s t : NumericState α}
  {content : Nat → List (Nat × α)} {p : Pattern α} {done todo : List Nat} {c : Nat} {v : Nat → α}

/-!
## Treating a column
-/

theorem Collects.mem_columns_iff (hp : Collects parent k A.cols (A.column k) p)
    (htree : IsEliminationTree A parent A.cols) (c : Nat) :
    c ∈ p.columns ↔ Takes A parent k c := by
  constructor
  · intro hc
    exact ⟨hp.lt c hc, hp.origin c hc⟩
  · intro htake
    rcases htake with ⟨hck, e, he, hclimb⟩
    have hek := (hclimb.le htree.rising).trans_lt hck
    exact hp.mem_of_climbs htree.rising hclimb (hp.rows_mem e he hek) hck

theorem Collects.not_mem_done (hp : Collects parent k A.cols (A.column k) p)
    (hsplit : p.columns = done ++ c :: todo) : c ∉ done := by
  have hnodup := hp.nodup
  rw [hsplit] at hnodup
  intro hc
  exact (List.nodup_append.mp hnodup).2.2 c hc c List.mem_cons_self rfl

theorem Treated.size_inverses (ht : Treated A colptr k s content p done v t)
    (h : Placed A parent colptr k s content) : t.inverses.size = A.cols := by
  rw [ht.inverses_eq, h.size_inverses]

theorem Placed.next_lt (h : Placed A parent colptr k s content)
    (htree : IsEliminationTree A parent A.cols) (hcolptr : Reserves A parent colptr)
    (hk : k < A.cols) (hp : Collects parent k A.cols (A.column k) p) (hc : c ∈ p.columns) :
    s.next.getD c 0 < colptr.getD (c + 1) 0 := by
  have hcn : c < A.cols := (hp.lt c hc).trans hk
  have hsucc := takenBy_succ_of_takes ((hp.mem_columns_iff htree c).mp hc)
  have hmono := takenBy_mono A parent (j := k + 1) hk c
  rw [h.filled.next_eq c hcn, hcolptr.succ c hcn, h.length_content c hcn]
  omega

/-- The rows in which a column of the step has entries belong to columns that are still to be
treated. -/
theorem Placed.row_pending (h : Placed A parent colptr k s content)
    (htree : IsEliminationTree A parent A.cols) (hk : k < A.cols)
    (hp : Collects parent k A.cols (A.column k) p) (hsplit : p.columns = done ++ c :: todo)
    {e : Nat × α} (he : e ∈ content c) : e.1 ∈ p.columns ∧ e.1 ∉ done := by
  have hmem : c ∈ p.columns := by
    rw [hsplit]
    exact List.mem_append_right _ List.mem_cons_self
  rcases h.rows c ((hp.lt c hmem).trans hk) e he with ⟨_, hek, hclimb⟩
  refine ⟨hp.mem_of_climbs htree.rising hclimb hmem hek, ?_⟩
  intro hdone
  have hordered := hp.ordered
  rw [hsplit] at hordered
  exact (List.pairwise_append.mp hordered).2.2 e.1 hdone c List.mem_cons_self hclimb

theorem Treated.eliminate_eq (ht : Treated A colptr k s content p done v t)
    (htree : IsEliminationTree A parent A.cols) (hcolptr : Reserves A parent colptr)
    (hk : k < A.cols) (hp : Collects parent k A.cols (A.column k) p)
    (h : Placed A parent colptr k s content) (hsplit : p.columns = done ++ c :: todo) :
    colptr.getD c 0 ≤ t.next.getD c 0 ∧ t.next.getD c 0 < colptr.getD (c + 1) 0 ∧
      t.eliminate colptr k c =
        .ok (t.afterColumn k c (subtracted (content c) (t.row.getD c 0) t.row)) := by
  have hmem : c ∈ p.columns := by
    rw [hsplit]
    exact List.mem_append_right _ List.mem_cons_self
  have hcn : c < A.cols := (hp.lt c hmem).trans hk
  have hdone := hp.not_mem_done hsplit
  -- nothing of this step stands in the column yet
  have hstored : Csc.stored t.rowval t.nzval (colptr.getD c 0) (t.next.getD c 0) = content c := by
    rw [ht.filled.content_eq c hcn, withRow_of_not_mem _ _ _ hdone]
  have hnext : t.next.getD c 0 = s.next.getD c 0 := by
    rw [ht.filled.next_eq c hcn, withRow_of_not_mem _ _ _ hdone, h.filled.next_eq c hcn]
  have hfree : t.next.getD c 0 < colptr.getD (c + 1) 0 := by
    rw [hnext]
    exact h.next_lt htree hcolptr hk hp hmem
  have hroom : t.next.getD c 0 < colptr.getD A.cols 0 :=
    hfree.trans_le (ht.filled.colptr_mono hcn (le_refl _))
  have hrowval := ht.filled.rowval_room
  have hnzval := ht.filled.nzval_room
  have hfirst : colptr.getD c 0 ≤ t.next.getD c 0 := by
    rw [ht.filled.next_eq c hcn]
    exact Nat.le_add_right _ _
  have hnextSize : c < t.next.size := by
    rw [ht.filled.size_next]
    exact hcn
  have hinverses : c < t.inverses.size := hcn.trans_eq (ht.size_inverses h).symm
  have hrowSize : c < t.row.size := by
    rw [ht.size_row]
    exact hcn
  have hpivots : k < t.pivots.size := by
    rw [ht.size_pivots]
    exact hk
  have hvisited : c < t.visited.size := by
    rw [ht.size_visited]
    exact hcn
  have hrows : ∀ e ∈ Csc.stored t.rowval t.nzval (colptr.getD c 0) (t.next.getD c 0),
      e.1 < t.row.size := by
    intro e he
    rw [hstored] at he
    have hrow := h.rows c hcn e he
    rw [ht.size_row]
    omega
  have hsubtract := subtractColumn_eq_ok (t.row.getD c 0) hnextSize hfirst (by omega) (by omega)
    hrows
  rw [hstored] at hsubtract
  refine ⟨hfirst, hfree, ?_⟩
  unfold NumericState.eliminate
  rw [read_of_lt t.row 0 hrowSize, ok_bind, read_of_lt colptr 0 (by rw [hcolptr.size]; omega),
    ok_bind, hsubtract, ok_bind, read_of_lt t.inverses 0 hinverses, ok_bind]
  dsimp only
  rw [read_of_lt t.next 0 hnextSize, ok_bind, write_of_lt _ (by omega), ok_bind,
    write_of_lt _ (by omega), ok_bind, write_of_lt _ hnextSize, ok_bind,
    read_of_lt t.pivots 0 hpivots, ok_bind, write_of_lt _ hpivots, ok_bind,
    write_of_lt _ (by rw [size_subtracted]; exact hrowSize), ok_bind, write_of_lt _ hvisited,
    ok_bind]
  rfl

theorem Treated.afterColumn (ht : Treated A colptr k s content p done v t)
    (htree : IsEliminationTree A parent A.cols) (hcolptr : Reserves A parent colptr)
    (hk : k < A.cols) (hp : Collects parent k A.cols (A.column k) p)
    (h : Placed A parent colptr k s content) (hsplit : p.columns = done ++ c :: todo) :
    Treated A colptr k s content p (done ++ [c])
      (Function.update v c (t.row.getD c 0 * t.inverses.getD c 0))
      (t.afterColumn k c (subtracted (content c) (t.row.getD c 0) t.row)) := by
  have hmem : c ∈ p.columns := by
    rw [hsplit]
    exact List.mem_append_right _ List.mem_cons_self
  have hcn : c < A.cols := (hp.lt c hmem).trans hk
  have hdone := hp.not_mem_done hsplit
  have hfree := (ht.eliminate_eq htree hcolptr hk hp h hsplit).2.1
  refine ⟨?_, by simpa [NumericState.afterColumn] using ht.size_rowval,
    by simpa [NumericState.afterColumn] using ht.size_nzval, ht.inverses_eq,
    by simpa [NumericState.afterColumn] using ht.size_pivots,
    by simpa [NumericState.afterColumn] using ht.size_row, ?_,
    by simpa [NumericState.afterColumn] using ht.size_visited, ?_⟩
  · have happend := ht.filled.append hcn hfree k (t.row.getD c 0 * t.inverses.getD c 0)
    rw [withRow_concat content k v hdone] at happend
    exact happend
  · intro i hi
    unfold NumericState.afterColumn
    by_cases hic : c = i
    · subst hic
      rw [getD_setIfInBounds_self _ _ _ (by rw [size_subtracted, ht.size_row]; exact hcn)]
    · -- the entries of the column lie in other rows
      have hold : i ∈ done ∨ i ∉ p.columns := by
        refine hi.imp_left fun hmem => ?_
        exact (List.mem_append.mp hmem).resolve_right fun hlast =>
          hic (List.mem_singleton.mp hlast).symm
      have hother : ∀ e ∈ content c, e.1 ≠ i := by
        rintro e he rfl
        have hpending := h.row_pending htree hk hp hsplit he
        exact hold.elim hpending.right fun hnot => hnot hpending.left
      rw [getD_setIfInBounds_ne _ _ _ hic, getD_subtracted_of_ne hother]
      exact ht.row_zero i hold
  · intro i
    unfold NumericState.afterColumn
    by_cases hic : c = i
    · subst hic
      rw [getD_setIfInBounds_self _ _ _ (by rw [ht.size_visited]; exact hcn)]
      simp
    · rw [getD_setIfInBounds_ne _ _ _ hic, ht.visited_iff i, List.mem_append,
        List.mem_singleton]
      exact and_congr_right fun _ => not_congr (or_iff_left (Ne.symm hic)).symm

theorem Placed.start_treated (h : Placed A parent colptr k s content)
    (hp : Collects parent k A.cols (A.column k) p) :
    Treated A colptr k s content p [] v (s.withPattern k p) := by
  refine ⟨?_, h.size_rowval, h.size_nzval, rfl,
    by simpa [NumericState.withPattern] using h.size_pivots, hp.size_row, ?_, hp.size_visited, ?_⟩
  · have hnone : withRow content k [] v = content := by
      funext c
      exact withRow_of_not_mem _ _ _ List.not_mem_nil
    rw [hnone]
    exact h.filled
  · intro i hi
    exact hp.row_zero i (hi.resolve_left List.not_mem_nil)
  · intro i
    rw [show (s.withPattern k p).visited = p.visited from rfl, hp.visited_iff i]
    simp

theorem Placed.eliminate_columns (h : Placed A parent colptr k s content)
    (htree : IsEliminationTree A parent A.cols) (hcolptr : Reserves A parent colptr)
    (hk : k < A.cols) (hp : Collects parent k A.cols (A.column k) p)
    (hsplit : p.columns = done ++ todo) :
    ∃ t, done.foldlM (NumericState.eliminate colptr k) (s.withPattern k p) = .ok t ∧
      ∃ v, Treated A colptr k s content p done v t := by
  refine foldlM_eq_ok (fun first t => ∃ v, Treated A colptr k s content p first v t) _ done _
    ⟨fun _ => 0, h.start_treated hp⟩ ?_
  rintro first c rest t hfirst ⟨v, ht⟩
  have hsplit' : p.columns = first ++ c :: (rest ++ todo) := by
    rw [hsplit, hfirst, List.append_assoc, List.cons_append]
  exact ⟨_, (ht.eliminate_eq htree hcolptr hk hp h hsplit').2.2, _,
    ht.afterColumn htree hcolptr hk hp h hsplit'⟩

/-!
## The next row
-/

theorem Placed.rows_withRow (h : Placed A parent colptr k s content)
    (htree : IsEliminationTree A parent A.cols) (hk : k < A.cols)
    (hp : Collects parent k A.cols (A.column k) p) (hc : c < A.cols) :
    ∀ e ∈ withRow content k p.columns v c, c < e.1 ∧ e.1 < k + 1 ∧ Climbs parent c e.1 := by
  intro e he
  have hold : e ∈ content c → c < e.1 ∧ e.1 < k + 1 ∧ Climbs parent c e.1 := by
    intro hmem
    rcases h.rows c hc e hmem with ⟨hce, hek, hclimb⟩
    exact ⟨hce, hek.trans (Nat.lt_succ_self k), hclimb⟩
  by_cases hmem : c ∈ p.columns
  · rw [withRow_of_mem _ _ _ hmem] at he
    rcases List.mem_append.mp he with hin | hnew
    · exact hold hin
    · rw [List.mem_singleton.mp hnew]
      rcases hp.origin c hmem with ⟨f, hf, hfc⟩
      have hck := hp.lt c hmem
      exact ⟨hck, Nat.lt_succ_self k, hfc.of_lt htree.rising (htree.climbs k hk f hf) hck⟩
  · rw [withRow_of_not_mem _ _ _ hmem] at he
    exact hold he

theorem Placed.sorted_withRow (h : Placed A parent colptr k s content) (hc : c < A.cols) :
    (withRow content k done v c).Pairwise fun d e => d.1 < e.1 := by
  by_cases hmem : c ∈ done
  · rw [withRow_of_mem _ _ _ hmem, List.pairwise_append]
    refine ⟨h.sorted c hc, List.pairwise_singleton _ _, ?_⟩
    intro d hd e he
    rw [List.mem_singleton.mp he]
    exact (h.rows c hc d hd).2.1
  · rw [withRow_of_not_mem _ _ _ hmem]
    exact h.sorted c hc

theorem Placed.length_withRow (h : Placed A parent colptr k s content)
    (htree : IsEliminationTree A parent A.cols) (hp : Collects parent k A.cols (A.column k) p)
    (hc : c < A.cols) : (withRow content k p.columns v c).length = takenBy A parent (k + 1) c := by
  by_cases hmem : c ∈ p.columns
  · rw [withRow_of_mem _ _ _ hmem, List.length_append, List.length_singleton,
      h.length_content c hc, takenBy_succ_of_takes ((hp.mem_columns_iff htree c).mp hmem)]
  · rw [withRow_of_not_mem _ _ _ hmem, h.length_content c hc,
      takenBy_succ_of_not_takes (fun htake => hmem ((hp.mem_columns_iff htree c).mpr htake))]

theorem Treated.placed (ht : Treated A colptr k s content p p.columns v t)
    (htree : IsEliminationTree A parent A.cols) (hk : k < A.cols)
    (hp : Collects parent k A.cols (A.column k) p) (h : Placed A parent colptr k s content)
    (d : α) (flag : Bool) :
    Placed A parent colptr (k + 1) (t.withPivot k d flag) (withRow content k p.columns v) := by
  refine ⟨ht.filled, ht.size_rowval, ht.size_nzval,
    by simpa [NumericState.withPivot] using ht.size_pivots, ?_, ht.size_row, ht.size_visited,
    fun i => ht.row_zero i (em _), ?_, fun c hc => h.length_withRow htree hp hc,
    fun c hc => h.rows_withRow htree hk hp hc, fun c hc => h.sorted_withRow hc⟩
  · simpa [NumericState.withPivot, ht.inverses_eq] using h.size_inverses
  · intro i
    change t.visited.getD i false = false
    rw [← Bool.not_eq_true, ht.visited_iff i]
    exact fun hand => hand.right hand.left

/-- The pivot that is left over or put in its place is taken, unless it is zero or not finite. -/
theorem finishPivot_outcome (reg : Option (Regularization α)) (hsigns : k < signs.size)
    (hpivots : k < t.pivots.size) (hinverses : k < t.inverses.size) :
    let chosen := regularize reg (signs.getD k 0) (t.pivots.getD k 0)
    Outcome
      (fun u => u = t.withPivot k chosen.1 chosen.2 ∧ same chosen.1 0 = false ∧
        isFinite chosen.1 = true)
      (fun e => e = .zeroPivot ∧ (same chosen.1 0 = true ∨ isFinite chosen.1 = false))
      (t.finishPivot reg signs k) := by
  intro chosen
  unfold NumericState.finishPivot
  rw [read_of_lt signs 0 hsigns, ok_bind, read_of_lt t.pivots 0 hpivots, ok_bind]
  change Outcome _ _ (if same chosen.1 0 || !isFinite chosen.1 then _ else _)
  by_cases hbad : (same chosen.1 0 || !isFinite chosen.1) = true
  · rw [if_pos hbad]
    refine Or.inr ⟨.zeroPivot, rfl, rfl, ?_⟩
    rw [Bool.or_eq_true, Bool.not_eq_true'] at hbad
    exact hbad
  · rw [if_neg hbad, write_of_lt _ hpivots, ok_bind, write_of_lt _ hinverses, ok_bind]
    rw [Bool.not_eq_true, Bool.or_eq_false_iff, Bool.not_eq_false'] at hbad
    exact Or.inl ⟨_, rfl, rfl, hbad⟩

theorem Placed.step_eq (h : Placed A parent colptr k s content) (hA : A.IsUpper) (hk : k < A.cols)
    (hpattern : (A.column k).foldlM (Pattern.addEntry parent k (A.cols + 1))
      { diagonal := 0, row := s.row, visited := s.visited, columns := [] } = .ok p) :
    s.step A parent colptr signs reg k =
      p.columns.foldlM (NumericState.eliminate colptr k) (s.withPattern k p) >>=
        fun t => t.finishPivot reg signs k := by
  unfold NumericState.step
  rw [hA.readColumn_eq hk, ok_bind, hpattern, ok_bind,
    write_of_lt _ (by rw [h.size_pivots]; exact hk), ok_bind]
  rfl

theorem Placed.step (h : Placed A parent colptr k s content) (hA : A.IsUpper)
    (htree : IsEliminationTree A parent A.cols) (hcolptr : Reserves A parent colptr)
    (hsigns : signs.size = A.cols) (hk : k < A.cols) :
    Outcome (fun u => ∃ content', Placed A parent colptr (k + 1) u content') (· = .zeroPivot)
      (s.step A parent colptr signs reg k) := by
  rcases collects_eq_ok htree.rising htree.size hk (hA.row_le k hk) h.size_row h.row_zero
    h.size_visited h.not_visited with ⟨p, hpattern, hp⟩
  rcases h.eliminate_columns htree hcolptr hk hp (List.append_nil _).symm with
    ⟨t, hcolumns, v, ht⟩
  have hfinish := finishPivot_outcome reg (hk.trans_eq hsigns.symm)
    (hk.trans_eq ht.size_pivots.symm) (hk.trans_eq (ht.size_inverses h).symm)
  rw [h.step_eq hA hk hpattern, hcolumns, ok_bind]
  rcases hfinish with ⟨u, hu, rfl, _⟩ | ⟨e, he, hzero, _⟩
  · exact Or.inl ⟨_, hu, _, ht.placed htree hk hp h _ _⟩
  · exact Or.inr ⟨e, he, hzero⟩

end Step

/-!
## All steps
-/

theorem placed_initial {A : Csc α} {parent : Array (Option Nat)} {counts : Array Nat}
    (hcounts : counts.size = A.cols) : Placed A parent (offsets counts) 0
      (NumericState.initial A.cols (offsets counts)) (fun _ => []) := by
  have hback : (offsets counts).back?.getD 0 = (offsets counts).getD A.cols 0 := by
    rw [Array.back?_eq_getElem?, Array.getD_eq_getD_getElem?, size_offsets, Nat.add_sub_cancel,
      hcounts]
  have hempty := filled_empty counts (Array.replicate ((offsets counts).getD A.cols 0) 0)
    (zeros ((offsets counts).getD A.cols 0) : Array α) (by simp [hcounts]) (by simp [hcounts])
  rw [hcounts] at hempty
  have hreplicate : ∀ {β : Type} (d : β) (i : Nat), (Array.replicate A.cols d).getD i d = d := by
    intro β d i
    by_cases hi : i < A.cols
    · rw [getD_of_lt _ _ (by simpa using hi)]
      exact Array.getElem_replicate _
    · exact getD_of_size_le _ _ (by simpa using hi)
  unfold NumericState.initial
  rw [hback]
  refine ⟨hempty, by simp, by simp, by simp, by simp, by simp, by simp, hreplicate 0,
    hreplicate false, ?_, ?_, fun _ _ => List.Pairwise.nil⟩
  · intro c _
    simp [takenBy]
  · intro c _ e he
    exact absurd he List.not_mem_nil

/-- The first steps place their rows, or one of them ends in a pivot that is zero or not finite. -/
theorem steps_outcome {A : Csc α} {parent : Array (Option Nat)} {counts : Array Nat}
    {signs : Array Int} (reg : Option (Regularization α)) (hA : A.IsUpper)
    (htree : IsEliminationTree A parent A.cols) (hcounts : counts.size = A.cols)
    (hcount : ∀ c < A.cols, counts.getD c 0 = takenBy A parent A.cols c)
    (hsigns : signs.size = A.cols) {k : Nat} (hk : k ≤ A.cols) :
    Outcome (fun s => ∃ content, Placed A parent (offsets counts) k s content) (· = .zeroPivot)
      ((List.range k).foldlM (NumericState.step A parent (offsets counts) signs reg)
        (NumericState.initial A.cols (offsets counts))) := by
  refine foldlM_range_outcome
    (fun k s => ∃ content, Placed A parent (offsets counts) k s content) _ _ k _
    ⟨_, placed_initial hcounts⟩ ?_
  rintro j hj s ⟨content, h⟩
  exact h.step hA htree (reserves_offsets hcounts hcount) hsigns (hj.trans_le hk)

/-!
## The factor
-/

section Factor

variable {A : Csc α} {parent : Array (Option Nat)} {colptr : Array Nat} {s : NumericState α}
  {content : Nat → List (Nat × α)}

theorem Placed.next_eq (h : Placed A parent colptr A.cols s content)
    (hcolptr : Reserves A parent colptr) {c : Nat} (hc : c < A.cols) :
    s.next.getD c 0 = colptr.getD (c + 1) 0 := by
  rw [h.filled.next_eq c hc, hcolptr.succ c hc, h.length_content c hc]

theorem Placed.column_eq (h : Placed A parent colptr A.cols s content)
    (hcolptr : Reserves A parent colptr) {rows cols c : Nat} (hc : c < A.cols) :
    (Csc.mk rows cols colptr s.rowval s.nzval).column c = content c :=
  h.filled.column_eq hc (h.next_eq hcolptr hc)

theorem Placed.checkFormat_eq (h : Placed A parent colptr A.cols s content)
    (hcolptr : Reserves A parent colptr) (hfirst : colptr.getD 0 0 = 0) :
    (Csc.mk A.cols A.cols colptr s.rowval s.nzval).checkFormat = .ok () := by
  refine Csc.checkFormat_of_columns (h.size_rowval.trans h.size_nzval.symm) hcolptr.size hfirst
    h.size_rowval.symm (fun c hc => h.filled.colptr_le_succ hc) ?_ ?_
  · intro c hc
    rw [h.column_eq hcolptr hc, List.pairwise_map]
    exact h.sorted c hc
  · intro c hc e he
    rw [h.column_eq hcolptr hc] at he
    exact (h.rows c hc e he).2.1

end Factor

end Ldl
end SoftMargin
