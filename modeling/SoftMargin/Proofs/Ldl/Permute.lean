import SoftMargin.Proofs.Sparse.Entries
import SoftMargin.Ldl.Permute

/-!
# Matrices in the order of elimination

The distribution puts each entry into the column of its later step, and keeps
the order of the entries that a column receives. So the permuted matrix stands
for the symmetric matrix with rows and columns in the order of elimination.
-/

namespace SoftMargin
namespace Ldl

open Finset

variable {α : Type}

/-!
## Orders and their inverses
-/

def IsOrder (order : Array Nat) (n : Nat) : Prop :=
  order.toList.Perm (List.range n)

namespace IsOrder

variable {order : Array Nat} {n : Nat}

theorem size_eq (h : IsOrder order n) : order.size = n := by
  have hlen := h.length_eq
  rwa [Array.length_toList, List.length_range] at hlen

theorem lt (h : IsOrder order n) {k : Nat} (hk : k < n) : order.getD k 0 < n := by
  have hsize : k < order.size := h.size_eq.symm ▸ hk
  rw [getD_of_lt order 0 hsize]
  have hmem : order[k] ∈ order.toList := by simp
  exact List.mem_range.mp (h.mem_iff.mp hmem)

theorem inj (h : IsOrder order n) {j k : Nat} (hj : j < n) (hk : k < n)
    (heq : order.getD j 0 = order.getD k 0) : j = k := by
  have hnodup : order.toList.Nodup := h.nodup_iff.mpr List.nodup_range
  have hjs : j < order.size := h.size_eq.symm ▸ hj
  have hks : k < order.size := h.size_eq.symm ▸ hk
  rw [getD_of_lt order 0 hjs, getD_of_lt order 0 hks, ← Array.getElem_toList,
    ← Array.getElem_toList] at heq
  exact (hnodup.getElem_inj_iff).mp heq

theorem surj (h : IsOrder order n) {i : Nat} (hi : i < n) : ∃ k < n, order.getD k 0 = i := by
  have hmem : i ∈ order.toList := h.mem_iff.mpr (List.mem_range.mpr hi)
  rcases List.getElem_of_mem hmem with ⟨k, hk, hval⟩
  rw [Array.length_toList] at hk
  refine ⟨k, h.size_eq ▸ hk, ?_⟩
  rw [getD_of_lt order 0 hk, ← hval, Array.getElem_toList]

end IsOrder

theorem isOrder_naturalOrder (A : Csc α) {order : Array Nat}
    (h : naturalOrder A = .ok order) : IsOrder order A.cols := by
  unfold naturalOrder at h
  by_cases hfirst : A.cols ≠ 0 ∧ A.colptr[0]? ≠ some 0
  · rw [if_pos hfirst] at h
    cases h
  · rw [if_neg hfirst] at h
    cases h
    unfold IsOrder
    rw [Array.toList_range]

theorem size_inverseOrder (order : Array Nat) : (inverseOrder order).size = order.size := by
  unfold inverseOrder
  have hsize : ∀ (ks : List Nat) (steps : Array Nat),
      (ks.foldl (fun steps k => steps.setIfInBounds (order.getD k 0) k) steps).size =
        steps.size := by
    intro ks
    induction ks with
    | nil => exact fun steps => rfl
    | cons k rest ih =>
        intro steps
        rw [List.foldl_cons, ih, Array.size_setIfInBounds]
  rw [hsize, Array.size_replicate]

theorem inverseOrder_order {order : Array Nat} {n : Nat} (h : IsOrder order n) {k : Nat}
    (hk : k < n) : (inverseOrder order).getD (order.getD k 0) 0 = k := by
  have hfilled : ∀ m ≤ n,
      let steps := (List.range m).foldl
        (fun steps k => steps.setIfInBounds (order.getD k 0) k) (Array.replicate order.size 0)
      steps.size = n ∧ ∀ j < m, steps.getD (order.getD j 0) 0 = j := by
    intro m
    induction m with
    | zero =>
        intro _
        refine ⟨by simpa using h.size_eq, fun j hj => absurd hj (Nat.not_lt_zero j)⟩
    | succ m ih =>
        intro hm
        rcases ih (by omega) with ⟨hsize, hvals⟩
        rw [List.range_succ, List.foldl_append]
        refine ⟨by simpa using hsize, ?_⟩
        intro j hj
        change (Array.setIfInBounds _ (order.getD m 0) m).getD (order.getD j 0) 0 = j
        by_cases hjm : j = m
        · subst hjm
          exact getD_setIfInBounds_self _ _ _ (by rw [hsize]; exact h.lt hm)
        · have hne : order.getD m 0 ≠ order.getD j 0 := by
            intro heq
            exact hjm (h.inj hm (by omega) heq).symm
          rw [getD_setIfInBounds_ne _ _ _ hne]
          exact hvals j (by omega)
  have hall := (hfilled n (le_refl n)).right k hk
  unfold inverseOrder
  rw [h.size_eq] at hall ⊢
  exact hall

theorem inverseOrder_lt {order : Array Nat} {n : Nat} (h : IsOrder order n) {i : Nat}
    (hi : i < n) : (inverseOrder order).getD i 0 < n := by
  rcases h.surj hi with ⟨k, hk, rfl⟩
  rw [inverseOrder_order h hk]
  exact hk

/-!
## All entries of a matrix
-/

def entriesBefore (A : Csc α) (m : Nat) : List (Entry α) :=
  (List.range m).flatMap fun c => (A.column c).map fun e => ⟨e.1, c, e.2⟩

theorem entriesBefore_succ (A : Csc α) (m : Nat) :
    entriesBefore A (m + 1) =
      entriesBefore A m ++ (A.column m).map fun e => ⟨e.1, m, e.2⟩ := by
  unfold entriesBefore
  rw [List.range_succ, List.flatMap_append, List.flatMap_singleton]

theorem readEntries_eq {A : Csc α} (hA : A.IsUpper) :
    readEntries A = .ok (entriesBefore A A.cols) := by
  have hmap : ∀ cs : List Nat, (∀ c ∈ cs, c < A.cols) →
      (cs.mapM fun c => do
        let column ← readColumn A c
        return column.map fun e => (⟨e.1, c, e.2⟩ : Entry α)) =
      (.ok (cs.map fun c => (A.column c).map fun e => ⟨e.1, c, e.2⟩) :
        Except LdlError (List (List (Entry α)))) := by
    intro cs
    induction cs with
    | nil => exact fun _ => rfl
    | cons c rest ih =>
        intro hcs
        rw [List.mapM_cons, hA.readColumn_eq (hcs c List.mem_cons_self), ok_bind, pure_eq_ok,
          ok_bind, ih fun d hd => hcs d (List.mem_cons_of_mem c hd)]
        rfl
  change ((List.range A.cols).mapM _ >>= fun columns => Except.ok columns.flatten) = _
  rw [hmap _ fun c hc => List.mem_range.mp hc, ok_bind]
  rfl

theorem mem_entriesBefore {A : Csc α} {m : Nat} {e : Entry α} (he : e ∈ entriesBefore A m) :
    e.col < m ∧ (e.row, e.value) ∈ A.column e.col := by
  unfold entriesBefore at he
  rcases List.mem_flatMap.mp he with ⟨c, hc, hmem⟩
  rcases List.mem_map.mp hmem with ⟨p, hp, rfl⟩
  exact ⟨List.mem_range.mp hc, hp⟩

theorem length_entriesBefore {A : Csc α} (hA : A.IsUpper) {m : Nat} (hm : m ≤ A.cols) :
    A.colptr.getD 0 0 + (entriesBefore A m).length = A.colptr.getD m 0 := by
  induction m with
  | zero => rfl
  | succ m ih =>
      have hlen := hA.length_column (c := m) hm
      have hle := hA.colptr_le m hm
      rw [entriesBefore_succ, List.length_append, List.length_map, ← Nat.add_assoc,
        ih (by omega), hlen]
      omega

/-!
## The distribution
-/

def Entry.moved (steps : Array Nat) (e : Entry α) : Nat × Nat :=
  (min (steps.getD e.row 0) (steps.getD e.col 0), max (steps.getD e.row 0) (steps.getD e.col 0))

def received (steps : Array Nat) (es : List (Entry α)) (c : Nat) : List (Nat × α) :=
  (es.filter fun e => (e.moved steps).2 = c).map fun e => ((e.moved steps).1, e.value)

theorem received_concat (steps : Array Nat) (es : List (Entry α)) (e : Entry α) (c : Nat) :
    received steps (es ++ [e]) c =
      if (e.moved steps).2 = c then received steps es c ++ [((e.moved steps).1, e.value)]
      else received steps es c := by
  unfold received
  rw [List.filter_append, List.map_append]
  by_cases hc : (e.moved steps).2 = c
  · rw [if_pos hc]
    simp [hc]
  · rw [if_neg hc]
    simp [hc]

theorem length_received_le (steps : Array Nat) (es fs : List (Entry α)) (e : Entry α) :
    (received steps es (e.moved steps).2).length <
      (received steps (es ++ e :: fs) (e.moved steps).2).length := by
  unfold received
  rw [List.length_map, List.length_map, List.filter_append, List.length_append,
    List.filter_cons_of_pos (by simp), List.length_cons]
  omega

theorem sum_length_received {steps : Array Nat} {n : Nat} (es : List (Entry α))
    (h : ∀ e ∈ es, (e.moved steps).2 < n) :
    ∑ c ∈ range n, (received steps es c).length = es.length := by
  induction es using List.reverseRecOn with
  | nil => simp [received]
  | append_singleton es e ih =>
      have hlen : ∀ c, (received steps (es ++ [e]) c).length =
          (received steps es c).length + if (e.moved steps).2 = c then 1 else 0 := by
        intro c
        rw [received_concat]
        by_cases hc : (e.moved steps).2 = c
        · rw [if_pos hc, if_pos hc, List.length_append, List.length_singleton]
        · rw [if_neg hc, if_neg hc, Nat.add_zero]
      rw [sum_congr rfl fun c _ => hlen c, sum_add_distrib,
        ih fun d hd => h d (List.mem_append_left _ hd), sum_ite_eq, if_pos, List.length_append,
        List.length_singleton]
      exact mem_range.mpr (h e (by simp))

section Distribution

variable {steps : Array Nat} {n : Nat} (hsteps : steps.size = n)
  (hlt : ∀ i < n, steps.getD i 0 < n)

include hlt in
theorem moved_lt {e : Entry α} (hrow : e.row < n) (hcol : e.col < n) : (e.moved steps).2 < n :=
  max_lt (hlt e.row hrow) (hlt e.col hcol)

include hsteps in
theorem target_eq {e : Entry α} (hrow : e.row < n) (hcol : e.col < n) :
    e.target steps = .ok ((e.moved steps).1, (e.moved steps).2) := by
  unfold Entry.target
  rw [read_of_lt steps 0 (by omega), ok_bind, read_of_lt steps 0 (by omega)]
  rfl

include hsteps hlt

theorem countTargets_eq_ok {es : List (Entry α)} (hes : ∀ e ∈ es, e.row < n ∧ e.col < n) :
    ∃ counts, countTargets steps es n = .ok counts ∧ counts.size = n ∧
      ∀ c < n, counts.getD c 0 = (received steps es c).length := by
  have hloop := foldlM_eq_ok (fun done (counts : Array Nat) => counts.size = n ∧
      ∀ c < n, counts.getD c 0 = (received steps done c).length)
    (fun counts (e : Entry α) => do
      let target ← e.target steps
      write counts target.2 ((← read counts target.2) + 1))
    es (Array.replicate n 0) (by
      refine ⟨by simp, ?_⟩
      intro c hc
      rw [getD_of_lt _ 0 (by simpa using hc), Array.getElem_replicate]
      rfl) (by
      intro done e todo counts hsplit hinv
      rcases hinv with ⟨hsize, hcounts⟩
      have hmem : e ∈ es := by
        rw [hsplit]
        exact List.mem_append_right _ List.mem_cons_self
      have hc := moved_lt hlt (hes e hmem).left (hes e hmem).right
      rw [target_eq hsteps (hes e hmem).left (hes e hmem).right, ok_bind]
      dsimp only
      rw [read_of_lt counts 0 (by omega), ok_bind, write_of_lt _ (by omega)]
      refine ⟨_, rfl, by simpa using hsize, ?_⟩
      intro c hcn
      rw [received_concat]
      by_cases hcc : (e.moved steps).2 = c
      · subst hcc
        rw [getD_setIfInBounds_self _ _ _ (by omega), if_pos rfl, hcounts _ hcn,
          List.length_append, List.length_singleton]
      · rw [getD_setIfInBounds_ne _ _ _ hcc, if_neg hcc]
        exact hcounts c hcn)
  exact hloop

theorem place_eq_ok {es done todo : List (Entry α)} {e : Entry α} {colptr : Array Nat}
    {d : Distribution α} (hrow : e.row < n) (hcol : e.col < n) (hsplit : es = done ++ e :: todo)
    (hcolptr : ∀ c < n,
      colptr.getD (c + 1) 0 = colptr.getD c 0 + (received steps es c).length)
    (h : Csc.Filled colptr n d.rowval d.nzval d.next (received steps done)) :
    ∃ d', d.place steps e = .ok d' ∧
      Csc.Filled colptr n d'.rowval d'.nzval d'.next (received steps (done ++ [e])) ∧
      d'.rowval.size = d.rowval.size ∧ d'.nzval.size = d.nzval.size := by
  have hc := moved_lt hlt hrow hcol
  have hfree : d.next.getD (e.moved steps).2 0 < colptr.getD ((e.moved steps).2 + 1) 0 := by
    have hless := length_received_le steps done todo e
    rw [← hsplit] at hless
    rw [h.next_eq _ hc, hcolptr _ hc]
    omega
  have hroom := hfree.trans_le (h.colptr_mono (c := (e.moved steps).2 + 1) hc (le_refl n))
  have hrowval := h.rowval_room
  have hnzval := h.nzval_room
  have hnext : (e.moved steps).2 < d.next.size := by
    rw [h.size_next]
    exact hc
  refine ⟨{ rowval := d.rowval.setIfInBounds (d.next.getD (e.moved steps).2 0) (e.moved steps).1
            nzval := d.nzval.setIfInBounds (d.next.getD (e.moved steps).2 0) e.value
            next := d.next.setIfInBounds (e.moved steps).2
              (d.next.getD (e.moved steps).2 0 + 1) }, ?_, ?_, by simp, by simp⟩
  · unfold Distribution.place
    rw [target_eq hsteps hrow hcol, ok_bind]
    dsimp only
    rw [read_of_lt d.next 0 hnext, ok_bind, write_of_lt _ (by omega), ok_bind,
      write_of_lt _ (by omega), ok_bind, write_of_lt _ hnext, ok_bind]
    rfl
  · have happend := h.append hc hfree (e.moved steps).1 e.value
    have hcontent : Function.update (received steps done) (e.moved steps).2
        (received steps done (e.moved steps).2 ++ [((e.moved steps).1, e.value)]) =
        received steps (done ++ [e]) := by
      funext c
      rw [received_concat]
      by_cases hcc : (e.moved steps).2 = c
      · subst hcc
        rw [Function.update_self, if_pos rfl]
      · rw [Function.update_of_ne (Ne.symm hcc), if_neg hcc]
    rw [hcontent] at happend
    exact happend

end Distribution

theorem lt_of_mem_entriesBefore {A : Csc α} (hA : A.IsUpper) {e : Entry α}
    (he : e ∈ entriesBefore A A.cols) : e.row < A.cols ∧ e.col < A.cols := by
  rcases mem_entriesBefore he with ⟨hcol, hmem⟩
  exact ⟨(hA.row_le e.col hcol _ hmem).trans_lt hcol, hcol⟩

structure Counted (A : Csc α) (steps counts : Array Nat) : Prop where
  counts_eq : countTargets steps (entriesBefore A A.cols) A.cols = .ok counts
  size : counts.size = A.cols
  count_eq : ∀ c < A.cols,
    counts.getD c 0 = (received steps (entriesBefore A A.cols) c).length

def Distribution.start [Scalar α] (A : Csc α) (counts : Array Nat) : Distribution α where
  rowval := Array.replicate (A.colptr.getD A.cols 0) 0
  nzval := zeros (A.colptr.getD A.cols 0)
  next := (offsets counts).pop

namespace Counted

variable {A : Csc α} {steps counts : Array Nat}

theorem offsets_succ (h : Counted A steps counts) {c : Nat} (hc : c < A.cols) :
    (offsets counts).getD (c + 1) 0 =
      (offsets counts).getD c 0 + (received steps (entriesBefore A A.cols) c).length := by
  rw [getD_offsets_succ counts (h.size.symm ▸ hc), h.count_eq c hc]

variable (hA : A.IsUpper) (hlt : ∀ i < A.cols, steps.getD i 0 < A.cols)

include hA hlt

theorem offsets_last (h : Counted A steps counts) :
    (offsets counts).getD A.cols 0 = (entriesBefore A A.cols).length := by
  have hmoved : ∀ e ∈ entriesBefore A A.cols, (e.moved steps).2 < A.cols := fun e he =>
    moved_lt hlt (lt_of_mem_entriesBefore hA he).left (lt_of_mem_entriesBefore hA he).right
  rw [getD_offsets_eq_sum counts h.size.ge,
    sum_congr rfl fun c hc => h.count_eq c (mem_range.mp hc), sum_length_received _ hmoved]

theorem filled_start [Scalar α] (h : Counted A steps counts) :
    Csc.Filled (offsets counts) A.cols (Distribution.start A counts).rowval
      (Distribution.start A counts).nzval (Distribution.start A counts).next
      (received steps []) := by
  have hroom : (offsets counts).getD counts.size 0 ≤ A.colptr.getD A.cols 0 := by
    rw [h.size, h.offsets_last hA hlt, ← length_entriesBefore hA (le_refl _)]
    exact Nat.le_add_left _ _
  have hempty := filled_empty counts (Distribution.start A counts).rowval
    (Distribution.start A counts).nzval (by simpa [Distribution.start] using hroom)
    (by simpa [Distribution.start] using hroom)
  rw [h.size] at hempty
  exact hempty

theorem placed_eq_ok [Scalar α] (h : Counted A steps counts) (hsteps : steps.size = A.cols) :
    ∃ d, (entriesBefore A A.cols).foldlM (Distribution.place steps)
        (Distribution.start A counts) = .ok d ∧
      Csc.Filled (offsets counts) A.cols d.rowval d.nzval d.next
        (received steps (entriesBefore A A.cols)) ∧
      d.rowval.size = A.colptr.getD A.cols 0 ∧ d.nzval.size = A.colptr.getD A.cols 0 := by
  refine foldlM_eq_ok
    (fun done (d : Distribution α) =>
      Csc.Filled (offsets counts) A.cols d.rowval d.nzval d.next (received steps done) ∧
        d.rowval.size = A.colptr.getD A.cols 0 ∧ d.nzval.size = A.colptr.getD A.cols 0)
    (Distribution.place steps) (entriesBefore A A.cols) (Distribution.start A counts)
    ⟨h.filled_start hA hlt, by simp [Distribution.start], by simp [Distribution.start]⟩ ?_
  intro done e todo d hsplit hinv
  rcases hinv with ⟨hfilled, hrowval, hnzval⟩
  have hmem : e ∈ entriesBefore A A.cols := by
    rw [hsplit]
    exact List.mem_append_right _ List.mem_cons_self
  have hbounds := lt_of_mem_entriesBefore hA hmem
  rcases place_eq_ok hsteps hlt hbounds.left hbounds.right hsplit (fun c hc => h.offsets_succ hc)
    hfilled with ⟨d', hplace, hfilled', hrowval', hnzval'⟩
  exact ⟨d', hplace, hfilled', hrowval'.trans hrowval, hnzval'.trans hnzval⟩

omit hlt in
theorem permuteSymmetric_eq [Scalar α] (h : Counted A steps counts) :
    permuteSymmetric A steps = ((entriesBefore A A.cols).foldlM (Distribution.place steps)
      (Distribution.start A counts) >>= fun d =>
        .ok ⟨A.cols, A.cols, offsets counts, d.rowval, d.nzval⟩) := by
  unfold permuteSymmetric
  rw [readEntries_eq hA, ok_bind, h.counts_eq, ok_bind, read_of_lt A.colptr 0 hA.size_colptr,
    ok_bind]
  rfl

end Counted

theorem exists_counted {A : Csc α} {steps : Array Nat} (hA : A.IsUpper)
    (hsteps : steps.size = A.cols) (hlt : ∀ i < A.cols, steps.getD i 0 < A.cols) :
    ∃ counts, Counted A steps counts := by
  rcases countTargets_eq_ok hsteps hlt fun e he => lt_of_mem_entriesBefore hA he with
    ⟨counts, hcounts, hsize, hcount⟩
  exact ⟨counts, hcounts, hsize, hcount⟩

theorem isUpper_of_filled {steps : Array Nat} {es : List (Entry α)} {n : Nat}
    {colptr rowval next : Array Nat} {nzval : Array α} (hsize : n < colptr.size)
    (hcolptr : ∀ c < n, colptr.getD (c + 1) 0 = colptr.getD c 0 + (received steps es c).length)
    (h : Csc.Filled colptr n rowval nzval next (received steps es)) :
    (Csc.mk n n colptr rowval nzval).IsUpper ∧
      ∀ c < n, (Csc.mk n n colptr rowval nzval).column c = received steps es c := by
  have hcolumn : ∀ c < n, (Csc.mk n n colptr rowval nzval).column c = received steps es c := by
    intro c hc
    apply h.column_eq hc
    rw [h.next_eq c hc, hcolptr c hc]
  refine ⟨⟨rfl, hsize, fun c hc => h.colptr_le_succ hc,
    fun c hc => (h.colptr_mono (c := c + 1) hc (le_refl _)).trans h.rowval_room,
    fun c hc => (h.colptr_mono (c := c + 1) hc (le_refl _)).trans h.nzval_room, ?_⟩, hcolumn⟩
  intro c hc e he
  rw [hcolumn c hc] at he
  rcases List.mem_map.mp he with ⟨f, hf, rfl⟩
  have hfc := (List.mem_filter.mp hf).right
  rw [decide_eq_true_eq] at hfc
  rw [← hfc]
  exact min_le_max

theorem permuteSymmetric_eq_ok [Scalar α] {A : Csc α} {steps : Array Nat}
    (hA : A.IsUpper) (hsteps : steps.size = A.cols)
    (hlt : ∀ i < A.cols, steps.getD i 0 < A.cols) :
    ∃ B, permuteSymmetric A steps = .ok B ∧ B.IsUpper ∧ B.cols = A.cols ∧
      ∀ c < A.cols, B.column c = received steps (entriesBefore A A.cols) c := by
  rcases exists_counted hA hsteps hlt with ⟨counts, hcounted⟩
  rcases hcounted.placed_eq_ok hA hlt hsteps with ⟨d, hd, hfilled, _, _⟩
  have hcolumns := isUpper_of_filled (by simp [hcounted.size])
    (fun c hc => hcounted.offsets_succ hc) hfilled
  refine ⟨_, ?_, hcolumns.left, rfl, hcolumns.right⟩
  rw [hcounted.permuteSymmetric_eq hA, hd]
  rfl

/-!
## The permuted matrix as a symmetric matrix
-/

/-- An entry comes to lie at a position if it lay at the transposed or untransposed position of the
columns that are eliminated there. -/
theorem moved_eq_iff {order : Array Nat} {n : Nat} (horder : IsOrder order n) {e : Entry α}
    (hrow : e.row ≤ e.col) (hcol : e.col < n) {r c : Nat} (hr : r ≤ c) (hc : c < n) :
    e.moved (inverseOrder order) = (r, c) ↔
      e.row = min (order.getD r 0) (order.getD c 0) ∧
        e.col = max (order.getD r 0) (order.getD c 0) := by
  rcases horder.surj (hrow.trans_lt hcol) with ⟨i, hi, hival⟩
  rcases horder.surj hcol with ⟨j, hj, hjval⟩
  have hmoved : e.moved (inverseOrder order) = (min i j, max i j) := by
    unfold Entry.moved
    rw [← hival, ← hjval, inverseOrder_order horder hi, inverseOrder_order horder hj]
  rw [hmoved, Prod.mk.injEq, ← hival, ← hjval]
  constructor
  · intro hpos
    rcases hpos with ⟨hmin, hmax⟩
    rw [← hival, ← hjval] at hrow
    rcases le_total i j with hij | hji
    · rw [min_eq_left hij] at hmin
      rw [max_eq_right hij] at hmax
      rw [← hmin, ← hmax]
      exact ⟨(min_eq_left hrow).symm, (max_eq_right hrow).symm⟩
    · rw [min_eq_right hji] at hmin
      rw [max_eq_left hji] at hmax
      rw [← hmin, ← hmax]
      exact ⟨(min_eq_right hrow).symm, (max_eq_left hrow).symm⟩
  · intro hpos
    rcases hpos with ⟨hmin, hmax⟩
    rcases le_total (order.getD r 0) (order.getD c 0) with hle | hle
    · rw [min_eq_left hle] at hmin
      rw [max_eq_right hle] at hmax
      rw [horder.inj hi (hr.trans_lt hc) hmin, horder.inj hj hc hmax]
      exact ⟨min_eq_left hr, max_eq_right hr⟩
    · rw [min_eq_right hle] at hmin
      rw [max_eq_left hle] at hmax
      rw [horder.inj hi hc hmin, horder.inj hj (hr.trans_lt hc) hmax]
      exact ⟨min_eq_right hr, max_eq_left hr⟩

section Symmetric

variable {K : Type} [ExactScalar K]

/-- The value of the last entry with a property, zero if there is none. -/
def lastValue (p : Entry K → Prop) [DecidablePred p] (es : List (Entry K)) : K :=
  es.foldl (fun acc e => if p e then e.value else acc) 0

theorem lastValue_concat (p : Entry K → Prop) [DecidablePred p] (es : List (Entry K))
    (e : Entry K) : lastValue p (es ++ [e]) = if p e then e.value else lastValue p es := by
  unfold lastValue
  rw [List.foldl_append]
  rfl

theorem lastValue_congr {p q : Entry K → Prop} [DecidablePred p] [DecidablePred q]
    {es : List (Entry K)} (h : ∀ e ∈ es, p e ↔ q e) : lastValue p es = lastValue q es := by
  induction es using List.reverseRecOn with
  | nil => rfl
  | append_singleton es e ih =>
      rw [lastValue_concat, lastValue_concat, ih fun d hd => h d (List.mem_append_left _ hd)]
      exact if_congr (h e (by simp)) rfl rfl

theorem lastEntry_received (steps : Array Nat) (es : List (Entry K)) (r c : Nat) :
    lastEntry (received steps es c) r = lastValue (fun e => e.moved steps = (r, c)) es := by
  induction es using List.reverseRecOn with
  | nil => rfl
  | append_singleton es e ih =>
      rw [received_concat, lastValue_concat]
      by_cases hc : (e.moved steps).2 = c
      · rw [if_pos hc, lastEntry_concat, ih]
        refine if_congr ?_ rfl rfl
        rw [Prod.ext_iff]
        exact (and_iff_left hc).symm
      · rw [if_neg hc, ih, if_neg]
        intro hmoved
        exact hc (by rw [hmoved])

theorem lastValue_entriesBefore (A : Csc K) (a b m : Nat) :
    lastValue (fun e => e.row = a ∧ e.col = b) (entriesBefore A m) =
      if b < m then lastEntry (A.column b) a else 0 := by
  have hcolumn : ∀ (es : List (Entry K)) (column : List (Nat × K)) (c : Nat),
      (c = b → lastValue (fun e => e.row = a ∧ e.col = b) es = 0) →
      lastValue (fun e => e.row = a ∧ e.col = b)
        (es ++ column.map fun e => ⟨e.1, c, e.2⟩) =
      if c = b then lastEntry column a
      else lastValue (fun e => e.row = a ∧ e.col = b) es := by
    intro es column c hzero
    induction column using List.reverseRecOn with
    | nil =>
        by_cases hcb : c = b
        · simp [hcb, hzero hcb]
        · simp [hcb]
    | append_singleton column e ih =>
        rw [List.map_append, ← List.append_assoc, List.map_singleton, lastValue_concat, ih]
        by_cases hcb : c = b
        · rw [if_pos hcb, if_pos hcb, lastEntry_concat]
          exact if_congr (and_iff_left hcb) rfl rfl
        · rw [if_neg hcb, if_neg hcb, if_neg fun hand => hcb hand.right]
  induction m with
  | zero => rfl
  | succ m ih =>
      rw [entriesBefore_succ, hcolumn _ _ m (by
        intro hmb
        rw [ih, if_neg (by omega)]), ih]
      by_cases hmb : m = b
      · rw [if_pos hmb, if_pos (by omega), hmb]
      · rw [if_neg hmb]
        exact if_congr (by omega) rfl rfl

theorem lastEntry_received_entries {A : Csc K} {order : Array Nat} (hA : A.IsUpper)
    (horder : IsOrder order A.cols) {r c : Nat} (hr : r ≤ c) (hc : c < A.cols) :
    lastEntry (received (inverseOrder order) (entriesBefore A A.cols) c) r =
      A.symmetricEntry (order.getD r 0) (order.getD c 0) := by
  have hiff : ∀ e ∈ entriesBefore A A.cols, e.moved (inverseOrder order) = (r, c) ↔
      e.row = min (order.getD r 0) (order.getD c 0) ∧
        e.col = max (order.getD r 0) (order.getD c 0) := by
    intro e he
    rcases mem_entriesBefore he with ⟨hcol, hmem⟩
    exact moved_eq_iff horder (hA.row_le e.col hcol _ hmem) hcol hr hc
  rw [lastEntry_received, lastValue_congr hiff, lastValue_entriesBefore, if_pos]
  · rfl
  · exact max_lt (horder.lt (hr.trans_lt hc)) (horder.lt hc)

end Symmetric

/-- The permuted matrix stands for the symmetric matrix with its rows and columns in the order of
elimination. -/
theorem permuteSymmetric_symmetricEntry {K : Type} [ExactScalar K] {A : Csc K}
    {order : Array Nat} (hA : A.IsUpper) (horder : IsOrder order A.cols) :
    ∃ B, permuteSymmetric A (inverseOrder order) = .ok B ∧ B.IsUpper ∧ B.cols = A.cols ∧
      ∀ c < A.cols, ∀ r ≤ c, lastEntry (B.column c) r =
        A.symmetricEntry (order.getD r 0) (order.getD c 0) := by
  have hsize : (inverseOrder order).size = A.cols := by
    rw [size_inverseOrder, horder.size_eq]
  rcases permuteSymmetric_eq_ok hA hsize (fun i hi => inverseOrder_lt horder hi) with
    ⟨B, hB, hupper, hcols, hcolumn⟩
  refine ⟨B, hB, hupper, hcols, ?_⟩
  intro c hc r hr
  rw [hcolumn c hc]
  exact lastEntry_received_entries hA horder hr hc

end Ldl
end SoftMargin
