import Mathlib.LinearAlgebra.Matrix.Permutation
import SoftMargin.Proofs.Ldl.Permute

/-!
# The distribution over the new columns

The second pass puts each entry into the next free place of its column. The
places of a column were counted in the first pass, so that every place is
written exactly once. What the matrix has at a position, repeated entries in
their order, it has afterwards at the position of the two steps; so whatever
repeated entries stand for, the rows and columns of the symmetric matrix are
permuted.
-/

namespace SoftMargin
namespace Ldl

open Finset

variable {α : Type}

/-!
## Places
-/

def Distribution.slots (steps : Array Nat) :
    List (Entry α) → Distribution α → Except LdlError (List Nat)
  | [], _ => return []
  | e :: rest, d => do
      let (_, c) ← e.target steps
      let slot ← read d.next c
      let d ← d.place steps e
      return slot :: (← slots steps rest d)

/-- The slot is one of those that have been reserved for the column of the entry. -/
def IsWithin (steps colptr : Array Nat) (e : Entry α) (slot : Nat) : Prop :=
  colptr.getD (e.moved steps).2 0 ≤ slot ∧ slot < colptr.getD ((e.moved steps).2 + 1) 0

theorem length_received_mono (steps : Array Nat) (es fs : List (Entry α)) (c : Nat) :
    (received steps es c).length ≤ (received steps (es ++ fs) c).length := by
  unfold received
  simp

theorem exists_of_forall₂ {β γ : Type} {R : β → γ → Prop} {xs : List β} {ys : List γ}
    (h : List.Forall₂ R xs ys) {y : γ} (hy : y ∈ ys) : ∃ x ∈ xs, R x y := by
  induction h with
  | nil => exact absurd hy List.not_mem_nil
  | cons hxy _ ih =>
      rcases List.mem_cons.mp hy with rfl | hy
      · exact ⟨_, List.mem_cons_self, hxy⟩
      · rcases ih hy with ⟨x, hx, hR⟩
        exact ⟨x, List.mem_cons_of_mem _ hx, hR⟩

section Slots

variable {steps colptr : Array Nat} {n : Nat} {es done todo : List (Entry α)}
  {d : Distribution α} (hsteps : steps.size = n) (hlt : ∀ i < n, steps.getD i 0 < n)
  (hes : ∀ e ∈ es, e.row < n ∧ e.col < n)
  (hcolptr : ∀ c < n,
    colptr.getD (c + 1) 0 = colptr.getD c 0 + (received steps es c).length)

include hsteps hlt hes hcolptr

/-- The places of the entries that are still to come lie behind those that their columns have
filled, so none of them is written twice. -/
theorem exists_slots (hsplit : es = done ++ todo)
    (h : Csc.Filled colptr n d.rowval d.nzval d.next (received steps done)) :
    ∃ slots, d.slots steps todo = .ok slots ∧ slots.Nodup ∧
      List.Forall₂ (fun e slot => colptr.getD (e.moved steps).2 0 +
          (received steps done (e.moved steps).2).length ≤ slot ∧
        slot < colptr.getD ((e.moved steps).2 + 1) 0) todo slots := by
  induction todo generalizing done d with
  | nil => exact ⟨[], rfl, List.nodup_nil, List.Forall₂.nil⟩
  | cons e todo ih =>
      have hmem : e ∈ es := by
        rw [hsplit]
        exact List.mem_append_right _ List.mem_cons_self
      have hbounds := hes e hmem
      have hc := moved_lt hlt hbounds.left hbounds.right
      rcases place_eq_ok hsteps hlt hbounds.left hbounds.right hsplit hcolptr h with
        ⟨d', hplace, hfilled, _, _⟩
      rcases ih (by simp [hsplit]) hfilled with ⟨slots, hslots, hnodup, hwithin⟩
      have hnext := h.next_eq _ hc
      have hfree : d.next.getD (e.moved steps).2 0 < colptr.getD ((e.moved steps).2 + 1) 0 := by
        have hless := length_received_le steps done todo e
        rw [← hsplit] at hless
        rw [hnext, hcolptr _ hc]
        omega
      refine ⟨d.next.getD (e.moved steps).2 0 :: slots, ?_, ?_, ?_⟩
      · rw [Distribution.slots, target_eq hsteps hbounds.left hbounds.right, ok_bind]
        dsimp only
        rw [read_of_lt d.next 0 (h.size_next.symm ▸ hc), ok_bind, hplace, ok_bind, hslots]
        rfl
      · refine List.nodup_cons.mpr ⟨?_, hnodup⟩
        intro hrepeated
        rcases exists_of_forall₂ hwithin hrepeated with ⟨f, hf, hlow, hhigh⟩
        by_cases hcol : (e.moved steps).2 = (f.moved steps).2
        · -- the next free place has moved on by one
          rw [received_concat, ← hcol, if_pos rfl, List.length_append,
            List.length_singleton] at hlow
          omega
        · -- the places of different columns are apart
          have hfmem : f ∈ es := by
            rw [hsplit]
            exact List.mem_append_right _ (List.mem_cons_of_mem e hf)
          have hfc := moved_lt hlt (hes f hfmem).left (hes f hfmem).right
          rcases Nat.lt_or_gt_of_ne hcol with hlt' | hgt
          · have hmono := h.colptr_mono (c := (e.moved steps).2 + 1) hlt' hfc.le
            omega
          · have hmono := h.colptr_mono (c := (f.moved steps).2 + 1) hgt hc.le
            omega
      · refine List.Forall₂.cons ⟨hnext.ge, hfree⟩ (hwithin.imp ?_)
        intro f slot hslot
        have hmono := length_received_mono steps done [e] (f.moved steps).2
        exact ⟨by omega, hslot.right⟩

omit hsteps hcolptr in
theorem slots_perm {slots : List Nat} (hlen : slots.length = es.length) (hnodup : slots.Nodup)
    (hwithin : List.Forall₂ (IsWithin steps colptr) es slots)
    (hlast : colptr.getD n 0 = es.length)
    (hmono : ∀ c < n, colptr.getD (c + 1) 0 ≤ colptr.getD n 0) :
    slots.Perm (List.range es.length) := by
  have hsub : slots ⊆ List.range es.length := by
    intro slot hslot
    rcases exists_of_forall₂ hwithin hslot with ⟨e, he, _, hhigh⟩
    have hc := moved_lt hlt (hes e he).left (hes e he).right
    have hroom := hmono _ hc
    exact List.mem_range.mpr (by omega)
  exact (hnodup.subperm hsub).perm_of_length_le (by simp [hlen])

end Slots

/-!
## Positions
-/

def valuesAt (es : List (Nat × α)) (r : Nat) : List α :=
  (es.filter fun e => e.1 = r).map (·.2)

def symmetricValues (A : Csc α) (i j : Nat) : List α :=
  valuesAt (A.column (max i j)) (min i j)

theorem valuesAt_received (steps : Array Nat) (es : List (Entry α)) (r c : Nat) :
    valuesAt (received steps es c) r =
      (es.filter fun e => e.moved steps = (r, c)).map (·.value) := by
  unfold valuesAt received
  rw [List.filter_map, List.filter_filter, List.map_map]
  congr 1
  apply List.filter_congr
  intro e _
  simp [Prod.ext_iff]

theorem filter_entriesBefore (A : Csc α) (a b m : Nat) :
    ((entriesBefore A m).filter fun e => e.row = a ∧ e.col = b).map (·.value) =
      if b < m then valuesAt (A.column b) a else [] := by
  induction m with
  | zero => simp [entriesBefore]
  | succ m ih =>
      rw [entriesBefore_succ, List.filter_append, List.map_append, ih, List.filter_map,
        List.map_map]
      by_cases hbm : m = b
      · subst hbm
        simp [valuesAt, Function.comp_def]
      · have hempty : (A.column m).filter ((fun e : Entry α => decide (e.row = a ∧ e.col = b)) ∘
            fun e => ⟨e.1, m, e.2⟩) = [] := by
          rw [List.filter_eq_nil_iff]
          intro e _
          simp [hbm]
        rw [hempty, List.map_nil, List.append_nil]
        exact if_congr (by omega) rfl rfl

/-- Where the steps are a permutation, the entries of one position are those that come to lie at
the position of its steps. -/
theorem moved_eq_steps_iff {steps : Array Nat} {n : Nat} (hsteps : IsOrder steps n) {e : Entry α}
    (hrow : e.row ≤ e.col) (hcol : e.col < n) {i j : Nat} (hi : i < n) (hj : j < n) :
    e.moved steps = (min (steps.getD i 0) (steps.getD j 0),
        max (steps.getD i 0) (steps.getD j 0)) ↔ e.row = min i j ∧ e.col = max i j := by
  have hrn := hrow.trans_lt hcol
  unfold Entry.moved
  rw [Prod.mk.injEq]
  constructor
  · intro h
    have hcases : steps.getD e.row 0 = steps.getD i 0 ∧ steps.getD e.col 0 = steps.getD j 0 ∨
        steps.getD e.row 0 = steps.getD j 0 ∧ steps.getD e.col 0 = steps.getD i 0 := by omega
    rcases hcases with ⟨hr, hc⟩ | ⟨hr, hc⟩
    · have hri := hsteps.inj hrn hi hr
      have hcj := hsteps.inj hcol hj hc
      omega
    · have hrj := hsteps.inj hrn hj hr
      have hci := hsteps.inj hcol hi hc
      omega
  · rintro ⟨hr, hc⟩
    rcases le_total i j with hij | hji
    · rw [hr, hc, min_eq_left hij, max_eq_right hij]
      exact ⟨rfl, rfl⟩
    · rw [hr, hc, min_eq_right hji, max_eq_left hji, min_comm, max_comm]
      exact ⟨rfl, rfl⟩

theorem symmetricValues_eq {A B : Csc α} {steps : Array Nat} (hA : A.IsUpper)
    (hsteps : IsOrder steps A.cols)
    (hB : ∀ c < A.cols, B.column c = received steps (entriesBefore A A.cols) c) {i j : Nat}
    (hi : i < A.cols) (hj : j < A.cols) :
    symmetricValues B (steps.getD i 0) (steps.getD j 0) = symmetricValues A i j := by
  have hiff : ∀ e ∈ entriesBefore A A.cols,
      decide (e.moved steps = (min (steps.getD i 0) (steps.getD j 0),
        max (steps.getD i 0) (steps.getD j 0))) = decide (e.row = min i j ∧ e.col = max i j) := by
    intro e he
    rcases mem_entriesBefore he with ⟨hcol, hmem⟩
    exact decide_eq_decide.mpr
      (moved_eq_steps_iff hsteps (hA.row_le e.col hcol _ hmem) hcol hi hj)
  unfold symmetricValues
  rw [hB _ (max_lt (hsteps.lt hi) (hsteps.lt hj)), valuesAt_received,
    List.filter_congr hiff, filter_entriesBefore, if_pos (max_lt hi hj)]

/-!
## The permuted matrix
-/

noncomputable def IsOrder.perm {steps : Array Nat} {n : Nat} (h : IsOrder steps n) :
    Equiv.Perm (Fin n) :=
  Equiv.ofBijective (fun i => ⟨steps.getD i 0, h.lt i.isLt⟩)
    (Finite.injective_iff_bijective.mp fun _ _ hij =>
      Fin.ext (h.inj (Fin.isLt _) (Fin.isLt _) (congrArg Fin.val hij)))

/-- The symmetric matrix, in a semiring, when the values at a position stand for one. -/
def symmetricMatrix {R : Type} (n : Nat) (entry : List α → R) (A : Csc α) :=
  Matrix.of fun (i j : Fin n) => entry (symmetricValues A i j)

theorem symmetricMatrix_eq {R : Type} [NonAssocSemiring R] {A B : Csc α} {steps : Array Nat}
    (hsteps : IsOrder steps A.cols)
    (hvalues : ∀ i < A.cols, ∀ j < A.cols,
      symmetricValues B (steps.getD i 0) (steps.getD j 0) = symmetricValues A i j)
    (entry : List α → R) :
    symmetricMatrix A.cols entry B = (hsteps.perm.permMatrix R).transpose *
      symmetricMatrix A.cols entry A * hsteps.perm.permMatrix R := by
  rw [Matrix.transpose_permMatrix, Equiv.Perm.permMatrix, Equiv.Perm.permMatrix,
    PEquiv.toMatrix_toPEquiv_mul, PEquiv.mul_toMatrix_toPEquiv]
  ext i j
  obtain ⟨a, rfl⟩ := hsteps.perm.surjective i
  obtain ⟨b, rfl⟩ := hsteps.perm.surjective j
  simp only [Matrix.submatrix_apply, id_eq, Equiv.Perm.inv_def, Equiv.symm_apply_apply]
  exact congrArg entry (hvalues a a.isLt b b.isLt)

/-!
## Distribution of a matrix
-/

/-- What an order of elimination makes of a matrix: every column has the entries that come to lie
there, in the order in which they were stored. -/
structure IsReordered (A : Csc α) (steps : Array Nat) (B : Csc α) : Prop where
  upper : B.IsUpper
  cols_eq : B.cols = A.cols
  first_eq : B.colptr[0]? = some 0
  count_eq : B.entryCount? = A.entryCount?
  size_rowval : B.entryCount? = some B.rowval.size
  size_nzval : B.entryCount? = some B.nzval.size
  column_eq : ∀ c < A.cols, B.column c = ((entriesBefore A A.cols).filter fun e =>
    max (steps.getD e.row 0) (steps.getD e.col 0) = c).map fun e =>
      (min (steps.getD e.row 0) (steps.getD e.col 0), e.value)

/-- The second pass puts the entries into places that the first pass has counted for their columns,
and into each place one entry. -/
structure WritesOnce (A : Csc α) [Scalar α] (steps counts : Array Nat) (slots : List Nat) :
    Prop where
  counts_eq : countTargets steps (entriesBefore A A.cols) A.cols = .ok counts
  run_eq : permuteSymmetric A steps = ((entriesBefore A A.cols).foldlM (Distribution.place steps)
    (Distribution.start A counts) >>= fun d =>
      .ok ⟨A.cols, A.cols, offsets counts, d.rowval, d.nzval⟩)
  slots_eq : (Distribution.start A counts).slots steps (entriesBefore A A.cols) = .ok slots
  within : List.Forall₂ (IsWithin steps (offsets counts)) (entriesBefore A A.cols) slots
  once : slots.Perm (List.range (A.colptr.getD A.cols 0))

variable {R : Type} [NonAssocSemiring R]

/-- For every upper triangular matrix, with repeated entries and rows in any order, and every order
of elimination. -/
theorem permuteSymmetric_distributes [Scalar α] {A : Csc α} {steps : Array Nat} (hA : A.IsUpper)
    (hfirst : A.colptr.getD 0 0 = 0) (hsteps : IsOrder steps A.cols) :
    ∃ B counts slots, permuteSymmetric A steps = .ok B ∧ B.colptr = offsets counts ∧
      IsReordered A steps B ∧ WritesOnce A steps counts slots ∧
      (∀ i < A.cols, ∀ j < A.cols,
        symmetricValues B (steps.getD i 0) (steps.getD j 0) = symmetricValues A i j) ∧
      ∀ entry : List α → R, symmetricMatrix A.cols entry B =
        (hsteps.perm.permMatrix R).transpose * symmetricMatrix A.cols entry A *
          hsteps.perm.permMatrix R := by
  have hsize := hsteps.size_eq
  have hlt : ∀ i < A.cols, steps.getD i 0 < A.cols := fun i hi => hsteps.lt hi
  rcases exists_counted hA hsize hlt with ⟨counts, hcounted⟩
  rcases hcounted.placed_eq_ok hA hlt hsize with ⟨d, hd, hfilled, hrowval, hnzval⟩
  have hcolumns := isUpper_of_filled (by simp [hcounted.size])
    (fun c hc => hcounted.offsets_succ hc) hfilled
  have hes := fun e (he : e ∈ entriesBefore A A.cols) => lt_of_mem_entriesBefore hA he
  rcases exists_slots hsize hlt hes (fun c hc => hcounted.offsets_succ hc)
    (List.nil_append (entriesBefore A A.cols)).symm (hcounted.filled_start hA hlt) with
    ⟨slots, hslots, hnodup, hwithin⟩
  have hlast : (offsets counts).getD A.cols 0 = A.colptr.getD A.cols 0 := by
    rw [hcounted.offsets_last hA hlt, ← length_entriesBefore hA (le_refl _), hfirst, Nat.zero_add]
  have hcount : (offsets counts)[A.cols]? = some (A.colptr.getD A.cols 0) := by
    rw [getElem?_eq_getD _ 0 (by simp [hcounted.size]), hlast]
  have hvalues : ∀ i < A.cols, ∀ j < A.cols, _ := fun i hi j hj =>
    symmetricValues_eq hA hsteps hcolumns.right hi hj
  have hrun := hcounted.permuteSymmetric_eq hA
  refine ⟨_, counts, slots, by rw [hrun, hd, ok_bind], rfl, ?_, ?_, hvalues,
    symmetricMatrix_eq hsteps hvalues⟩
  · refine ⟨hcolumns.left, rfl, ?_, ?_, ?_, ?_, hcolumns.right⟩
    · rw [getElem?_eq_getD _ 0 (by simp), getD_offsets_zero]
    · exact hcount.trans (getElem?_eq_getD _ 0 hA.size_colptr).symm
    · rw [hrowval]
      exact hcount
    · rw [hnzval]
      exact hcount
  · have hreserved :
        List.Forall₂ (IsWithin steps (offsets counts)) (entriesBefore A A.cols) slots :=
      hwithin.imp fun e slot hslot => ⟨(Nat.le_add_right _ _).trans hslot.left, hslot.right⟩
    refine ⟨hcounted.counts_eq, hrun, hslots, hreserved, ?_⟩
    rw [← hlast, hcounted.offsets_last hA hlt]
    exact slots_perm hlt hes hreserved.length_eq.symm hnodup hreserved
      (hcounted.offsets_last hA hlt) fun c hc => hfilled.colptr_mono hc (le_refl _)

/-- A matrix with unsorted rows, and with two entries at one position. -/
def repeated : Csc ℚ :=
  ⟨3, 3, #[0, 1, 4, 6], #[0, 1, 0, 0, 2, 0], #[1, 2, 3, 4, 5, 6]⟩

/-- In an order that is not its own inverse, two of its entries cross the diagonal. -/
theorem permuteSymmetric_distributes_repeated :
    let B : Csc ℚ := ⟨3, 3, #[0, 1, 3, 6], #[0, 1, 0, 2, 1, 1], #[5, 1, 6, 2, 3, 4]⟩
    permuteSymmetric repeated #[1, 2, 0] = .ok B ∧ IsReordered repeated #[1, 2, 0] B ∧
      WritesOnce repeated #[1, 2, 0] #[1, 2, 3] [1, 3, 4, 5, 0, 2] ∧
      symmetricValues B 2 1 = [3, 4] := by
  intro B
  have hupper : repeated.IsUpper :=
    ⟨rfl, by decide, by decide, by decide, by decide, by decide +kernel⟩
  have horder : IsOrder #[1, 2, 0] repeated.cols := by
    unfold IsOrder
    decide
  rcases permuteSymmetric_distributes (R := ℚ) hupper rfl horder with
    ⟨B', counts, slots, hB, _, hreordered, hwrites, hvalues, _⟩
  have hcount : (countTargets #[1, 2, 0] (entriesBefore repeated repeated.cols)
      repeated.cols).toOption = some #[1, 2, 3] := by decide +kernel
  rw [hwrites.counts_eq] at hcount
  obtain rfl : counts = #[1, 2, 3] := Option.some.inj hcount
  have hplaces : ((Distribution.start repeated #[1, 2, 3]).slots #[1, 2, 0]
      (entriesBefore repeated repeated.cols)).toOption = some [1, 3, 4, 5, 0, 2] := by
    decide +kernel
  rw [hwrites.slots_eq] at hplaces
  obtain rfl : slots = [1, 3, 4, 5, 0, 2] := Option.some.inj hplaces
  have hfields : ((permuteSymmetric repeated #[1, 2, 0]).toOption.map fun M =>
      (M.rows, M.cols, M.colptr, M.rowval, M.nzval)) =
        some (3, 3, B.colptr, B.rowval, B.nzval) := by decide +kernel
  rw [hB] at hfields
  obtain rfl : B' = B := by
    cases B'
    simpa [Except.toOption, B] using hfields
  refine ⟨hB, hreordered, hwrites, (hvalues 1 (by decide) 0 (by decide)).trans ?_⟩
  decide +kernel

end Ldl
end SoftMargin
