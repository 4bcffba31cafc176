import SoftMargin.Proofs.Ldl.Permute
import SoftMargin.Proofs.Ldl.Pivots
import SoftMargin.Proofs.Sparse.Triangular
import SoftMargin.Ldl.Product

/-!
# The factorization

A factor multiplied out is the matrix with rows and columns in the order of
elimination, but for the diagonal positions at which a pivot was replaced.
Nothing is asked of the matrix beforehand: what is not upper triangular, or has
pointers that lead out of it, is refused.
-/

namespace SoftMargin

open Scalar Finset

/-!
## What is accepted
-/

namespace Ldl

theorem readColumn_eq_ok {α : Type} {A : Csc α} {c : Nat} {column : List (Nat × α)}
    (h : readColumn A c = .ok column) :
    A.colptr.getD c 0 ≤ A.colptr.getD (c + 1) 0 ∧
      A.colptr.getD (c + 1) 0 ≤ A.rowval.size ∧ A.colptr.getD (c + 1) 0 ≤ A.nzval.size := by
  unfold readColumn at h
  rcases bind_eq_ok.mp h with ⟨first, hfirst, h⟩
  rcases bind_eq_ok.mp h with ⟨last, hlast, h⟩
  rcases bind_eq_ok.mp h with ⟨rows, hrows, h⟩
  rcases bind_eq_ok.mp h with ⟨values, hvalues, _⟩
  rw [Array.getD_eq_getD_getElem?, Array.getD_eq_getD_getElem?, read_eq_ok hfirst,
    read_eq_ok hlast]
  have hrowBounds := readSlice_eq_ok hrows
  exact ⟨hrowBounds.left, hrowBounds.right, (readSlice_eq_ok hvalues).right⟩

theorem mapM_eq_ok {β γ ε : Type} {f : β → Except ε γ} {xs : List β} {ys : List γ}
    (h : xs.mapM f = .ok ys) : ∀ x ∈ xs, ∃ y, f x = .ok y := by
  induction xs generalizing ys with
  | nil =>
      intro x hx
      exact absurd hx List.not_mem_nil
  | cons x rest ih =>
      rw [List.mapM_cons] at h
      rcases bind_eq_ok.mp h with ⟨y, hy, h⟩
      rcases bind_eq_ok.mp h with ⟨tail, htail, _⟩
      intro z hz
      rcases List.mem_cons.mp hz with rfl | hrest
      · exact ⟨y, hy⟩
      · exact ih htail z hrest

theorem checkStructure_eq_ok {α : Type} {A : Csc α} (h : checkStructure A = .ok ()) :
    A.isSquare = true ∧ A.isUpperTriangular? = some true := by
  unfold checkStructure at h
  cases hsquare : A.isSquare with
  | false =>
      rw [hsquare] at h
      cases h
  | true =>
      refine ⟨rfl, ?_⟩
      cases hupper : A.isUpperTriangular? with
      | none =>
          rw [hsquare, hupper] at h
          cases h
      | some upper =>
          cases upper with
          | false =>
              rw [hsquare, hupper] at h
              cases h
          | true => rfl

theorem isUpper_of_eq_ok {α : Type} [Scalar α] {A B : Csc α} {steps : Array Nat}
    (hcheck : checkStructure A = .ok ()) (hpermute : permuteSymmetric A steps = .ok B) :
    A.IsUpper := by
  unfold permuteSymmetric at hpermute
  rcases bind_eq_ok.mp hpermute with ⟨entries, hentries, hpermute⟩
  rcases bind_eq_ok.mp hpermute with ⟨counts, _, hpermute⟩
  rcases bind_eq_ok.mp hpermute with ⟨count, hcount, _⟩
  unfold readEntries at hentries
  rcases bind_eq_ok.mp hentries with ⟨columns, hcolumns, _⟩
  have hread : ∀ c < A.cols, ∃ column, readColumn A c = .ok column := by
    intro c hc
    rcases mapM_eq_ok hcolumns c (List.mem_range.mpr hc) with ⟨es, hes⟩
    rcases bind_eq_ok.mp hes with ⟨column, hcolumn, _⟩
    exact ⟨column, hcolumn⟩
  have hbounds : ∀ c < A.cols, A.colptr.getD c 0 ≤ A.colptr.getD (c + 1) 0 ∧
      A.colptr.getD (c + 1) 0 ≤ A.rowval.size ∧ A.colptr.getD (c + 1) 0 ≤ A.nzval.size := by
    intro c hc
    rcases hread c hc with ⟨column, hcolumn⟩
    exact readColumn_eq_ok hcolumn
  have hstructure := checkStructure_eq_ok hcheck
  have hrows := Csc.isUpperTriangular?_eq_some_true_iff.mp hstructure.right
  exact ⟨beq_iff_eq.mp hstructure.left,
    (Array.getElem?_eq_some_iff.mp (read_eq_ok hcount)).choose, fun c hc => (hbounds c hc).left,
    fun c hc => (hbounds c hc).2.1, fun c hc => (hbounds c hc).2.2,
    fun c hc => (hrows c hc).row_le⟩

end Ldl

/-!
## The product
-/

variable {K : Type} [ExactScalar K]

def LdlSettings.pivotSign (settings : LdlSettings K) (order : Array Nat) (k : Nat) : K :=
  match settings.signs with
  | none => 1
  | some signs => Ldl.signValue (signs.getD (order.getD k 0) 0)

omit [ExactScalar K] in
theorem LdlSettings.regularization_eq_some (settings : LdlSettings K) {r : Ldl.Regularization K}
    (h : settings.regularization = some r) : settings.regularize = true ∧
      r.replacement = settings.replacement ∧ r.limit = settings.limit := by
  unfold LdlSettings.regularization at h
  by_cases hregularize : settings.regularize = true
  · rw [if_pos hregularize] at h
    cases h
    exact ⟨hregularize, rfl, rfl⟩
  · rw [if_neg hregularize] at h
    cases h

def Csc.IsStrictlyLower (L : Csc K) (n : Nat) : Prop :=
  ∀ c < n, ∀ e ∈ L.column c, c < e.1 ∧ e.1 < n

theorem Csc.IsStrictlyLower.entrySum_eq_zero {L : Csc K} {n r c : Nat}
    (hL : L.IsStrictlyLower n) (hc : c < n) (hrc : r ≤ c) : entrySum (L.column c) r = 0 := by
  apply SoftMargin.entrySum_eq_zero
  intro e he
  have hrow := (hL c hc e he).left
  omega

/-- `F` stands for the symmetric matrix with upper triangle `A`, but for the pivots of the steps in
`replaced`. -/
structure LdlFactor.Factors (F : LdlFactor K) (A : Csc K) (settings : LdlSettings K)
    (replaced : Finset Nat) : Prop where
  order : Ldl.IsOrder F.order A.cols
  size_pivots : F.pivots.size = A.cols
  size_inverses : F.inverses.size = A.cols
  lower : F.lower.IsStrictlyLower A.cols
  /-- The error is a diagonal matrix that is zero where no pivot was replaced. -/
  product : ∃ error : Nat → K, (∀ k, k ∉ replaced → error k = 0) ∧
    ∀ r < A.cols, ∀ c < A.cols,
      ∑ m ∈ range A.cols, F.lowerEntry r m * F.pivots.getD m 0 * F.lowerEntry c m =
        A.symmetricEntry (F.order.getD r 0) (F.order.getD c 0) + if r = c then error r else 0
  replaced_subset : replaced ⊆ range A.cols
  replaced_card : replaced.card = F.regularizeCount
  replaced_pivot : ∀ k ∈ replaced, settings.regularize = true ∧
    F.pivots.getD k 0 = settings.replacement * settings.pivotSign F.order k
  /-- What was left for a pivot that was replaced is below the limit. -/
  replaced_small : ∀ k ∈ replaced, (A.symmetricEntry (F.order.getD k 0) (F.order.getD k 0) -
    ∑ m ∈ range k, F.lowerEntry k m * F.pivots.getD m 0 * F.lowerEntry k m) *
      settings.pivotSign F.order k < settings.limit
  inverse : ∀ k < A.cols, F.pivots.getD k 0 * F.inverses.getD k 0 = 1
  positive : F.positiveInertia = #{k ∈ range A.cols | 0 < F.pivots.getD k 0}

namespace Ldl

theorem mapM_read_getD {β : Type} {xs : Array β} {is : List Nat} {ys : List β} (d : β)
    (h : is.mapM (read xs) = .ok ys) :
    ys.length = is.length ∧ ∀ k < is.length, ys.getD k d = xs.getD (is.getD k 0) d := by
  induction is generalizing ys with
  | nil =>
      cases h
      exact ⟨rfl, fun k hk => absurd hk (Nat.not_lt_zero k)⟩
  | cons i rest ih =>
      rw [List.mapM_cons] at h
      rcases bind_eq_ok.mp h with ⟨y, hy, h⟩
      rcases bind_eq_ok.mp h with ⟨tail, htail, h⟩
      cases h
      have hrest := ih htail
      refine ⟨by rw [List.length_cons, List.length_cons, hrest.left], ?_⟩
      intro k hk
      cases k with
      | zero =>
          rw [List.getD_cons_zero, List.getD_cons_zero, Array.getD_eq_getD_getElem?,
            read_eq_ok hy, Option.getD_some]
      | succ k =>
          rw [List.getD_cons_succ, List.getD_cons_succ]
          exact hrest.right k (Nat.lt_of_succ_lt_succ hk)

theorem orderedSigns_eq_ok {α : Type} {settings : LdlSettings α} {order : Array Nat}
    {signs : Array Int} (h : settings.orderedSigns order = .ok signs) :
    signs.size = order.size ∧ ∀ k < order.size, signs.getD k 0 =
      match settings.signs with
      | none => 1
      | some stated => stated.getD (order.getD k 0) 0 := by
  unfold LdlSettings.orderedSigns at h
  cases hsigns : settings.signs with
  | none =>
      rw [hsigns] at h
      cases h
      refine ⟨Array.size_replicate, ?_⟩
      intro k hk
      rw [getD_of_lt _ 0 (by simpa using hk), Array.getElem_replicate]
  | some stated =>
      rw [hsigns] at h
      dsimp only at h ⊢
      by_cases hsize : stated.size = order.size
      · rw [if_pos hsize, Array.mapM_eq_mapM_toList] at h
        cases hread : order.toList.mapM (read stated) with
        | error e =>
            rw [hread] at h
            cases h
        | ok ys =>
            rw [hread] at h
            cases h
            have hys := mapM_read_getD 0 hread
            rw [Array.length_toList] at hys
            refine ⟨by simpa using hys.left, ?_⟩
            intro k hk
            have hleft : ys.toArray.getD k 0 = ys.getD k 0 := by
              rw [Array.getD_eq_getD_getElem?, List.getElem?_toArray, List.getD_eq_getElem?_getD]
            have hright : order.toList.getD k 0 = order.getD k 0 := by
              rw [List.getD_eq_getElem?_getD, Array.getElem?_toList, Array.getD_eq_getD_getElem?]
            rw [hleft, hys.right k hk, hright]
      · rw [if_neg hsize] at h
        cases h

theorem signValue_orderedSigns {settings : LdlSettings K} {order : Array Nat}
    {signs : Array Int} (h : settings.orderedSigns order = .ok signs) {k : Nat}
    (hk : k < order.size) : signValue (signs.getD k 0) = settings.pivotSign order k := by
  rw [(orderedSigns_eq_ok h).right k hk]
  unfold LdlSettings.pivotSign
  cases settings.signs with
  | none => rfl
  | some stated => rfl

theorem factorBy_eq_ok {α : Type} [Scalar α] {rule : OrderingRule α} {A : Csc α}
    {settings : LdlSettings α} {F : LdlFactor α} (h : factorBy rule A settings = .ok F) :
    ∃ B signs parent counts s, checkStructure A = .ok () ∧ rule A = .ok F.order ∧
      permuteSymmetric A (inverseOrder F.order) = .ok B ∧
      settings.orderedSigns F.order = .ok signs ∧ eliminationTree B = .ok (parent, counts) ∧
      factorNumeric B parent (offsets counts) signs settings.regularization = .ok s ∧
      F = { order := F.order
            lower := ⟨A.cols, A.cols, offsets counts, s.rowval, s.nzval⟩
            pivots := s.pivots
            inverses := s.inverses
            positiveInertia := s.positive
            regularizeCount := s.regularized } := by
  unfold factorBy at h
  rcases bind_eq_ok.mp h with ⟨⟨⟩, hcheck, h⟩
  rcases bind_eq_ok.mp h with ⟨order, horder, h⟩
  rcases bind_eq_ok.mp h with ⟨B, hB, h⟩
  rcases bind_eq_ok.mp h with ⟨signs, hsigns, h⟩
  rcases bind_eq_ok.mp h with ⟨⟨parent, counts⟩, htree, h⟩
  rcases bind_eq_ok.mp h with ⟨s, hs, h⟩
  cases h
  exact ⟨B, signs, parent, counts, s, hcheck, horder, hB, hsigns, htree, hs, rfl⟩

theorem isUpper_of_factorBy {rule : OrderingRule K} {A : Csc K} {settings : LdlSettings K}
    {F : LdlFactor K} (h : factorBy rule A settings = .ok F) : A.IsUpper := by
  rcases factorBy_eq_ok h with ⟨B, _, _, _, _, hcheck, _, hB, _⟩
  exact isUpper_of_eq_ok hcheck hB

end Ldl

namespace LdlFactor

theorem lowerEntry_self (F : LdlFactor K) (r : Nat) : F.lowerEntry r r = 1 :=
  if_pos rfl

theorem lowerEntry_of_ne (F : LdlFactor K) {r c : Nat} (h : r ≠ c) :
    F.lowerEntry r c = entrySum (F.lower.column c) r := by
  unfold lowerEntry
  rw [if_neg h, foldl_add_eq_entrySum, zero_add]

theorem lowerEntry_of_lt {F : LdlFactor K} {n r c : Nat} (hlower : F.lower.IsStrictlyLower n)
    (h : r < c) (hc : c < n) : F.lowerEntry r c = 0 := by
  rw [F.lowerEntry_of_ne h.ne, hlower.entrySum_eq_zero hc h.le]

theorem sum_lowerEntry {F : LdlFactor K} {n r c : Nat} (hlower : F.lower.IsStrictlyLower n)
    (hcr : c ≤ r) (hr : r < n) :
    ∑ m ∈ range n, F.lowerEntry r m * F.pivots.getD m 0 * F.lowerEntry c m =
      ∑ m ∈ range c, entrySum (F.lower.column m) r * F.pivots.getD m 0 *
        entrySum (F.lower.column m) c + F.lowerEntry r c * F.pivots.getD c 0 := by
  rw [sum_range_of_zero (j := c + 1) (by omega), sum_range_succ, F.lowerEntry_self, mul_one]
  · congr 1
    apply sum_congr rfl
    intro m hm
    have hmc := mem_range.mp hm
    rw [F.lowerEntry_of_ne (by omega), F.lowerEntry_of_ne (by omega)]
  · intro m hm hcm
    rw [lowerEntry_of_lt hlower hcm hm, mul_zero]

end LdlFactor

namespace Ldl

theorem Factored.product {B : Csc K} {parent : Array (Option Nat)} {colptr : Array Nat}
    {signs : Array Int} {reg : Option (Regularization K)} {s : NumericState K}
    {content : Nat → List (Nat × K)} {replaced : Finset Nat} {F : LdlFactor K}
    (h : Factored B parent colptr signs reg B.cols s content replaced)
    (hcolumn : ∀ c < B.cols, F.lower.column c = content c) (hpivots : F.pivots = s.pivots) :
    ∃ error : Nat → K, (∀ k, k ∉ replaced → error k = 0) ∧
      ∀ r < B.cols, ∀ c ≤ r,
        ∑ m ∈ range B.cols, F.lowerEntry r m * F.pivots.getD m 0 * F.lowerEntry c m =
          lastEntry (B.column r) c + if r = c then error r else 0 := by
  have hlower : F.lower.IsStrictlyLower B.cols := by
    intro c hc e he
    rw [hcolumn c hc] at he
    have hrow := h.rows c hc e he
    exact ⟨hrow.left, hrow.2.1⟩
  refine ⟨fun k => if k ∈ replaced then
    ∑ m ∈ range k, entrySum (content m) k * s.pivots.getD m 0 * entrySum (content m) k +
      s.pivots.getD k 0 - lastEntry (B.column k) k else 0, fun k hk => if_neg hk, ?_⟩
  intro r hr c hcr
  have hsum : ∑ m ∈ range c, entrySum (F.lower.column m) r * F.pivots.getD m 0 *
      entrySum (F.lower.column m) c =
      ∑ m ∈ range c, entrySum (content m) r * s.pivots.getD m 0 * entrySum (content m) c := by
    apply sum_congr rfl
    intro m hm
    rw [hcolumn m ((mem_range.mp hm).trans (hcr.trans_lt hr)), hpivots]
  rw [LdlFactor.sum_lowerEntry hlower hcr hr, hsum, hpivots]
  rcases Nat.lt_or_eq_of_le hcr with hlt | heq
  · rw [F.lowerEntry_of_ne hlt.ne', hcolumn c (hlt.trans hr), h.lower r hr c hlt,
      if_neg hlt.ne', add_zero]
  · subst heq
    rw [F.lowerEntry_self, one_mul, if_pos rfl]
    dsimp only
    by_cases hmem : c ∈ replaced
    · rw [if_pos hmem]
      ring
    · rw [if_neg hmem, h.pivot c hr hmem, add_zero]

end Ldl

theorem LdlFactor.sum_lowerEntry_comm (F : LdlFactor K) (n r c : Nat) :
    ∑ m ∈ range n, F.lowerEntry r m * F.pivots.getD m 0 * F.lowerEntry c m =
      ∑ m ∈ range n, F.lowerEntry c m * F.pivots.getD m 0 * F.lowerEntry r m := by
  apply sum_congr rfl
  intro m _
  ring

/-- Whatever the matrix, the settings and the order: a factorization that succeeds gives factors
of the matrix. -/
theorem Ldl.factorBy_factors {rule : OrderingRule K} {A : Csc K} {settings : LdlSettings K}
    {F : LdlFactor K} (hrule : ∀ order, rule A = .ok order → IsOrder order A.cols)
    (hF : factorBy rule A settings = .ok F) : ∃ replaced, F.Factors A settings replaced := by
  rcases factorBy_eq_ok hF with
    ⟨B, signs, parent, counts, s, hcheck, horder, hB, hsigns, htree, hs, heq⟩
  have hA := isUpper_of_eq_ok hcheck hB
  have hperm := hrule _ horder
  rcases permuteSymmetric_symmetricEntry hA hperm with ⟨B', hB', hupper, hcols, hentry⟩
  rw [hB] at hB'
  cases hB'
  rcases eliminationTree_eq_ok hupper with ⟨parent', counts', htree', htreeSpec, hcounts, hcount⟩
  rw [htree] at htree'
  cases htree'
  have hsize : signs.size = B.cols := by
    rw [(orderedSigns_eq_ok hsigns).left, hperm.size_eq, hcols]
  have hsign : ∀ k < B.cols, signValue (signs.getD k 0) = settings.pivotSign F.order k :=
    fun k hk => signValue_orderedSigns hsigns (by rw [hperm.size_eq, ← hcols]; exact hk)
  have houtcome := factorNumeric_outcome settings.regularization hupper htreeSpec hcounts hcount
    hsize
  rcases houtcome.of_ok hs with ⟨content, replaced, hfactored⟩
  have hcolumn : ∀ c < B.cols, F.lower.column c = content c := by
    intro c hc
    rw [heq]
    exact hfactored.column_eq (reserves_offsets hcounts hcount) hc
  have hpivots : F.pivots = s.pivots := by rw [heq]
  have hinverses : F.inverses = s.inverses := by rw [heq]
  rcases hfactored.product hcolumn hpivots with ⟨error, herror, hproduct⟩
  have hlower : ∀ r < A.cols, ∀ c ≤ r,
      ∑ m ∈ range A.cols, F.lowerEntry r m * F.pivots.getD m 0 * F.lowerEntry c m =
        A.symmetricEntry (F.order.getD r 0) (F.order.getD c 0) + if r = c then error r else 0 := by
    intro r hr c hcr
    rw [A.symmetricEntry_comm, ← hentry r hr c hcr, ← hproduct r (by omega) c hcr, hcols]
  refine ⟨replaced, hperm, by rw [hpivots, hfactored.size_pivots, hcols],
    by rw [hinverses, hfactored.size_inverses, hcols], ?_, ⟨error, herror, ?_⟩,
    hcols ▸ hfactored.replaced_subset, by rw [heq, hfactored.replaced_card], ?_, ?_, ?_, ?_⟩
  · intro c hc e he
    rw [hcolumn c (by omega)] at he
    have hrow := hfactored.rows c (by omega) e he
    omega
  · intro r hr c hc
    rcases le_total c r with hcr | hrc
    · exact hlower r hr c hcr
    · rw [F.sum_lowerEntry_comm, hlower c hc r hrc, A.symmetricEntry_comm]
      by_cases heqrc : r = c
      · rw [heqrc]
      · rw [if_neg heqrc, if_neg (Ne.symm heqrc)]
  · intro k hk
    rcases hfactored.replaced_pivot k hk with ⟨r, hr, hpivot⟩
    have hkn := mem_range.mp (hfactored.replaced_subset hk)
    have hsettings := settings.regularization_eq_some hr
    rw [hpivots, hpivot, hsign k hkn, hsettings.2.1]
    exact ⟨hsettings.left, rfl⟩
  · intro k hk
    have hkn := mem_range.mp (hfactored.replaced_subset hk)
    rcases hfactored.replaced_pivot k hk with ⟨r, hr, _⟩
    have hsmall := hfactored.replaced_small k hk r hr
    have hsum : ∑ m ∈ range k, F.lowerEntry k m * F.pivots.getD m 0 * F.lowerEntry k m =
        ∑ m ∈ range k, entrySum (content m) k * s.pivots.getD m 0 * entrySum (content m) k := by
      apply sum_congr rfl
      intro m hm
      have hmk := mem_range.mp hm
      rw [F.lowerEntry_of_ne hmk.ne', hcolumn m (hmk.trans hkn), hpivots]
    rw [hentry k (hcols ▸ hkn) k (le_refl k), hsign k hkn,
      (settings.regularization_eq_some hr).2.2] at hsmall
    rw [hsum]
    exact hsmall
  · intro k hk
    rw [hpivots, hinverses]
    exact hfactored.inverse k (by omega)
  · rw [hpivots, ← hcols, ← hfactored.positive, heq]

/-- Whatever the matrix, the settings and the order: if the factorization succeeds, its factors
multiplied out are the matrix in the order of elimination, but for an error on the diagonal at the
positions at which a pivot was replaced. -/
theorem Ldl.factorBy_product {rule : OrderingRule K} {A : Csc K} {settings : LdlSettings K}
    {F : LdlFactor K} (hrule : ∀ order, rule A = .ok order → IsOrder order A.cols)
    (hF : factorBy rule A settings = .ok F) :
    rule A = .ok F.order ∧
    (∀ c < A.cols, ∀ e ∈ F.lower.column c, c < e.1 ∧ e.1 < A.cols) ∧
    ∃ (replaced : Finset Nat) (error : Nat → K),
      (∀ r < A.cols, ∀ c < A.cols,
        ∑ m ∈ range A.cols, F.lowerEntry r m * F.pivots.getD m 0 * F.lowerEntry c m =
          A.symmetricEntry (F.order.getD r 0) (F.order.getD c 0) + if r = c then error r else 0) ∧
      (∀ k, k ∉ replaced → error k = 0) ∧
      replaced ⊆ range A.cols ∧ replaced.card = F.regularizeCount ∧
      (∀ k ∈ replaced, settings.regularize = true ∧
        F.pivots.getD k 0 = settings.replacement * settings.pivotSign F.order k) ∧
      (∀ k < A.cols, F.pivots.getD k 0 * F.inverses.getD k 0 = 1) ∧
      F.positiveInertia = #{k ∈ range A.cols | 0 < F.pivots.getD k 0} := by
  rcases factorBy_factors hrule hF with ⟨replaced, hfactors⟩
  rcases hfactors.product with ⟨error, herror, hproduct⟩
  rcases factorBy_eq_ok hF with ⟨_, _, _, _, _, _, horder, _⟩
  exact ⟨horder, hfactors.lower, replaced, error, hproduct, herror,
    hfactors.replaced_subset, hfactors.replaced_card, hfactors.replaced_pivot, hfactors.inverse,
    hfactors.positive⟩

/-- A matrix with unsorted columns, in an order that is not its own inverse. The pivot of its last
column has not the expected sign. -/
theorem Ldl.factorBy_product_cyclic :
    let A : Csc ℚ := ⟨3, 3, #[0, 1, 3, 5], #[0, 1, 0, 2, 0], #[4, 3, 1, 5, 2]⟩
    let settings : LdlSettings ℚ := ⟨some #[1, 1, -1], true, 1 / 1000, 1 / 10⟩
    ∃ F, factorBy (fun _ => .ok #[1, 2, 0]) A settings = .ok F ∧ F.regularizeCount = 1 ∧
      ∃ k < 3, F.pivots.getD k 0 = 1 / 10 * settings.pivotSign #[1, 2, 0] k := by
  intro A settings
  have hcount : ((factorBy (fun _ => .ok #[1, 2, 0]) A settings).toOption.map
      fun F => F.regularizeCount) = some 1 := by decide +kernel
  cases hF : factorBy (fun _ => .ok #[1, 2, 0]) A settings with
  | error e =>
      rw [hF] at hcount
      cases hcount
  | ok F =>
      rw [hF] at hcount
      have hone : F.regularizeCount = 1 := Option.some.inj hcount
      have horder : ∀ order : Array Nat, (.ok #[1, 2, 0] : Except LdlError _) = .ok order →
          IsOrder order A.cols := by
        intro order heq
        cases heq
        unfold IsOrder
        decide
      rcases factorBy_product horder hF with ⟨heq, _, replaced, _, _, _, hsub, hcard, hpivot, _⟩
      have hcyclic : F.order = #[1, 2, 0] := (Except.ok.inj heq).symm
      rcases card_pos.mp (by omega : 0 < replaced.card) with ⟨k, hk⟩
      refine ⟨F, rfl, hone, k, mem_range.mp (hsub hk), ?_⟩
      rw [← hcyclic]
      exact (hpivot k hk).right

end SoftMargin
