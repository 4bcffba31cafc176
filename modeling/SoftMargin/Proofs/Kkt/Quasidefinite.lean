import SoftMargin.Proofs.Kkt.Exactness
import SoftMargin.Proofs.Ldl.Quasidefinite
import SoftMargin.Proofs.Ldl.Success

/-!
# Factoring the system of a partition

Entries off the diagonal of the system join a variable and an equation, so with
a lower right block that is not positive the system is quasidefinite. It can be
factored whatever the order of elimination, and if neither diagonal is too small
no pivot is touched.
-/

namespace SoftMargin

open Scalar Finset

variable {K : Type} [ExactScalar K]

/-!
## The format
-/

theorem Csc.isUpper_ofColumns {α : Type} {L : List (List (Nat × α))} {rows : Nat}
    (hrows : rows = L.length)
    (hle : ∀ c < L.length, ∀ e ∈ (ofColumns rows L).column c, e.1 ≤ c) :
    (ofColumns rows L).IsUpper := by
  have hlast : ∀ c < L.length, (ofColumns rows L).colptr.getD (c + 1) 0 ≤ L.flatten.length := by
    intro c hc
    rw [getD_colptr_ofColumns L hc, List.length_flatten]
    exact ((L.map List.length).take_sublist (c + 1)).sum_le_sum fun _ _ => Nat.zero_le _
  refine ⟨hrows, ?_, ?_, ?_, ?_, hle⟩
  · show L.length < (Ldl.offsets (L.map List.length).toArray).size
    simp
  · intro c hc
    rw [getD_colptr_ofColumns L (Nat.le_of_lt hc), getD_colptr_ofColumns L hc]
    exact ((L.map List.length).take_sublist_take_left (Nat.le_succ c)).sum_le_sum
      fun _ _ => Nat.zero_le _
  · intro c hc
    refine (hlast c hc).trans_eq ?_
    show L.flatten.length = (L.flatten.map (·.1)).toArray.size
    rw [List.size_toArray, List.length_map]
  · intro c hc
    refine (hlast c hc).trans_eq ?_
    show L.flatten.length = (L.flatten.map (·.2)).toArray.size
    rw [List.size_toArray, List.length_map]

namespace Kkt

variable (H : Matrix K) (rho δ : K)

theorem isUpper_assemble : (assemble H rho δ).IsUpper := by
  have hlength := length_columnsWith H rho fun _ => δ
  rw [← columns_eq] at hlength
  refine Csc.isUpper_ofColumns hlength.symm ?_
  intro c hc e he
  rw [hlength] at hc
  exact row_lt_of_mem_column H rho δ hc he

theorem Shape.exists_equationIndex {s : Shape} {c : Nat} (hc : c < s.dimension)
    (hvar : ¬c < s.variableCount) : ∃ j < s.equationCount, c = s.equationIndex j := by
  unfold dimension at hc
  refine ⟨c - s.variableCount, by omega, ?_⟩
  unfold equationIndex
  omega

theorem column_assemble_ne_nil {c : Nat} (hc : c < (Shape.of H).dimension) :
    (assemble H rho δ).column c ≠ [] := by
  by_cases hvar : c < (Shape.of H).variableCount
  · rw [column_variable H rho δ hvar]
    exact List.cons_ne_nil _ _
  · rcases Shape.exists_equationIndex hc hvar with ⟨j, hj, rfl⟩
    rw [column_equation H rho δ hj]
    exact List.concat_ne_nil _ _

theorem checkStructure_assemble : Ldl.checkStructure (assemble H rho δ) = .ok () := by
  refine Ldl.checkStructure_of_isUpper (isUpper_assemble H rho δ) ?_ ?_
  · show (Ldl.offsets ((columns H rho δ).map List.length).toArray).size = _
    rw [Ldl.size_offsets, List.size_toArray, List.length_map]
    rfl
  · intro c hc
    rw [cols_assemble] at hc
    exact column_assemble_ne_nil H rho δ hc

/-!
## The entries
-/

def columnSign (s : Shape) (c : Nat) : K :=
  if c < s.variableCount then 1 else -1

theorem symmetricEntry_variable {i r : Nat} (hi : i < (Shape.of H).variableCount) (hr : r ≤ i) :
    (assemble H rho δ).symmetricEntry r i = if i = r then rho else 0 := by
  rw [Csc.symmetricEntry_of_le _ hr, column_variable H rho δ hi]
  rfl

theorem symmetricEntry_equation {j r : Nat} (hj : j < (Shape.of H).equationCount)
    (hr : r ≤ (Shape.of H).equationIndex j) :
    (assemble H rho δ).symmetricEntry r ((Shape.of H).equationIndex j) =
      if (Shape.of H).equationIndex j = r then δ else equationEntry H j r := by
  rw [Csc.symmetricEntry_of_le _ hr, column_equation H rho δ hj, lastEntry_concat]
  unfold equationEntry
  rw [Csc.entrySum_eq_lastEntry (nodup_rows_equationFront H j)]

theorem symmetricEntry_self {c : Nat} (hc : c < (Shape.of H).dimension) :
    (assemble H rho δ).symmetricEntry c c = if c < (Shape.of H).variableCount then rho else δ := by
  by_cases hvar : c < (Shape.of H).variableCount
  · rw [symmetricEntry_variable H rho δ hvar (le_refl c), if_pos rfl, if_pos hvar]
  · rw [if_neg hvar]
    rcases Shape.exists_equationIndex hc hvar with ⟨j, hj, rfl⟩
    rw [symmetricEntry_equation H rho δ hj (le_refl _), if_pos rfl]

/-- No entry joins two variables or two equations. -/
theorem columnSign_opposite {r c : Nat} (hrc : r < c) (hc : c < (Shape.of H).dimension) :
    (columnSign (Shape.of H) r + columnSign (Shape.of H) c) *
      (assemble H rho δ).symmetricEntry r c = 0 := by
  by_cases hvar : c < (Shape.of H).variableCount
  · rw [symmetricEntry_variable H rho δ hvar hrc.le, if_neg hrc.ne', mul_zero]
  · by_cases hrow : r < (Shape.of H).variableCount
    · unfold columnSign
      rw [if_pos hrow, if_neg hvar, add_neg_cancel, zero_mul]
    · rcases Shape.exists_equationIndex hc hvar with ⟨j, hj, rfl⟩
      rw [symmetricEntry_equation H rho δ hj hrc.le, if_neg hrc.ne',
        equationEntry_of_le H j (Nat.not_lt.mp hrow), mul_zero]

theorem columnSign_mul_self (reg : K) {c : Nat} (hc : c < (Shape.of H).dimension) :
    columnSign (Shape.of H) c * (assemble H rho (-reg)).symmetricEntry c c =
      if c < (Shape.of H).variableCount then rho else reg := by
  rw [symmetricEntry_self H rho (-reg) hc]
  unfold columnSign
  by_cases hvar : c < (Shape.of H).variableCount
  · rw [if_pos hvar, if_pos hvar, if_pos hvar, one_mul]
  · rw [if_neg hvar, if_neg hvar, if_neg hvar, neg_one_mul, neg_neg]

theorem isQuasidefinite_assemble {reg : K} (hrho : 0 ≤ rho) (hreg : 0 ≤ reg) :
    (assemble H rho (-reg)).IsQuasidefinite (columnSign (Shape.of H)) := by
  constructor
  · intro c hc
    rw [cols_assemble] at hc
    rw [columnSign_mul_self H rho reg hc]
    by_cases hvar : c < (Shape.of H).variableCount
    · rw [if_pos hvar]
      exact hrho
    · rw [if_neg hvar]
      exact hreg
  · intro r hr c hc hne
    rw [cols_assemble] at hr hc
    rcases Nat.lt_or_gt_of_ne hne with hrc | hcr
    · exact columnSign_opposite H rho (-reg) hrc hc
    · rw [add_comm, Csc.symmetricEntry_comm]
      exact columnSign_opposite H rho (-reg) hcr hr

theorem card_columnSign_pos (s : Shape) :
    #{c ∈ range s.dimension | 0 < (columnSign s c : K)} = s.variableCount := by
  have hpos : ∀ c, 0 < (columnSign s c : K) ↔ c < s.variableCount := by
    intro c
    unfold columnSign
    by_cases hvar : c < s.variableCount
    · rw [if_pos hvar]
      exact iff_of_true zero_lt_one hvar
    · rw [if_neg hvar]
      exact iff_of_false (not_lt.mpr (neg_nonpos.mpr zero_le_one)) hvar
  have hfilter : {c ∈ range s.dimension | 0 < (columnSign s c : K)} = range s.variableCount := by
    ext c
    rw [mem_filter, mem_range, mem_range, hpos]
    constructor
    · intro h
      exact h.right
    · intro h
      refine ⟨?_, h⟩
      unfold Shape.dimension
      omega
  rw [hfilter, card_range]

end Kkt

/-!
## The factorization
-/

namespace KktSolver

theorem size_expectedSigns (s : Kkt.Shape) : (expectedSigns s).size = s.dimension := by
  simp [expectedSigns, Kkt.Shape.dimension]

theorem signValue_expectedSigns {s : Kkt.Shape} {c : Nat} (hc : c < s.dimension) :
    (Ldl.signValue ((expectedSigns s).getD c 0) : K) = Kkt.columnSign s c := by
  unfold Kkt.columnSign
  by_cases hvar : c < s.variableCount
  · have hsign : (expectedSigns s).getD c 0 = 1 := by
      unfold expectedSigns
      rw [getD_append_left _ _ _ (by simpa using hvar), getD_of_lt _ _ (by simpa using hvar),
        Array.getElem_replicate]
    rw [hsign, if_pos hvar]
    rfl
  · have hsign : (expectedSigns s).getD c 0 = -1 := by
      have hrest : c - s.variableCount < s.equationCount := by
        unfold Kkt.Shape.dimension at hc
        omega
      unfold expectedSigns
      rw [getD_append_right _ _ _ (by simpa using hvar), Array.size_replicate,
        getD_of_lt _ _ (by simpa using hrest), Array.getElem_replicate]
    rw [hsign, if_neg hvar]
    rfl

theorem mendsZeros_default (signs : Option (Array Int)) :
    Ldl.MendsZeros { (LdlSettings.default : LdlSettings K) with signs }.regularization := by
  refine ⟨⟨1e-12, 1e-7⟩, rfl, ?_, ?_⟩
  · norm_num
  · norm_num

variable {rule : Ldl.OrderingRule K} {H : Matrix K} {settings : Settings K} {order : Array Nat}

theorem exists_newBy (hH : H.Complete)
    (hrule : rule (Kkt.assemble H settings.rho (-settings.staticReg)) = .ok order)
    (horder : Ldl.IsOrder order (Kkt.Shape.of H).dimension) :
    ∃ solver, newBy rule H settings = .ok solver := by
  have hcols := Kkt.cols_assemble H settings.rho (-settings.staticReg)
  have hfactor := Ldl.exists_factorBy
    { LdlSettings.default with signs := some (expectedSigns (Kkt.Shape.of H)) }
    (Kkt.isUpper_assemble H settings.rho (-settings.staticReg))
    (Kkt.checkStructure_assemble H settings.rho (-settings.staticReg)) hrule (hcols ▸ horder)
    (by
      intro signs hsigns
      rw [← Option.some.inj hsigns, size_expectedSigns, hcols])
    (mendsZeros_default _)
  rcases hfactor with ⟨F, hF⟩
  unfold newBy
  rw [decide_eq_true hH, Bool.not_true, if_neg Bool.false_ne_true]
  dsimp only
  rw [hF, Ldl.ok_bind]
  exact ⟨_, rfl⟩

/-- No pivot was replaced. Those of the variables are at least `rho`, and those of the equations are
at most the negative of the static regularization. -/
structure HasSignedPivots (solver : KktSolver K) (s : Kkt.Shape) (settings : Settings K) :
    Prop where
  order : Ldl.IsOrder solver.factor.order s.dimension
  regularizeCount : solver.factor.regularizeCount = 0
  rho_le : ∀ k < s.dimension, solver.factor.order.getD k 0 < s.variableCount →
    settings.rho ≤ solver.factor.pivots.getD k 0
  le_neg_staticReg : ∀ k < s.dimension, s.variableCount ≤ solver.factor.order.getD k 0 →
    solver.factor.pivots.getD k 0 ≤ -settings.staticReg
  positiveInertia : solver.factor.positiveInertia = s.variableCount

/-- In every order the system has pivots of the expected signs, provided that neither diagonal is
below the limit for a pivot. -/
theorem newBy_hasSignedPivots {solver : KktSolver K} (h : newBy rule H settings = .ok solver)
    (horder : ∀ order, rule (Kkt.assemble H settings.rho (-settings.staticReg)) = .ok order →
      Ldl.IsOrder order (Kkt.Shape.of H).dimension)
    (hrho : 1e-12 ≤ settings.rho) (hreg : 1e-12 ≤ settings.staticReg) :
    solver.HasSignedPivots (Kkt.Shape.of H) settings := by
  have hlimit : (0 : K) < 1e-12 := by norm_num
  have hcols := Kkt.cols_assemble H settings.rho (-settings.staticReg)
  rcases Ldl.factorBy_factors (hcols ▸ horder) (newBy_eq_ok h).right with ⟨replaced, hfactors⟩
  have hquasi := Kkt.isQuasidefinite_assemble H settings.rho (hlimit.le.trans hrho)
    (hlimit.le.trans hreg)
  have hdiagonal := fun c hc =>
    Kkt.columnSign_mul_self H settings.rho settings.staticReg (c := c) hc
  have hpivots := hfactors.diagonal_le_pivots hquasi (by
    intro k hk
    exact signValue_expectedSigns (hcols ▸ hfactors.order.lt hk)) (by
    intro c hc
    rw [hdiagonal c (hcols ▸ hc)]
    by_cases hvar : c < (Kkt.Shape.of H).variableCount
    · rw [if_pos hvar]
      exact hrho
    · rw [if_neg hvar]
      exact hreg)
  rw [hcols] at hpivots
  have hsteps := hfactors.order
  rw [hcols] at hsteps
  refine ⟨hsteps, hpivots.left, ?_, ?_, ?_⟩
  · intro k hk hvar
    have hbound := hpivots.right k hk
    rw [hdiagonal _ (hsteps.lt hk), if_pos hvar] at hbound
    unfold Kkt.columnSign at hbound
    rwa [if_pos hvar, one_mul] at hbound
  · intro k hk hvar
    have hbound := hpivots.right k hk
    rw [hdiagonal _ (hsteps.lt hk), if_neg (Nat.not_lt.mpr hvar)] at hbound
    unfold Kkt.columnSign at hbound
    rw [if_neg (Nat.not_lt.mpr hvar), neg_one_mul] at hbound
    exact le_neg.mp hbound
  · rw [← Kkt.card_columnSign_pos (K := K), ← hcols]
    apply hfactors.positiveInertia_eq
    intro k hk
    rw [hcols] at hk
    refine lt_of_lt_of_le ?_ (hpivots.right k hk)
    rw [hdiagonal _ (hsteps.lt hk)]
    by_cases hvar : solver.factor.order.getD k 0 < (Kkt.Shape.of H).variableCount
    · rw [if_pos hvar]
      exact hlimit.trans_le hrho
    · rw [if_neg hvar]
      exact hlimit.trans_le hreg

end KktSolver
end SoftMargin
