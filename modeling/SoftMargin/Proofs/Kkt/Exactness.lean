import SoftMargin.Proofs.Kkt.Assembly
import SoftMargin.Proofs.Ldl.Solve
import SoftMargin.Kkt.Solver

/-!
# Exact answers

Without a static regularization the factored system is the system itself. If no
pivot was replaced, the factors answer it exactly, and the refinement keeps an
answer that leaves no residual.
-/

namespace SoftMargin

open Scalar Finset

variable {K : Type} [ExactScalar K]

/-!
## Refinement
-/

namespace Refinement

variable (A : Csc K) (direct : Array K → Array K) (b : Array K)

theorem refine_of_norm_eq_zero (target : K) (left : Nat) {s : State K} (hs : s.norm = 0) :
    refine A direct b target left s = s := by
  cases left with
  | zero => rfl
  | succ left =>
      have hnext : ¬(s.correct A direct b).norm < s.norm := by
        rw [hs]
        exact not_lt.mpr (maxNorm_nonneg _)
      unfold refine
      rw [isFinite_exact, Bool.not_true, if_neg Bool.false_ne_true]
      by_cases htarget : s.norm ≤ target
      · rw [if_pos htarget]
      · rw [if_neg htarget]
        exact if_neg hnext

theorem solve_of_exact (limits : Limits K) {n : Nat}
    (h : A.symmetricMulAdd (-1) (direct b) 1 b = zeros n) :
    solve A direct limits b = (true, direct b) := by
  have hnorm : (State.of A b (direct b)).norm = 0 := by
    change maxNorm (A.symmetricMulAdd (-1) (direct b) 1 b) = 0
    rw [h, maxNorm_zeros]
  have hfinite : allFinite (direct b) = true := by
    unfold allFinite
    rw [Array.all_eq_true]
    intro i hi
    exact isFinite_exact _
  unfold solve
  rw [refine_of_norm_eq_zero A direct b _ _ hnorm]
  change (isFinite _ && allFinite (direct b), direct b) = _
  rw [isFinite_exact, hfinite]
  rfl

end Refinement

/-!
## Rows of the system
-/

namespace Kkt

theorem nodup_rows_equationFront (H : Matrix K) (j : Nat) :
    ((equationFront H j).map (·.1)).Nodup := by
  have hinjective : ∀ offset : Nat, Function.Injective fun k : Nat => offset + k :=
    fun offset k k' h => Nat.add_left_cancel h
  unfold equationFront Shape.weightIndex
  dsimp only
  by_cases hpoint : j < (Shape.of H).points
  · have hrows : ((H.col j).toList.mapIdx fun k h =>
        (2 * (Shape.of H).points + 1 + k, h)).map (·.1) =
        (List.range (H.col j).toList.length).map fun k => 2 * (Shape.of H).points + 1 + k := by
      apply List.ext_getElem (by simp)
      intro i hi hi'
      simp
    rw [if_pos hpoint, List.map_append, hrows, List.nodup_append]
    refine ⟨?_, List.nodup_range.map (hinjective _), ?_⟩
    · unfold Shape.surplusIndex Shape.thresholdIndex
      simp
      omega
    · intro r hr r' hr' heq
      rcases List.mem_map.mp hr' with ⟨k, _, rfl⟩
      unfold Shape.surplusIndex Shape.thresholdIndex at hr
      simp only [List.map_cons, List.map_nil, List.mem_cons, List.not_mem_nil, or_false] at hr
      omega
  · rw [if_neg hpoint, List.map_map]
    exact List.nodup_range.map (hinjective _)

theorem nodup_rows_assemble (H : Matrix K) (rho δ : K) {c : Nat}
    (hc : c < (Shape.of H).dimension) : (((assemble H rho δ).column c).map (·.1)).Nodup := by
  by_cases hvar : c < (Shape.of H).variableCount
  · rw [column_variable H rho δ hvar]
    exact List.nodup_singleton _
  · have hsplit : c = (Shape.of H).equationIndex (c - (Shape.of H).variableCount) := by
      unfold Shape.equationIndex
      omega
    rw [hsplit, column_equation H rho δ (by unfold Shape.dimension at hc; omega), List.map_append,
      List.nodup_append]
    refine ⟨nodup_rows_equationFront H _, List.nodup_singleton _, ?_⟩
    intro r hr r' hr' heq
    rcases List.mem_map.mp hr with ⟨e, he, rfl⟩
    have hlt := row_lt_of_mem_equationFront H he
    rw [List.mem_singleton.mp hr'] at heq
    unfold Shape.equationIndex at heq
    dsimp only at heq
    omega

end Kkt

/-!
## The solver
-/

namespace KktSolver

variable {rule : Ldl.OrderingRule K} {H : Matrix K} {settings : Settings K} {solver : KktSolver K}

theorem newBy_eq_ok (h : newBy rule H settings = .ok solver) :
    solver.system = Kkt.assemble H settings.rho 0 ∧ Ldl.factorBy rule
      (Kkt.assemble H settings.rho (-settings.staticReg))
      { LdlSettings.default with signs := some (expectedSigns (Kkt.Shape.of H)) } =
        .ok solver.factor := by
  unfold newBy at h
  dsimp only at h
  by_cases hcomplete : (!decide H.Complete) = true
  · rw [if_pos hcomplete] at h
    cases h
  · rw [if_neg hcomplete] at h
    rcases Ldl.bind_eq_ok.mp h with ⟨factor, hfactor, h⟩
    cases h
    exact ⟨Kkt.clearEquationBlock_assemble H _ _, hfactor⟩

/-- Without regularization, of the system or of its pivots, every answer is exact. -/
theorem solve_exact
    (hrule : ∀ (A : Csc K) order, rule A = .ok order → Ldl.IsOrder order A.cols)
    (h : newBy rule H settings = .ok solver) (hreg : settings.staticReg = 0)
    (hcount : solver.factor.regularizeCount = 0) {b : Array K}
    (hb : b.size = (Kkt.Shape.of H).dimension) :
    (solver.solve b).1 = true ∧ (solver.solve b).2.size = (Kkt.Shape.of H).dimension ∧
      (Kkt.assemble H settings.rho 0).symmetricMulAdd (-1) (solver.solve b).2 1 b =
        zeros (Kkt.Shape.of H).dimension := by
  rcases newBy_eq_ok h with ⟨hsystem, hfactor⟩
  rw [hreg, neg_zero] at hfactor
  have hcols := Kkt.cols_assemble H settings.rho 0
  rcases Ldl.factorBy_factors (hrule _) hfactor with ⟨replaced, hfactors⟩
  have hupper := Ldl.isUpper_of_factorBy hfactor
  have hanswer := hfactors.solve_spec (hb.trans hcols.symm)
  have hspec :=
    Kkt.symmetricMulAdd_assemble H settings.rho 0 (-1) (solver.factor.solve b) 1 hb
  have hresidual : (Kkt.assemble H settings.rho 0).symmetricMulAdd (-1) (solver.factor.solve b)
      1 b = zeros (Kkt.Shape.of H).dimension := by
    apply ext_getD 0 (by rw [hspec.left, size_zeros])
    intro i hi
    rw [hspec.left] at hi
    rw [hspec.right i hi, getD_zeros, Csc.symmetricTimes_eq_sum hupper (fun c hc =>
      Kkt.nodup_rows_assemble H _ _ (hc.trans_eq hcols)) _ (hi.trans_eq hcols.symm),
      hfactors.solve_exact hcount (hb.trans hcols.symm) (hi.trans_eq hcols.symm)]
    ring
  have hsolve : solver.solve b = (true, solver.factor.solve b) := by
    unfold solve
    rw [hsystem]
    exact Refinement.solve_of_exact _ _ _ _ hresidual
  rw [hsolve]
  exact ⟨rfl, hanswer.left.trans hcols, hresidual⟩

end KktSolver
end SoftMargin
