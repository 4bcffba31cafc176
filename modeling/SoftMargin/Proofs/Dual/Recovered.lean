import SoftMargin.Proofs.Dual.Certificate

/-!
# What a recovery returns

The equations are posed for the free multipliers alone, with those at the bound
moved to the other side. What the least squares leaves of them is what all the
multipliers leave: by how much they miss the sum, and the load of each supported
weight. The residual is the worst of these.
-/

namespace SoftMargin
namespace Dual

open Scalar Finset

variable {K : Type} [ExactScalar K] {P : Problem K} {x : PrimalSolution K}
  {definite : BoundedLeastSquares.DefiniteSolver K}

theorem size_assemble (points : Nat) (bound : K) (violating free : List Nat) (values : Array K) :
    (assemble points bound violating free values).size = points := by
  unfold assemble
  dsimp only
  rw [Ldl.size_foldl_set]
  have hviolating := Ldl.size_foldl_set (violating.map fun j => (j, bound)) (zeros points)
  rw [List.foldl_map] at hviolating
  exact hviolating.trans (size_zeros points)

/-- By how much multipliers miss the sum of one, and the load of each supported weight misses
`beta`. -/
def defectsOf (P : Problem K) (x : PrimalSolution K) (nu : Nat → K) (beta : K) : Set K :=
  insert |∑ j ∈ range P.points, nu j - 1|
    ((fun k => |P.loadAt nu k - beta|) '' {k | k < P.features ∧ activeTolerance < x.a.getD k 0})

theorem defects_posed_eq {beta marginTol : K} {values : Array K} {nu : Nat → K}
    (h : HaveValues P.points P.bound (violatingPoints P x) (freePoints P x marginTol) values nu) :
    let defects := (posed P x beta marginTol).defects values
    {v | ∃ r < defects.size, |defects.getD r 0| = v} = defectsOf P x nu beta := by
  rcases posed_defects beta h with ⟨hsize, hsupported, htotal⟩
  intro defects
  ext v
  constructor
  · rintro ⟨r, hr, rfl⟩
    rcases Nat.lt_succ_iff_lt_or_eq.mp (hsize ▸ hr) with hlt | rfl
    · refine .inr ⟨(support P x).getD r 0, mem_support.mp ?_, by rw [hsupported r hlt]⟩
      rw [getD_of_lt _ 0 hlt]
      exact Array.getElem_mem hlt
    · exact .inl (by rw [htotal])
  · rintro (rfl | ⟨k, hk, rfl⟩)
    · exact ⟨(support P x).size, hsize ▸ Nat.lt_succ_self _, by rw [htotal]⟩
    · rcases Array.mem_iff_getElem.mp (mem_support.mpr hk) with ⟨r, hr, hrk⟩
      refine ⟨r, hsize ▸ Nat.lt_succ_of_lt hr, ?_⟩
      rw [hsupported r hr, getD_of_lt _ 0 hr, hrk]

/-- Recovered multipliers, one for each point, lie within the box. They are at the bound on every
violating point and zero on every point that is neither violating nor free. The residual is the
greatest defect of the equations that all of them satisfy, those of the violating points included;
where it is checked it is within its tolerance. -/
theorem recover_residual_isGreatest {value : K} {settings : Settings K} {dual : DualSolution K}
    (hbound : 0 < P.bound) (h : recover definite P.data P.bound x value settings = .ok dual) :
    dual.beta = -value ∧ dual.u.size = P.points ∧
      (∀ j < P.points, 0 ≤ dual.u.getD j 0 ∧ dual.u.getD j 0 ≤ P.bound) ∧
      (∀ j < P.points, activeTolerance < x.xi.getD j 0 → dual.u.getD j 0 = P.bound) ∧
      (∃ s, system P.data P.bound x dual.beta settings.marginTol = .ok s ∧
        ∀ j < P.points, ¬activeTolerance < x.xi.getD j 0 → j ∉ s.free → dual.u.getD j 0 = 0) ∧
      IsGreatest (defectsOf P x (fun j => dual.u.getD j 0) dual.beta) dual.residual ∧
      (settings.checkResidual = true → dual.residual ≤ settings.recoveryTol) := by
  rcases posed_of_recover h with ⟨hsystem, hrecovered⟩
  rcases System.recovered_eq_ok hrecovered with ⟨values, hsolved, rfl, hchecked⟩
  have hbox := (posed_inBox P x (-value) settings.marginTol).mp
    (BoundedLeastSquares.Problem.solveBy_inBox hsolved)
  have hvalues := haveValues_assemble P.bound (areKinds P x settings.marginTol) hbox.left
  refine ⟨rfl, size_assemble _ _ _ _ _, ?_, ?_, ⟨_, hsystem, ?_⟩, ?_, hchecked⟩
  · intro j hj
    exact hvalues.mem_box hbound.le hbox.right hj
  · intro j hj hactive
    exact hvalues.violating_eq j (mem_violatingPoints.mpr ⟨hj, hactive⟩)
  · intro j hj hinactive hfree
    apply hvalues.rest_eq j hj
    intro hkind
    rcases List.mem_append.mp hkind with hviolating | hmem
    · exact hinactive (mem_violatingPoints.mp hviolating).right
    · exact hfree hmem
  · have hnonempty : 0 < ((posed P x (-value) settings.marginTol).defects values).size := by
      rw [(posed_defects (-value) hvalues).left]
      exact Nat.succ_pos _
    have hgreatest := maxNorm_isGreatest hnonempty
    rw [defects_posed_eq hvalues] at hgreatest
    exact hgreatest

def checkedSettings : Settings ℚ :=
  { Settings.default with checkResidual := true, recoveryTol := 1 / 4 }

/-- For a value that is not the optimal one, the free multiplier gives up some of the sum and some
of the load of the supported weight. The load is missed by more. -/
theorem recover_residual_isGreatest_tightPoint :
    ∃ dual, recover Cholesky.solve? tightPoint.data tightPoint.bound tightPointOptimum (-(1 / 2))
        checkedSettings = .ok dual ∧
      dual.u = #[3 / 4, 31 / 100, 0] ∧ dual.residual = 2 / 25 ∧
      dual.beta = 1 / 2 ∧ dual.u.getD 0 0 = tightPoint.bound ∧
      |∑ j ∈ range 3, dual.u.getD j 0 - 1| ≤ dual.residual ∧
      dual.residual ≤ checkedSettings.recoveryTol := by
  have hvalues : (recover Cholesky.solve? tightPoint.data tightPoint.bound tightPointOptimum
      (-(1 / 2)) checkedSettings).toOption.map (fun dual => (dual.u, dual.residual)) =
        some (#[3 / 4, 31 / 100, 0], 2 / 25) := by decide +kernel
  cases hrecovered : recover Cholesky.solve? tightPoint.data tightPoint.bound tightPointOptimum
      (-(1 / 2)) checkedSettings with
  | error e =>
      rw [hrecovered] at hvalues
      cases hvalues
  | ok dual =>
      rw [hrecovered] at hvalues
      obtain ⟨hu, hresidual⟩ := Prod.mk.inj (Option.some.inj hvalues)
      obtain ⟨hbeta, _, _, hviolating, _, hgreatest, hchecked⟩ :=
        recover_residual_isGreatest (by decide +kernel) hrecovered
      exact ⟨dual, rfl, hu, hresidual, hbeta.trans (neg_neg _),
        hviolating 0 (by decide) (by decide +kernel), hgreatest.right (.inl rfl), hchecked rfl⟩

end Dual
end SoftMargin
