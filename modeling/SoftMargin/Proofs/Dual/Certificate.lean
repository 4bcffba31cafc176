import SoftMargin.Proofs.Dual.System
import SoftMargin.Proofs.Exact.Simplex
import SoftMargin.Proofs.LeastSquares.Box
import SoftMargin.Proofs.Program.Objective
import SoftMargin.LeastSquares.Cholesky

/-!
# What recovered multipliers certify

Values within the box that satisfy the equations make multipliers that sum to
one and load every supported weight the same. If they load no other weight more,
they bound the cost of every feasible point from below. On the other side, the
multipliers of an optimal pair are at the bound on every violating point and zero
on every point that is not selected, so their free part solves the equations
whichever optimal multipliers they are.
-/

namespace SoftMargin
namespace Dual

open Scalar Finset

variable {K : Type} [ExactScalar K] {P : Problem K} {x : PrimalSolution K} {beta marginTol : K}
  {definite : BoundedLeastSquares.DefiniteSolver K}

/-!
## Certificates
-/

theorem mem_support {k : Nat} :
    k ∈ support P x ↔ k < P.features ∧ activeTolerance < x.a.getD k 0 := by
  unfold support
  rw [Array.mem_filter, Array.mem_range, decide_eq_true_eq]

theorem mem_violatingPoints {j : Nat} :
    j ∈ violatingPoints P x ↔ j < P.points ∧ activeTolerance < x.xi.getD j 0 := by
  unfold violatingPoints
  rw [List.mem_filter, List.mem_range, decide_eq_true_eq]

theorem HaveValues.mem_box {n : Nat} {bound : K} {violating free : List Nat} {values : Array K}
    {nu : Nat → K} (h : HaveValues n bound violating free values nu) (hbound : 0 ≤ bound)
    (hvalues : ∀ c < free.length, 0 ≤ values.getD c 0 ∧ values.getD c 0 ≤ bound) {j : Nat}
    (hj : j < n) : 0 ≤ nu j ∧ nu j ≤ bound := by
  by_cases hkind : j ∈ violating ++ free
  · rcases List.mem_append.mp hkind with hviolating | hfree
    · rw [h.violating_eq j hviolating]
      exact ⟨hbound, le_refl _⟩
    · rcases List.mem_iff_getElem.mp hfree with ⟨c, hc, rfl⟩
      have hvalue := h.free_eq c hc
      rw [List.getD_eq_getElem?_getD, List.getElem?_eq_getElem hc, Option.getD_some] at hvalue
      rw [hvalue]
      exact hvalues c hc
  · rw [h.rest_eq j hj hkind]
    exact ⟨le_refl _, hbound⟩

variable (P x beta marginTol) in
theorem posed_inBox {bound : K} {values : Array K} :
    ((posed P x beta marginTol).leastSquares bound).InBox values ↔
      values.size = (freePoints P x marginTol).length ∧
        ∀ c < (freePoints P x marginTol).length,
          0 ≤ values.getD c 0 ∧ values.getD c 0 ≤ bound := by
  have hlower : ∀ c, ((posed P x beta marginTol).leastSquares bound).lowerAt c = 0 :=
    fun c => getD_zeros _ c
  have hupper : ∀ c < (freePoints P x marginTol).length,
      ((posed P x beta marginTol).leastSquares bound).upperAt c = bound := by
    intro c hc
    refine (getD_of_lt _ 0 ?_).trans (Array.getElem_replicate _)
    exact hc.trans_eq Array.size_replicate.symm
  constructor
  · intro h
    refine ⟨h.size_eq, ?_⟩
    intro c hc
    exact ⟨(hlower c).symm.trans_le (h.lower_le c hc), (h.le_upper c hc).trans_eq (hupper c hc)⟩
  · intro h
    refine ⟨h.left, ?_, ?_⟩
    · intro c hc
      exact (hlower c).trans_le (h.right c hc).left
    · intro c hc
      exact (h.right c hc).right.trans_eq (hupper c hc).symm

theorem dualFeasible_of_recover {value : K} {settings : Settings K} {dual : DualSolution K}
    (hbound : 0 < P.bound) (h : recover definite P.data P.bound x value settings = .ok dual)
    (hresidual : dual.residual = 0)
    (hload : ∀ k < P.features, ¬activeTolerance < x.a.getD k 0 →
      P.loadAt (fun j => dual.u.getD j 0) k ≤ dual.beta) :
    dual.beta = -value ∧ P.DualFeasible (fun j => dual.u.getD j 0) dual.beta := by
  rcases recover_eq_ok h with ⟨values, hsolved, rfl⟩
  have hbox := (posed_inBox P x (-value) settings.marginTol).mp
    (BoundedLeastSquares.Problem.solveBy_inBox hsolved)
  have hvalues := haveValues_assemble P.bound (areKinds P x settings.marginTol) hbox.left
  rcases posed_defects (-value) hvalues with ⟨_, hsupported, htotal⟩
  have hmet := getD_eq_zero_of_maxNorm hresidual
  refine ⟨rfl, ?_, ?_, ?_, ?_⟩
  · intro j hj
    exact (hvalues.mem_box hbound.le hbox.right hj).left
  · intro j hj
    exact (hvalues.mem_box hbound.le hbox.right hj).right
  · rw [hmet] at htotal
    exact (sub_eq_zero.mp htotal.symm)
  · intro k hk
    by_cases hactive : activeTolerance < x.a.getD k 0
    · rcases Array.mem_iff_getElem.mp (mem_support.mpr ⟨hk, hactive⟩) with ⟨r, hr, hrk⟩
      have hrow := hsupported r hr
      rw [hmet, getD_of_lt _ 0 hr, hrk] at hrow
      exact (sub_eq_zero.mp hrow.symm).le
    · exact hload k hk hactive

/-- Recovered multipliers that miss no equation, and load no unsupported weight more than the
supported ones, bound the cost of every feasible point from below by the value they were recovered
for. A feasible point of that value is optimal. -/
theorem recover_bounds_cost {value : K} {settings : Settings K} {dual : DualSolution K}
    (hbound : 0 < P.bound) (h : recover definite P.data P.bound x value settings = .ok dual)
    (hresidual : dual.residual = 0)
    (hload : ∀ k < P.features, ¬activeTolerance < x.a.getD k 0 →
      P.loadAt (fun j => dual.u.getD j 0) k ≤ dual.beta) :
    (∀ y, P.Feasible y → value ≤ P.cost y) ∧
      (P.Feasible x → P.cost x = value → P.IsOptimal x) := by
  rcases dualFeasible_of_recover hbound h hresidual hload with ⟨hbeta, hfeasible⟩
  have hbelow : ∀ y, P.Feasible y → value ≤ P.cost y := by
    intro y hy
    have hweak := Problem.neg_le_cost hy hfeasible
    rwa [hbeta, neg_neg] at hweak
  refine ⟨hbelow, ?_⟩
  intro hx hcost
  refine ⟨hx, ?_⟩
  intro y hy
  rw [hcost]
  exact hbelow y hy

/-- A point that violates the margin, one on it and one beyond it. -/
def tightPoint : Problem ℚ :=
  ⟨⟨2, 3, #[1 / 4, 0, 3 / 4, 1, 1, 1]⟩, 3 / 4⟩

def tightPointOptimum : PrimalSolution ℚ :=
  ⟨#[1, 0], 3 / 4, #[1 / 2, 0, 0]⟩

def tightPointMultipliers : Array ℚ :=
  #[3 / 4, 1 / 4, 0]

theorem recover_tightPoint :
    recover Cholesky.solve? tightPoint.data tightPoint.bound tightPointOptimum (-(3 / 8))
      Settings.default = .ok ⟨tightPointMultipliers, 3 / 8, 0⟩ := by
  have hrecovered : (recover Cholesky.solve? tightPoint.data tightPoint.bound tightPointOptimum
      (-(3 / 8)) Settings.default).toOption.map (fun dual => (dual.u, dual.beta, dual.residual)) =
        some (tightPointMultipliers, 3 / 8, 0) := by
    decide +kernel
  cases hcase : recover Cholesky.solve? tightPoint.data tightPoint.bound tightPointOptimum
      (-(3 / 8)) Settings.default with
  | error e =>
      rw [hcase] at hrecovered
      cases hrecovered
  | ok dual =>
      rw [hcase] at hrecovered
      rcases Prod.mk.inj (Option.some.inj hrecovered) with ⟨hu, hrest⟩
      rcases Prod.mk.inj hrest with ⟨hbeta, hresidual⟩
      rw [← hu, ← hbeta, ← hresidual]

theorem tightPoint_feasible : tightPoint.Feasible tightPointOptimum := by
  refine ⟨rfl, rfl, ?_, ?_, ?_, ?_⟩ <;> decide +kernel

theorem recover_bounds_cost_tightPoint :
    (∀ y, tightPoint.Feasible y → -(3 / 8) ≤ tightPoint.cost y) ∧
      tightPoint.IsOptimal tightPointOptimum := by
  have hbounds := recover_bounds_cost (by decide +kernel) recover_tightPoint rfl
    (by decide +kernel)
  exact ⟨hbounds.left, hbounds.right tightPoint_feasible (by decide +kernel)⟩

/-!
## Optimal pairs
-/

variable {nu : Nat → K}

theorem slackAt_margins (ha : x.a.size = P.features) (hcomplete : P.data.Complete) {j : Nat}
    (hj : j < P.points) :
    slackAt (P.margins x.a) x.threshold j = P.marginAt x j - x.threshold := by
  unfold slackAt Problem.marginAt
  rw [Problem.getD_margins hcomplete ha hj]

theorem cutoff_nonneg (threshold : K) (h : 0 ≤ marginTol) : 0 ≤ cutoff threshold marginTol := by
  unfold cutoff
  rw [larger_eq_max]
  exact mul_nonneg h (zero_le_one.trans (le_max_left _ _))

/-- No tolerance keeps a multiplier that may be positive from moving. -/
theorem haveValues_of_complementary (h : P.Complementary x nu beta) (hcomplete : P.data.Complete)
    (htol : 0 ≤ marginTol) :
    HaveValues P.points P.bound (violatingPoints P x) (freePoints P x marginTol)
      ((freePoints P x marginTol).map nu).toArray nu := by
  refine ⟨?_, ?_, ?_⟩
  · intro j hj
    rcases mem_violatingPoints.mp hj with ⟨hlt, hactive⟩
    exact h.eq_bound j hlt (activeTolerance_pos.trans hactive)
  · intro c hc
    rw [Array.getD_eq_getD_getElem?, List.getElem?_toArray, List.getElem?_map,
      List.getD_eq_getElem?_getD, List.getElem?_eq_getElem hc]
    rfl
  · intro j hj hkind
    rw [List.mem_append, not_or] at hkind
    apply h.eq_zero j hj
    by_contra hwithin
    apply hkind.right
    -- a point that is not beyond the margin is selected unless it violates it
    apply mem_selectFree fun _ _ => isUndefined_exact _
    · exact List.mem_filter.mpr ⟨List.mem_range.mpr hj,
        by simpa using fun hactive => hkind.left (mem_violatingPoints.mpr ⟨hj, hactive⟩)⟩
    · rw [slackAt_margins h.weights.size_eq hcomplete hj]
      exact (sub_nonpos.mpr (not_lt.mp hwithin)).trans (cutoff_nonneg _ htol)

/-- Unless too few weights are supported, the equations that are posed for an optimal pair are
solved without defect, and within the box, by its free multipliers. The others are at the bound if
their points violate the margin and zero if not. -/
theorem posed_solved_by_complementary (settings : Settings K) (h : P.Complementary x nu beta)
    (hcomplete : P.data.Complete) (htol : 0 ≤ settings.marginTol)
    (hdetermined : ∀ needed available,
      recover definite P.data P.bound x (-beta) settings ≠
        .error (.overDetermined needed available)) :
    ∃ s, system P.data P.bound x beta settings.marginTol = .ok s ∧
      recover definite P.data P.bound x (-beta) settings = s.recovered definite P beta settings ∧
      (s.leastSquares P.bound).InBox (s.free.map nu).toArray ∧
      s.defects (s.free.map nu).toArray = zeros s.matrix.rows ∧
      (∀ j ∈ s.violating, nu j = P.bound) ∧
      ∀ j < P.points, j ∉ s.violating → j ∉ s.free → nu j = 0 := by
  have hsystem := system_eq_ok h.weights.size_eq h.size_xi hcomplete hdetermined
  have hrecover : recover definite P.data P.bound x (-beta) settings = _ :=
    recover_eq h.weights.size_eq h.size_xi hcomplete
  rw [neg_neg] at hsystem hrecover
  rw [hsystem, Ldl.ok_bind] at hrecover
  have hvalues := haveValues_of_complementary h hcomplete htol
  rcases posed_defects beta hvalues with ⟨hsize, hsupported, htotal⟩
  refine ⟨posed P x beta settings.marginTol, hsystem, hrecover, ?_, ?_, hvalues.violating_eq, ?_⟩
  · apply (posed_inBox P x beta settings.marginTol).mpr
    refine ⟨List.size_toArray.trans (List.length_map _), ?_⟩
    intro c hc
    have hlt := (areKinds P x settings.marginTol).lt _
      (List.mem_append_right _ (List.getElem_mem hc))
    have hvalue := hvalues.free_eq c hc
    rw [List.getD_eq_getElem?_getD, List.getElem?_eq_getElem hc, Option.getD_some] at hvalue
    exact ⟨(h.nonneg _ hlt).trans_eq hvalue, hvalue.symm.trans_le (h.le_bound _ hlt)⟩
  · apply ext_getD 0 (hsize.trans (size_zeros _).symm)
    intro r hr
    rw [getD_zeros]
    rcases Nat.lt_succ_iff_lt_or_eq.mp (hsize ▸ hr) with hlt | rfl
    · have hmem : (support P x).getD r 0 ∈ support P x := by
        rw [getD_of_lt _ 0 hlt]
        exact Array.getElem_mem hlt
      rcases mem_support.mp hmem with ⟨hk, hactive⟩
      refine (hsupported r hlt).trans ?_
      rw [h.load_eq _ hk (activeTolerance_pos.trans hactive), sub_self]
    · refine htotal.trans ?_
      rw [h.sum_eq, sub_self]
  · intro j hj hviolating hfree
    exact hvalues.rest_eq j hj fun hmem => (List.mem_append.mp hmem).elim hviolating hfree

theorem tightPoint_certifies : tightPoint.Certifies tightPointOptimum
    (fun j => tightPointMultipliers.getD j 0) (3 / 8) := by
  refine ⟨⟨?_, ?_, ?_, ?_⟩, ?_, ?_, ?_⟩ <;> decide +kernel

theorem posed_solved_by_complementary_tightPoint :
    ∃ s, system tightPoint.data tightPoint.bound tightPointOptimum (3 / 8)
        (Settings.default : Settings ℚ).marginTol = .ok s ∧
      (s.leastSquares tightPoint.bound).InBox
        (s.free.map fun j => tightPointMultipliers.getD j 0).toArray ∧
      s.defects (s.free.map fun j => tightPointMultipliers.getD j 0).toArray =
        zeros s.matrix.rows := by
  have hpair := tightPoint_certifies.complementary tightPoint_feasible (by decide +kernel)
  rcases posed_solved_by_complementary Settings.default hpair (by decide) (by decide +kernel) (by
      intro needed available hdetermined
      rw [recover_tightPoint] at hdetermined
      cases hdetermined) with ⟨s, hsystem, _, hbox, hdefects, _⟩
  exact ⟨s, hsystem, hbox, hdefects⟩

end Dual
end SoftMargin
