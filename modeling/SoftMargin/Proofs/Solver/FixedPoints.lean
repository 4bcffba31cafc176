import SoftMargin.Proofs.Partition.Built
import SoftMargin.Proofs.Solver.Certified

/-!
# Fixed points

The ensembles that an iteration leaves unchanged are those in which it ends
without residuals. Their consensus is optimal, and every certified point is the
consensus of one of them.
-/

namespace SoftMargin

open Scalar Finset

variable {K : Type} [ExactScalar K] {P : Problem K} {settings : Settings K}
  {parts : Array (Partition K)}

namespace Ensemble

variable {e : Ensemble K}

/-!
## Iterations without residuals
-/

section Residuals

variable (hsplit : IsSplit P settings parts) (h : e.IsOver parts P)

include hsplit h

/-- Without residuals an iteration has changed neither projections nor multipliers, and the local
solutions are the projections. -/
theorem eq_of_residuals (hrho : 0 < settings.rho)
    (hrsq : ((e.advance settings.rho).sums settings.rho).rsq = 0)
    (hssq : ((e.advance settings.rho).sums settings.rho).ssq = 0) {i : Nat} (hi : i < parts.size)
    {v : Nat} (hv : v < (e.member i).partition.variableCount) :
    ((e.advance settings.rho).member i).state.x.getD v 0 =
        ((e.advance settings.rho).member i).state.z.getD v 0 ∧
      ((e.advance settings.rho).member i).state.z.getD v 0 = (e.member i).state.z.getD v 0 ∧
      ((e.advance settings.rho).member i).state.u.getD v 0 = (e.member i).state.u.getD v 0 := by
  have hover := isOver_advance hsplit h
  have hia := hover.lt_size hi
  rw [← partition_advance h hi settings.rho] at hv
  rw [rsq_sums hover] at hrsq
  rw [ssq_sums hover] at hssq
  have hsame := sub_eq_zero.mp (total_sq_eq_zero_iff.mp hrsq i hia v hv)
  have hkept := sub_eq_zero.mp (total_sq_eq_zero_iff.mp
    ((mul_eq_zero.mp hssq).resolve_left (pow_ne_zero 2 hrho.ne')) i hia v hv)
  rw [zPrevious_advance h hi] at hkept
  refine ⟨hsame, hkept, ?_⟩
  rw [advance_multiplier hsplit h hi, hsame, add_sub_cancel_left]

theorem isStationary_of_residuals (hP : P.IsProper) (hrho : 0 < settings.rho)
    (hrsq : ((e.advance settings.rho).sums settings.rho).rsq = 0)
    (hssq : ((e.advance settings.rho).sums settings.rho).ssq = 0) :
    ∃ y, (e.advance settings.rho).IsStationary P settings.rho y := by
  have hover := isOver_advance hsplit h
  have hlocal : ∀ i, ∃ y : Nat → K, i < parts.size → Partition.Conditions P settings.rho
      ((e.advance settings.rho).member i).partition ((e.advance settings.rho).member i).state
      (fun v => ((e.advance settings.rho).member i).state.z.getD v 0) y := by
    intro i
    by_cases hi : i < parts.size
    · rcases advance_isSolution hsplit h hi with ⟨y, hy⟩
      refine ⟨y, fun _ => ?_⟩
      have hexact := hover.isExact hsplit hi
      rw [partition_advance h hi] at hexact ⊢
      refine (hy.congr ?_ ?_).conditions hexact hP
      · intro v hv
        have heq := eq_of_residuals hsplit h hrho hrsq hssq hi hv
        rw [heq.2.1, heq.2.2]
      · intro v hv
        exact (eq_of_residuals hsplit h hrho hrsq hssq hi hv).left.symm
    · exact ⟨fun _ => 0, fun hlt => absurd hlt hi⟩
  choose y hy using hlocal
  refine ⟨y, isBalanced_advance hsplit h (hsplit.parts_pos hP), ?_⟩
  intro i hi
  exact hy i (hover.lt_parts hi)

theorem IsUnchanged.residuals (hfixed : e.IsUnchanged settings.rho) :
    ((e.advance settings.rho).sums settings.rho).rsq = 0 ∧
      ((e.advance settings.rho).sums settings.rho).ssq = 0 := by
  have hover := isOver_advance hsplit h
  have hmember : ∀ i < (e.advance settings.rho).members.size, ∀ v,
      ((e.advance settings.rho).member i).state.x.getD v 0 =
        ((e.advance settings.rho).member i).state.z.getD v 0 ∧
      ((e.advance settings.rho).member i).state.z.getD v 0 =
        ((e.advance settings.rho).member i).state.zPrevious.getD v 0 := by
    intro i hi v
    have hip := hover.lt_parts hi
    have hsame := hfixed.member (h.lt_size hip)
    have hmultiplier := advance_multiplier hsplit h hip v
    rw [hsame.right] at hmultiplier
    refine ⟨by linear_combination -hmultiplier, ?_⟩
    rw [zPrevious_advance h hip, hsame.left]
  constructor
  · rw [rsq_sums hover]
    refine total_sq_eq_zero_iff.mpr ?_
    intro i hi v _
    exact sub_eq_zero.mpr (hmember i hi v).left
  · rw [ssq_sums hover]
    refine mul_eq_zero_of_right _ (total_sq_eq_zero_iff.mpr ?_)
    intro i hi v _
    exact sub_eq_zero.mpr (hmember i hi v).right

end Residuals

/-!
## Stationary ensembles stay
-/

omit [ExactScalar K] in
theorem ext_member {f : Ensemble K} (hsize : e.members.size = f.members.size)
    (hmember : ∀ i < e.members.size, e.member i = f.member i)
    (hconsensus : e.consensus = f.consensus) : e = f := by
  have hmembers : e.members = f.members := ext_getD Member.empty hsize hmember
  cases e
  cases f
  cases hmembers
  cases hconsensus
  rfl

section Stay

variable (hsplit : IsSplit P settings parts) (h : e.IsOver parts P)
  (hbalanced : e.IsBalanced P)
  (hx : ∀ i < parts.size, (e.member i).state.x = (e.member i).state.z)

include hsplit h hbalanced hx

theorem IsBalanced.consensus_project (hparts : 0 < parts.size) :
    e.project.consensus = e.consensus := by
  have hcount : (0 : K) < (e.members.size : K) := by
    rw [h.size_members]
    exact Nat.cast_pos.mpr hparts
  have hproposed : ∀ k < P.features + 1, e.proposed k / (e.members.size : K) =
      e.consensus.getD k 0 + e.sharedMultiplier k / (e.members.size : K) := by
    intro k hk
    have hterm : ∀ i ∈ range e.members.size,
        (e.member i).state.x.getD ((e.member i).partition.sharedOffset + k) 0 +
          (e.member i).state.u.getD ((e.member i).partition.sharedOffset + k) 0 =
        e.consensus.getD k 0 +
          (e.member i).state.u.getD ((e.member i).partition.sharedOffset + k) 0 := by
      intro i hi
      have him := mem_range.mp hi
      rw [hx i (h.lt_parts him), hbalanced.shared i him k hk]
    unfold proposed
    rw [sum_congr rfl hterm, sum_add_distrib, sum_const, card_range, nsmul_eq_mul, add_div,
      mul_div_cancel_left₀ _ hcount.ne']
    rfl
  rcases consensus_project_spec hsplit.haveFeatures h with ⟨hsize, hthreshold, hweights⟩
  apply ext_getD 0 (hsize.trans h.size_consensus.symm)
  intro k hk
  rw [hsize] at hk
  rcases Nat.eq_zero_or_pos k with rfl | hpos
  · rw [hthreshold, hproposed 0 (by omega), hbalanced.threshold, zero_div, add_zero]
  · have hkf : k - 1 < P.features := by omega
    have hk1 : 1 + (k - 1) = k := by omega
    rw [← hk1, hweights _ hkf, hproposed _ (by omega)]
    rcases mul_eq_zero.mp (hbalanced.weight_mul _ hkf) with hzero | hzero
    · rw [hzero, zero_add, max_eq_right]
      exact div_nonpos_of_nonpos_of_nonneg (hbalanced.weight_nonpos _ hkf) hcount.le
    · rw [hzero, zero_div, add_zero, max_eq_left (hbalanced.weight_nonneg _ hkf)]

theorem IsBalanced.project_eq (hparts : 0 < parts.size)
    (hprevious : ∀ i < parts.size, (e.member i).state.zPrevious = (e.member i).state.z) :
    e.project = e := by
  have hover := isOver_project hsplit.haveFeatures h
  have hconsensus := hbalanced.consensus_project hsplit h hx hparts
  refine ext_member (hover.size_members.trans h.size_members.symm) ?_ hconsensus
  intro i hi
  rw [hover.size_members] at hi
  have him := h.lt_size hi
  have hsized := hover.isSized hi
  rw [hover.partition_eq hi, ← h.partition_eq hi] at hsized
  have hz : (e.project.member i).state.z = (e.member i).state.z := by
    apply ext_getD 0 (hsized.z.trans (h.isSized hi).z.symm)
    intro v hv
    rw [hsized.z, Partition.variableCount_eq_add] at hv
    rcases Nat.lt_or_ge v (e.member i).partition.sharedOffset with hlocal | hshared
    · have hnonneg := hbalanced.local_nonneg i him v hlocal
      rw [project_local h hi hlocal, hx i hi]
      rcases mul_eq_zero.mp (hbalanced.local_mul i him v hlocal) with hzero | hzero
      · rw [hzero, zero_add, max_eq_right (hbalanced.local_nonpos i him v hlocal)]
      · rw [hzero, add_zero, max_eq_left hnonneg]
    · have hfeatures := (h.isExact hsplit hi).features_eq
      have hk : v = (e.member i).partition.sharedOffset +
          (v - (e.member i).partition.sharedOffset) := by omega
      have hpart : (e.project.member i).partition = (e.member i).partition := by
        rw [hover.partition_eq hi, h.partition_eq hi]
      have hproject := project_shared h hi (v - (e.member i).partition.sharedOffset)
      rw [hpart, hconsensus] at hproject
      rw [hk, hproject, hbalanced.shared i him _ (by omega)]
  have hu : (e.project.member i).state.u = (e.member i).state.u := by
    apply ext_getD 0 (hsized.u.trans (h.isSized hi).u.symm)
    intro v _
    rw [project_multiplier hsplit.haveFeatures h hi, hz, hx i hi, add_sub_cancel_left]
  have hzPrevious : (e.project.member i).state.zPrevious = (e.member i).state.zPrevious := by
    rw [member_project e him, hprevious i hi]
    rfl
  have hstate : e.project.member i = ⟨(e.member i).partition, (e.member i).state.x,
      (e.project.member i).state.z, (e.project.member i).state.u,
      (e.project.member i).state.zPrevious⟩ := by
    rw [member_project e him]
    rfl
  rw [hstate, hz, hu, hzPrevious]

omit hbalanced in
theorem IsStationary.advance_eq {y : Nat → Nat → K} (hP : P.IsProper) (hrho : 0 < settings.rho)
    (hstationary : e.IsStationary P settings.rho y)
    (hprevious : ∀ i < parts.size, (e.member i).state.zPrevious = (e.member i).state.z) :
    e.advance settings.rho = e := by
  have hparts := hsplit.parts_pos hP
  have hupdate : (e.updateX settings.rho).2 = e := by
    have hover := isOver_updateX hsplit h
    refine ext_member (hover.size_members.trans h.size_members.symm) ?_ rfl
    intro i hi
    rw [hover.size_members] at hi
    have him := h.lt_size hi
    have hexact := h.isExact hsplit hi
    have hsized := h.isSized hi
    rcases hexact.updateX_spec hsized with ⟨_, hsized', y', hy'⟩
    have hown := (hstationary.conditions i him).isSolution hexact hP
    have hxEq : ((e.member i).partition.updateX settings.rho (e.member i).state).2.x =
        (e.member i).state.x := by
      apply ext_getD 0 (hsized'.x.trans hsized.x.symm)
      intro v hv
      rw [hsized'.x] at hv
      rw [hy'.unique hrho hown hv, hx i hi]
    have hstate : ((e.member i).partition.updateX settings.rho (e.member i).state).2 =
        ⟨((e.member i).partition.updateX settings.rho (e.member i).state).2.x,
          (e.member i).state.z, (e.member i).state.u, (e.member i).state.zPrevious⟩ := rfl
    rw [member_updateX e _ him, hstate, hxEq]
  unfold advance
  rw [hupdate]
  exact hstationary.balanced.project_eq hsplit h hx hparts hprevious

end Stay

/-!
## Optima
-/

section Optima

variable (hsplit : IsSplit P settings parts)

include hsplit

theorem advance_certified {x : PrimalSolution K} {nu : Nat → K} {beta : K} (hP : P.IsProper)
    (hrho : 0 < settings.rho) (hx : P.Feasible x) (hcertifies : P.Certifies x nu beta) :
    (certified P settings.rho x nu beta parts).advance settings.rho =
      certified P settings.rho x nu beta parts := by
  have h : (certified P settings.rho x nu beta parts).IsOver parts P := isOver_certified hx
  refine (isStationary_certified hrho hsplit hx hcertifies).advance_eq hsplit h ?_ hP hrho ?_
  · intro i hi
    rw [state_certified hi]
    rfl
  · intro i hi
    rw [state_certified hi]
    rfl

/-- Over exact arithmetic, and with exact partitions, the ensembles that an iteration leaves
unchanged are the optima of the program with their multipliers. An iteration that ends without
residuals has an optimal consensus, and reports its cost. This is so for every unchanged ensemble.
Every certified point is the consensus of an unchanged ensemble. -/
theorem unchanged_are_optima {data : Matrix K} {bound : K} (hP : Problem.new data bound = .ok P)
    (hrho : 0 < settings.rho) :
    (∀ e : Ensemble K, e.IsOver parts P →
      ((e.advance settings.rho).sums settings.rho).rsq = 0 →
      ((e.advance settings.rho).sums settings.rho).ssq = 0 →
      ∀ before : PrimalSolution K, before.xi.size = P.points →
        P.IsOptimal (PrimalSolution.ofConsensus P.data before
          (e.advance settings.rho).consensus) ∧
        (∃ nu beta, P.Certifies (PrimalSolution.ofConsensus P.data before
          (e.advance settings.rho).consensus) nu beta) ∧
        (Residuals.ofSums ((e.advance settings.rho).sums settings.rho) P.points P.features
          settings.rho settings.tol settings.reltol).objective =
          P.cost (PrimalSolution.ofConsensus P.data before
            (e.advance settings.rho).consensus)) ∧
    (∀ e : Ensemble K, e.IsOver parts P → e.IsUnchanged settings.rho →
      ((e.advance settings.rho).sums settings.rho).rsq = 0 ∧
      ((e.advance settings.rho).sums settings.rho).ssq = 0) ∧
    (∀ (x : PrimalSolution K) (nu : Nat → K) (beta : K), P.Feasible x → P.Certifies x nu beta →
      ∃ e : Ensemble K, e.IsOver parts P ∧ e.advance settings.rho = e ∧
        e.consensus = #[x.threshold] ++ x.a) := by
  have hproper := Problem.new_eq_ok hP
  refine ⟨?_, ?_, ?_⟩
  · intro e he hrsq hssq before hbefore
    have hover := isOver_advance hsplit he
    rcases isStationary_of_residuals hsplit he hproper hrho hrsq hssq with ⟨y, hstationary⟩
    have hfeasible := hstationary.feasible hproper hsplit hover hbefore
    rcases hstationary.exists_certifies hproper hrho hsplit hover hbefore with
      ⟨nu, beta, hcertifies⟩
    refine ⟨hcertifies.isOptimal hfeasible, ⟨nu, beta, hcertifies⟩, ?_⟩
    refine hstationary.objective_eq hproper hrho hsplit hover hbefore ?_ _ _
    intro i hi v hv
    rw [partition_advance he hi] at hv
    exact (eq_of_residuals hsplit he hrho hrsq hssq hi hv).left
  · intro e he hfixed
    exact hfixed.residuals hsplit he
  · intro x nu beta hx hcertifies
    exact ⟨certified P settings.rho x nu beta parts, isOver_certified hx,
      advance_certified hsplit hproper hrho hx hcertifies, rfl⟩

end Optima

/-- Two partitions agree on a threshold and equal weights of one half. -/
theorem unchanged_are_optima_threePoints : ∃ p q,
    Partition.newBy Ldl.naturalOrder threePoints plainSettings #[2, 0] = .ok p ∧
    Partition.newBy Ldl.naturalOrder threePoints plainSettings #[1] = .ok q ∧
    ∃ e : Ensemble ℚ, e.IsOver #[p, q] threePoints ∧ e.advance 1 = e ∧
      e.consensus = #[1 / 2, 1 / 2, 1 / 2] ∧
      threePoints.IsOptimal (PrimalSolution.ofConsensus threePoints.data
        (PrimalSolution.zero 2 3) #[1 / 2, 1 / 2, 1 / 2]) ∧
      (Residuals.ofSums (e.sums 1) 3 2 1 plainSettings.tol plainSettings.reltol).objective =
        -1 / 2 := by
  rcases exists_isSplit_threePoints with ⟨p, q, hp, hq, hsplit⟩
  have hall := unchanged_are_optima hsplit threePoints_new (by decide +kernel)
  rcases hall.2.2 _ _ _ threePoints_feasible threePoints_certifies with ⟨e, he, hfixed, hconsensus⟩
  rcases hall.2.1 e he (isUnchanged_of_eq hfixed) with ⟨hrsq, hssq⟩
  rcases hall.1 e he hrsq hssq (PrimalSolution.zero 2 3) rfl with ⟨hoptimal, _, hobjective⟩
  rw [hfixed, hconsensus] at hoptimal hobjective
  refine ⟨p, q, hp, hq, e, he, hfixed, hconsensus, hoptimal, hobjective.trans ?_⟩
  decide +kernel

end Ensemble
end SoftMargin
