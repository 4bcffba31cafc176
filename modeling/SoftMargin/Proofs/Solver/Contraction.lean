import SoftMargin.Proofs.Solver.FixedPoints
import SoftMargin.Proofs.Solver.Iteration

/-!
# Contraction

An iteration brings the projections and the multipliers closer to any state that
it leaves unchanged, by at least the residuals that it ends with. Over a run the
residuals therefore add up to no more than the distance at its start.
-/

namespace SoftMargin

open Scalar Finset

variable {K : Type} [ExactScalar K] {P : Problem K} {settings : Settings K}
  {parts : Array (Partition K)}

namespace Ensemble

variable {e star : Ensemble K}

/-- The squared distance of the projections and the multipliers from those of another ensemble. -/
def deviation (star e : Ensemble K) : K :=
  ∑ i ∈ range e.members.size,
    (squaredDistance (e.member i).state.z (star.member i).state.z +
      squaredDistance (e.member i).state.u (star.member i).state.u)

/-!
## One iteration
-/

/-- What one partition contributes, if the direction of its local solution is orthogonal to what
it was solved for. -/
theorem sum_deviation (n : Nat) {x z u z' u' zs us : Nat → K}
    (hu : ∀ v, u' v = x v + u v - z' v)
    (horthogonal : ∑ v ∈ range n,
      (x v - zs v) * ((x v - z v + u v) - (zs v - zs v + us v)) = 0) :
    ∑ v ∈ range n, ((z v - zs v) ^ 2 + (u v - us v) ^ 2) =
      ∑ v ∈ range n, ((z' v - zs v) ^ 2 + (u' v - us v) ^ 2) + ∑ v ∈ range n, (x v - z' v) ^ 2 +
      ∑ v ∈ range n, (z' v - z v) ^ 2 +
      2 * ∑ v ∈ range n, (u' v - u v) * (z' v - z v) +
      2 * ∑ v ∈ range n, (u' v - us v) * (z' v - zs v) := by
  have hterm : ∀ v ∈ range n, (z v - zs v) ^ 2 + (u v - us v) ^ 2 =
      (z' v - zs v) ^ 2 + (u' v - us v) ^ 2 + (x v - z' v) ^ 2 + (z' v - z v) ^ 2 +
      2 * ((u' v - u v) * (z' v - z v)) + 2 * ((u' v - us v) * (z' v - zs v)) -
      2 * ((x v - zs v) * ((x v - z v + u v) - (zs v - zs v + us v))) := by
    intro v _
    rw [hu v]
    ring
  rw [sum_congr rfl hterm, sum_sub_distrib, ← mul_sum _ _ (2 : K), horthogonal, mul_zero, sub_zero]
  simp only [sum_add_distrib, mul_sum]

section Step

variable (hsplit : IsSplit P settings parts) (h : e.IsOver parts P) (hstar : star.IsOver parts P)

include h hstar in
theorem deviation_eq_sum : deviation star e = ∑ i ∈ range parts.size,
    ∑ v ∈ range (e.member i).partition.variableCount,
      (((e.member i).state.z.getD v 0 - (star.member i).state.z.getD v 0) ^ 2 +
        ((e.member i).state.u.getD v 0 - (star.member i).state.u.getD v 0) ^ 2) := by
  unfold deviation
  rw [h.size_members]
  apply sum_congr rfl
  intro i hi
  have hin := mem_range.mp hi
  have hsized := h.isSized hin
  have hsized' := hstar.isSized hin
  rw [h.partition_eq_partition hstar hin] at hsized'
  rw [squaredDistance_eq_sum _ _ hsized.z hsized'.z,
    squaredDistance_eq_sum _ _ hsized.u hsized'.u, sum_add_distrib]

include h hstar in
theorem deviation_nonneg : 0 ≤ deviation star e := by
  rw [deviation_eq_sum h hstar]
  exact sum_nonneg fun i _ => sum_nonneg fun v _ => add_nonneg (sq_nonneg _) (sq_nonneg _)

include hsplit hstar in
theorem IsUnchanged.isSolution (hfixed : star.IsUnchanged settings.rho) {i : Nat}
    (hi : i < parts.size) : ∃ y, Partition.IsSolution P settings.rho (star.member i).partition
      (star.member i).state (fun v => (star.member i).state.z.getD v 0) y := by
  have hmember := hfixed.member (hstar.lt_size hi)
  rcases advance_isSolution hsplit hstar hi with ⟨y, hy⟩
  refine ⟨y, ?_⟩
  have hx : (fun v => ((star.advance settings.rho).member i).state.x.getD v 0) =
      fun v => (star.member i).state.z.getD v 0 := by
    funext v
    have hu := advance_multiplier hsplit hstar hi v
    rw [hmember.left, hmember.right] at hu
    linear_combination -hu
  rw [hx] at hy
  exact hy

include hsplit h hstar in
theorem IsUnchanged.sum_direction (hrho : 0 < settings.rho)
    (hfixed : star.IsUnchanged settings.rho) {i : Nat} (hi : i < parts.size) :
    ∑ v ∈ range (e.member i).partition.variableCount,
      (((e.advance settings.rho).member i).state.x.getD v 0 - (star.member i).state.z.getD v 0) *
        ((((e.advance settings.rho).member i).state.x.getD v 0 - (e.member i).state.z.getD v 0 +
            (e.member i).state.u.getD v 0) -
          ((star.member i).state.z.getD v 0 - (star.member i).state.z.getD v 0 +
            (star.member i).state.u.getD v 0)) = 0 := by
  rcases advance_isSolution hsplit h hi with ⟨y, hy⟩
  rcases hfixed.isSolution hsplit hstar hi with ⟨y', hy'⟩
  rw [h.partition_eq_partition hstar hi] at hy'
  have hzero := hy.orthogonal hy'
  have hfactor : ∀ v ∈ range (e.member i).partition.variableCount,
      (((e.advance settings.rho).member i).state.x.getD v 0 - (star.member i).state.z.getD v 0) *
        (settings.rho *
          ((((e.advance settings.rho).member i).state.x.getD v 0 -
              (e.member i).state.z.getD v 0 + (e.member i).state.u.getD v 0) -
            ((star.member i).state.z.getD v 0 - (star.member i).state.z.getD v 0 +
              (star.member i).state.u.getD v 0))) =
      settings.rho *
        ((((e.advance settings.rho).member i).state.x.getD v 0 -
            (star.member i).state.z.getD v 0) *
          ((((e.advance settings.rho).member i).state.x.getD v 0 -
              (e.member i).state.z.getD v 0 + (e.member i).state.u.getD v 0) -
            ((star.member i).state.z.getD v 0 - (star.member i).state.z.getD v 0 +
              (star.member i).state.u.getD v 0))) := by
    intro v _
    ring
  rw [sum_congr rfl hfactor, ← mul_sum] at hzero
  exact (mul_eq_zero.mp hzero).resolve_left hrho.ne'

theorem rsq_advance (hover : (e.advance settings.rho).IsOver parts P) (h : e.IsOver parts P) :
    ((e.advance settings.rho).sums settings.rho).rsq =
      ∑ i ∈ range parts.size, ∑ v ∈ range (e.member i).partition.variableCount,
        (((e.advance settings.rho).member i).state.x.getD v 0 -
          ((e.advance settings.rho).member i).state.z.getD v 0) ^ 2 := by
  rw [rsq_sums hover]
  unfold total
  rw [hover.size_members]
  apply sum_congr rfl
  intro i hi
  rw [partition_advance h (mem_range.mp hi)]

theorem ssq_advance (hover : (e.advance settings.rho).IsOver parts P) (h : e.IsOver parts P)
    (hrho : settings.rho ≠ 0) :
    ((e.advance settings.rho).sums settings.rho).ssq / settings.rho ^ 2 =
      ∑ i ∈ range parts.size, ∑ v ∈ range (e.member i).partition.variableCount,
        (((e.advance settings.rho).member i).state.z.getD v 0 -
          (e.member i).state.z.getD v 0) ^ 2 := by
  rw [ssq_sums hover, mul_div_cancel_left₀ _ (pow_ne_zero 2 hrho)]
  unfold total
  rw [hover.size_members]
  apply sum_congr rfl
  intro i hi
  rw [partition_advance h (mem_range.mp hi), ← zPrevious_advance h (mem_range.mp hi)]

include hsplit h in
theorem monotone_advance {f : Ensemble K} (hf : f.IsOver parts P) (hbalanced : f.IsBalanced P)
    (hparts : 0 < parts.size) : 0 ≤ ∑ i ∈ range parts.size,
      ∑ v ∈ range (e.member i).partition.variableCount,
        (((e.advance settings.rho).member i).state.u.getD v 0 - (f.member i).state.u.getD v 0) *
          (((e.advance settings.rho).member i).state.z.getD v 0 -
            (f.member i).state.z.getD v 0) := by
  have hmonotone := IsBalanced.monotone hsplit.haveFeatures (isOver_advance hsplit h) hf
    (isBalanced_advance hsplit h hparts) hbalanced
  refine hmonotone.trans (le_of_eq (sum_congr rfl ?_))
  intro i hi
  rw [partition_advance h (mem_range.mp hi)]

include hsplit h hstar in
/-- An iteration comes closer to an unchanged state by at least its residuals. -/
theorem deviation_advance (hrho : 0 < settings.rho) (hparts : 0 < parts.size)
    (hbalanced : e.IsBalanced P) (hfixed : star.IsUnchanged settings.rho) :
    deviation star (e.advance settings.rho) ≤ deviation star e -
      ((e.advance settings.rho).sums settings.rho).rsq -
      ((e.advance settings.rho).sums settings.rho).ssq / settings.rho ^ 2 := by
  have hover := isOver_advance hsplit h
  have hstarOver := isOver_advance hsplit hstar
  have hforward := monotone_advance hsplit h h hbalanced hparts
  have htowards := monotone_advance hsplit h hstarOver
    (isBalanced_advance hsplit hstar hparts) hparts
  have hunchanged : ∀ i ∈ range parts.size, ∑ v ∈ range (e.member i).partition.variableCount,
      (((e.advance settings.rho).member i).state.u.getD v 0 -
          ((star.advance settings.rho).member i).state.u.getD v 0) *
        (((e.advance settings.rho).member i).state.z.getD v 0 -
          ((star.advance settings.rho).member i).state.z.getD v 0) =
      ∑ v ∈ range (e.member i).partition.variableCount,
        (((e.advance settings.rho).member i).state.u.getD v 0 - (star.member i).state.u.getD v 0) *
          (((e.advance settings.rho).member i).state.z.getD v 0 -
            (star.member i).state.z.getD v 0) := by
    intro i hi
    have hsame := hfixed.member (hstar.lt_size (mem_range.mp hi))
    rw [hsame.left, hsame.right]
  rw [sum_congr rfl hunchanged] at htowards
  have hafter := deviation_eq_sum hover hstar
  rw [sum_congr rfl fun i hi => by rw [partition_advance h (mem_range.mp hi)]] at hafter
  have hmember : ∀ i ∈ range parts.size, _ := fun i hi =>
    sum_deviation (e.member i).partition.variableCount
      (advance_multiplier hsplit h (mem_range.mp hi))
      (hfixed.sum_direction hsplit h hstar hrho (mem_range.mp hi))
  have hbefore := (deviation_eq_sum h hstar).trans (sum_congr rfl hmember)
  simp only [sum_add_distrib (s := range parts.size), ← mul_sum] at hbefore
  rw [hbefore, hafter, rsq_advance hover h, ssq_advance hover h hrho.ne']
  linarith

end Step

end Ensemble

/-!
## The run
-/

namespace Run

/-- The run after a number of iterations, whether or not it is over. -/
def after (P : Problem K) (settings : Settings K) (r : Run K) : Nat → Run K
  | 0 => r
  | k + 1 => ((after P settings r k).step P settings).2

theorem step_eq (hsplit : Ensemble.IsSplit P settings parts) {r : Run K}
    (h : r.ensemble.IsOver parts P) : r.step P settings =
      (none, r.record (r.ensemble.advance settings.rho)
        (Residuals.ofSums ((r.ensemble.advance settings.rho).sums settings.rho) P.points P.features
          settings.rho settings.tol settings.reltol) settings.maxIter.toNat) := by
  have hflags := Ensemble.updateX_finite hsplit h
  have hfinite : (Residuals.ofSums ((r.ensemble.advance settings.rho).sums settings.rho) P.points
      P.features settings.rho settings.tol settings.reltol).isFinite = true := by
    unfold Residuals.isFinite
    rw [isFinite_exact, isFinite_exact, isFinite_exact]
    rfl
  unfold step Operations.step
  dsimp only [Ensemble.operations]
  rw [hflags, Bool.not_true, if_neg Bool.false_ne_true]
  exact if_pos hfinite

section After

variable (hsplit : Ensemble.IsSplit P settings parts) {r : Run K}
  (h : r.ensemble.IsOver parts P)

include hsplit h

theorem isOver_after (k : Nat) : (r.after P settings k).ensemble.IsOver parts P := by
  induction k with
  | zero => exact h
  | succ k ih =>
      unfold after
      rw [step_eq hsplit ih]
      exact Ensemble.isOver_advance hsplit ih

theorem ensemble_after_succ (k : Nat) : (r.after P settings (k + 1)).ensemble =
    (r.after P settings k).ensemble.advance settings.rho := by
  rw [after, step_eq hsplit (isOver_after hsplit h k)]
  rfl

theorem isBalanced_after (hparts : 0 < parts.size) (hbalanced : r.ensemble.IsBalanced P)
    (k : Nat) : (r.after P settings k).ensemble.IsBalanced P := by
  cases k with
  | zero => exact hbalanced
  | succ k =>
      rw [ensemble_after_succ hsplit h]
      exact Ensemble.isBalanced_advance hsplit (isOver_after hsplit h k) hparts

theorem iterate_eq_after (left done : Nat) : ∃ k ≤ done + left,
    iterate P settings left (r.after P settings done) = (none, r.after P settings k) := by
  induction left generalizing done with
  | zero => exact ⟨done, Nat.le_refl _, rfl⟩
  | succ left ih =>
      have hstep : (r.after P settings done).step P settings =
          (none, r.after P settings (done + 1)) := by
        rw [after, step_eq hsplit (isOver_after hsplit h done)]
      rw [iterate_succ, hstep]
      dsimp only
      by_cases hover : (r.after P settings (done + 1)).isOver = true
      · rw [if_pos hover]
        exact ⟨done + 1, by omega, rfl⟩
      · rw [if_neg hover]
        rcases ih (done + 1) with ⟨k, hk, heq⟩
        exact ⟨k, by omega, heq⟩

end After

section Deviation

variable {e star : Ensemble K} (progress : Progress K)

theorem deviation_after_succ (hP : P.IsProper) (hrho : 0 < settings.rho)
    (hsplit : Ensemble.IsSplit P settings parts) (he : e.IsOver parts P)
    (hstar : star.IsOver parts P) (hfixed : star.IsUnchanged settings.rho) (k : Nat) :
    star.deviation ((start P e progress).after P settings (k + 1)).ensemble ≤
      star.deviation ((start P e progress).after P settings k).ensemble -
      (((start P e progress).after P settings (k + 1)).ensemble.sums settings.rho).rsq -
      (((start P e progress).after P settings (k + 1)).ensemble.sums settings.rho).ssq /
        settings.rho ^ 2 := by
  have hreset : (start P e progress).ensemble.IsOver parts P := Ensemble.isOver_reset he
  have hparts := hsplit.parts_pos hP
  rw [ensemble_after_succ hsplit hreset k]
  exact Ensemble.deviation_advance hsplit (isOver_after hsplit hreset k) hstar hrho hparts
    (isBalanced_after hsplit hreset hparts (Ensemble.isBalanced_reset P e) k) hfixed

/-- Every iteration of a run started by a reset advances the states. It brings them closer to every
unchanged state by at least the residuals. These add up to no more than the distance at the start,
and the whole run is one of these runs. -/
theorem deviation_contracts {data : Matrix K} {bound : K} (hP : Problem.new data bound = .ok P)
    (hrho : 0 < settings.rho) (hsplit : Ensemble.IsSplit P settings parts)
    (he : e.IsOver parts P) (hstar : star.IsOver parts P)
    (hfixed : star.IsUnchanged settings.rho) :
    (∀ k, (((start P e progress).after P settings k).step P settings).1 = none ∧
      ((start P e progress).after P settings (k + 1)).ensemble =
        ((start P e progress).after P settings k).ensemble.advance settings.rho ∧
      star.deviation ((start P e progress).after P settings (k + 1)).ensemble ≤
        star.deviation ((start P e progress).after P settings k).ensemble -
        (((start P e progress).after P settings (k + 1)).ensemble.sums settings.rho).rsq -
        (((start P e progress).after P settings (k + 1)).ensemble.sums settings.rho).ssq /
          settings.rho ^ 2) ∧
    (∀ n, ∑ k ∈ range n,
      ((((start P e progress).after P settings (k + 1)).ensemble.sums settings.rho).rsq +
        (((start P e progress).after P settings (k + 1)).ensemble.sums settings.rho).ssq /
          settings.rho ^ 2) ≤ star.deviation (start P e progress).ensemble) ∧
    ∃ k ≤ settings.maxIter.toNat,
      complete P settings e progress = (none, (start P e progress).after P settings k) := by
  have hreset : (start P e progress).ensemble.IsOver parts P := Ensemble.isOver_reset he
  have hstep := deviation_after_succ progress (Problem.new_eq_ok hP) hrho hsplit he hstar hfixed
  refine ⟨?_, ?_, ?_⟩
  · intro k
    refine ⟨?_, ensemble_after_succ hsplit hreset k, hstep k⟩
    rw [step_eq hsplit (isOver_after hsplit hreset k)]
  · intro n
    have hlast := Ensemble.deviation_nonneg (isOver_after hsplit hreset n) hstar
    calc
      _ ≤ ∑ k ∈ range n, (star.deviation ((start P e progress).after P settings k).ensemble -
          star.deviation ((start P e progress).after P settings (k + 1)).ensemble) := by
        apply sum_le_sum
        intro k _
        linarith [hstep k]
      _ = star.deviation (start P e progress).ensemble -
          star.deviation ((start P e progress).after P settings n).ensemble :=
        sum_range_sub' (fun k =>
          star.deviation ((start P e progress).after P settings k).ensemble) n
      _ ≤ star.deviation (start P e progress).ensemble := sub_le_self _ hlast
  · rcases iterate_eq_after hsplit hreset settings.maxIter.toNat 0 with ⟨k, hk, heq⟩
    exact ⟨k, by omega, heq⟩

end Deviation

/-- The residuals of two partitions that start at zero are bounded by the squared norm of the
optimum and its multipliers. -/
theorem deviation_contracts_threePoints : ∃ p q,
    Partition.newBy Ldl.naturalOrder threePoints plainSettings #[2, 0] = .ok p ∧
    Partition.newBy Ldl.naturalOrder threePoints plainSettings #[1] = .ok q ∧
    ∃ star : Ensemble ℚ, star.IsUnchanged 1 ∧ star.consensus = #[1 / 2, 1 / 2, 1 / 2] ∧
      ∀ n, ∑ k ∈ range n,
        ((((start threePoints (Ensemble.start #[p, q] 2) Progress.initial).after threePoints
            plainSettings (k + 1)).ensemble.sums 1).rsq +
          (((start threePoints (Ensemble.start #[p, q] 2) Progress.initial).after threePoints
            plainSettings (k + 1)).ensemble.sums 1).ssq / 1 ^ 2) ≤
        star.deviation
          (start threePoints (Ensemble.start #[p, q] 2) Progress.initial).ensemble := by
  rcases exists_isSplit_threePoints with ⟨p, q, hp, hq, hsplit⟩
  have hrho : 0 < plainSettings.rho := by decide +kernel
  have hstar : (Ensemble.certified threePoints plainSettings.rho threePointsOptimum
      threePointsMultiplier (1 / 2) #[p, q]).IsOver #[p, q] threePoints :=
    Ensemble.isOver_certified threePoints_feasible
  have hfixed := Ensemble.isUnchanged_of_eq (Ensemble.advance_certified hsplit
    (Problem.new_eq_ok threePoints_new) hrho threePoints_feasible threePoints_certifies)
  exact ⟨p, q, hp, hq, _, hfixed, rfl, (deviation_contracts Progress.initial threePoints_new
    hrho hsplit (Ensemble.isOver_start threePoints #[p, q]) hstar hfixed).2.1⟩

end Run
end SoftMargin
