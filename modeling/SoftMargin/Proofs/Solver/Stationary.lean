import SoftMargin.Proofs.Partition.Advance
import SoftMargin.Proofs.Partition.Points

/-!
# Stationary ensembles

In a stationary ensemble the projections fit the multipliers and are themselves
local solutions. The multipliers of the points of all partitions then certify
that the consensus, with the slacks that it needs, is optimal.
-/

namespace SoftMargin

open Scalar Finset

variable {K : Type} [ExactScalar K] {P : Problem K} {settings : Settings K}
  {parts : Array (Partition K)} {rho : K}

/-!
## One point
-/

/-- What the conditions of one point and the balance of its slack and surplus say of the multiplier
`nu` of the point, whose margin is `m` under the threshold `t`. -/
theorem point_complementary {n D nu t m y slack surplus uslack usurplus : K} (hn : 0 < n)
    (hD : 0 < D) (hrho : 0 < rho) (hslack : 0 ≤ slack) (hsurplus : 0 ≤ surplus)
    (huslack : uslack ≤ 0) (husurplus : usurplus ≤ 0) (hmulSlack : slack * uslack = 0)
    (hmulSurplus : surplus * usurplus = 0)
    (hslackEq : rho * slack + y = rho * (slack - uslack) - n * D)
    (hsurplusEq : rho * surplus - y = rho * (surplus - usurplus))
    (hpoint : slack - surplus - t + m = 0) (hnu : n * nu = -y) :
    0 ≤ nu ∧ nu ≤ D ∧ slack = max (t - m) 0 ∧ slack * (D - nu) = 0 ∧
      nu * (m + slack - t) = 0 := by
  have hlower : n * nu = -rho * usurplus := by linear_combination hnu + hsurplusEq
  have hupper : n * (D - nu) = -rho * uslack := by linear_combination -hnu + hslackEq
  have hslackMul : slack * (D - nu) = 0 := by
    have hscaled : n * (slack * (D - nu)) = 0 := by
      linear_combination slack * hupper - rho * hmulSlack
    exact (mul_eq_zero.mp hscaled).resolve_left hn.ne'
  have hsurplusMul : nu * surplus = 0 := by
    have hscaled : n * (nu * surplus) = 0 := by
      linear_combination surplus * hlower - rho * hmulSurplus
    exact (mul_eq_zero.mp hscaled).resolve_left hn.ne'
  refine ⟨?_, ?_, ?_, hslackMul, ?_⟩
  · refine nonneg_of_mul_nonneg_right ?_ hn
    rw [hlower, neg_mul]
    exact neg_nonneg.mpr (mul_nonpos_of_nonneg_of_nonpos hrho.le husurplus)
  · refine sub_nonneg.mp (nonneg_of_mul_nonneg_right ?_ hn)
    rw [hupper, neg_mul]
    exact neg_nonneg.mpr (mul_nonpos_of_nonneg_of_nonpos hrho.le huslack)
  · have hneed : t - m = slack - surplus := by linear_combination -hpoint
    rw [hneed]
    rcases mul_eq_zero.mp hsurplusMul with hzero | hzero
    · rw [hzero, sub_zero] at hslackMul
      have hnone := (mul_eq_zero.mp hslackMul).resolve_right hD.ne'
      rw [hnone, zero_sub, max_eq_right (neg_nonpos.mpr hsurplus)]
    · rw [hzero, sub_zero, max_eq_left hslack]
  · have hsame : m + slack - t = surplus := by linear_combination hpoint
    rw [hsame, hsurplusMul]

namespace Ensemble

variable {e : Ensemble K}

/-- The projections fit the multipliers, and are the local solutions of the ensemble itself, with
the multipliers `y` of the equations of each partition. -/
structure IsStationary (P : Problem K) (rho : K) (e : Ensemble K) (y : Nat → Nat → K) : Prop where
  balanced : e.IsBalanced P
  conditions : ∀ i < e.members.size, Partition.Conditions P rho (e.member i).partition
    (e.member i).state (fun v => (e.member i).state.z.getD v 0) (y i)

variable {y : Nat → Nat → K} {nu : Nat → K}

section Stationary

variable (hP : P.IsProper) (hrho : 0 < rho) (hsplit : IsSplit P settings parts)
  (h : e.IsOver parts P) (hstationary : e.IsStationary P rho y)
  (hnu : ∀ i < parts.size, ∀ j < e.pointCount i, (P.points : K) * nu (e.point i j) = -y i j)

include h hstationary

theorem IsStationary.threshold_eq {i : Nat} (hi : i < parts.size) :
    (e.member i).state.z.getD (2 * (e.member i).partition.points) 0 = e.consensus.getD 0 0 :=
  hstationary.balanced.shared i (h.lt_size hi) 0 (Nat.succ_pos _)

theorem IsStationary.weight_eq {i k : Nat} (hi : i < parts.size) (hk : k < P.features) :
    (e.member i).state.z.getD (2 * (e.member i).partition.points + 1 + k) 0 =
      e.consensus.getD (1 + k) 0 := by
  rw [Nat.add_assoc]
  exact hstationary.balanced.shared i (h.lt_size hi) (1 + k) (by omega)

def marginAt (P : Problem K) (e : Ensemble K) (c : Nat) : K :=
  ∑ k ∈ range P.features, P.data.entry k c * e.consensus.getD (1 + k) 0

include hP hrho hnu in
theorem IsStationary.point {i j : Nat} (hi : i < parts.size) (hj : j < e.pointCount i) :
    0 ≤ nu (e.point i j) ∧ nu (e.point i j) ≤ P.bound ∧
      (e.member i).state.z.getD j 0 =
        max (e.consensus.getD 0 0 - marginAt P e (e.point i j)) 0 ∧
      (e.member i).state.z.getD j 0 * (P.bound - nu (e.point i j)) = 0 ∧
      nu (e.point i j) * (marginAt P e (e.point i j) + (e.member i).state.z.getD j 0 -
        e.consensus.getD 0 0) = 0 := by
  have him := h.lt_size hi
  have hconditions := hstationary.conditions i him
  have hbalanced := hstationary.balanced
  have hslackLt : j < (e.member i).partition.sharedOffset := by
    have hpoints : (e.member i).partition.sharedOffset = 2 * e.pointCount i := rfl
    omega
  have hsurplusLt : e.pointCount i + j < (e.member i).partition.sharedOffset := by
    have hpoints : (e.member i).partition.sharedOffset = 2 * e.pointCount i := rfl
    omega
  have hpoint := hconditions.point j hj
  rw [hstationary.threshold_eq h hi] at hpoint
  have hmargin : ∑ k ∈ range P.features,
      P.data.entry k ((e.member i).partition.columns.getD j 0) *
        (e.member i).state.z.getD (2 * (e.member i).partition.points + 1 + k) 0 =
      marginAt P e (e.point i j) := by
    apply sum_congr rfl
    intro k hk
    rw [hstationary.weight_eq h hi (mem_range.mp hk)]
    rfl
  rw [hmargin] at hpoint
  exact point_complementary hP.points_cast_pos hP.bound_pos hrho
    (hbalanced.local_nonneg i him j hslackLt) (hbalanced.local_nonneg i him _ hsurplusLt)
    (hbalanced.local_nonpos i him j hslackLt) (hbalanced.local_nonpos i him _ hsurplusLt)
    (hbalanced.local_mul i him j hslackLt) (hbalanced.local_mul i him _ hsurplusLt)
    (hconditions.slack j hj) (hconditions.surplus j hj) hpoint (hnu i hi j hj)

omit hstationary in
include hP hsplit in
theorem exists_multipliers (y : Nat → Nat → K) : ∃ nu : Nat → K,
    ∀ i < parts.size, ∀ j < e.pointCount i, (P.points : K) * nu (e.point i j) = -y i j := by
  have hn : (P.points : K) ≠ 0 := hP.points_cast_pos.ne'
  rcases exists_pointwise hsplit h (0 : K) fun i j => -y i j / (P.points : K) with ⟨nu, hnu⟩
  refine ⟨nu, ?_⟩
  intro i hi j hj
  rw [hnu i hi j hj, mul_div_cancel₀ _ hn]

omit hstationary in
include hsplit in
theorem sum_pointCount : ∑ i ∈ range parts.size, (e.pointCount i : K) = (P.points : K) :=
  h.sum_pointCount hsplit.columns

include hsplit hP hnu in
theorem IsStationary.sum_nu : ∑ c ∈ range P.points, nu c = 1 := by
  have hn : (P.points : K) ≠ 0 := hP.points_cast_pos.ne'
  have hpart : ∀ i ∈ range parts.size, ∑ j ∈ range (e.pointCount i),
      (P.points : K) * nu (e.point i j) = (e.pointCount i : K) -
        rho * (e.member i).state.u.getD ((e.member i).partition.sharedOffset + 0) 0 := by
    intro i hi
    have hip := mem_range.mp hi
    have hthreshold : rho * (e.member i).state.z.getD (2 * e.pointCount i) 0 -
        ∑ j ∈ range (e.pointCount i), y i j =
        rho * ((e.member i).state.z.getD (2 * e.pointCount i) 0 -
          (e.member i).state.u.getD ((e.member i).partition.sharedOffset + 0) 0) +
        (e.pointCount i : K) :=
      (hstationary.conditions i (h.lt_size hip)).threshold
    have hsum : ∑ j ∈ range (e.pointCount i), (P.points : K) * nu (e.point i j) =
        -∑ j ∈ range (e.pointCount i), y i j := by
      rw [← sum_neg_distrib]
      exact sum_congr rfl fun j hj => hnu i hip j (mem_range.mp hj)
    rw [hsum]
    linear_combination hthreshold
  have hall := sum_congr rfl hpart
  rw [sum_points hsplit h fun c => (P.points : K) * nu c, ← mul_sum, sum_sub_distrib, ← mul_sum,
    sum_pointCount hsplit h] at hall
  have hzero := hstationary.balanced.threshold
  unfold sharedMultiplier at hzero
  rw [h.size_members] at hzero
  rw [hzero, mul_zero, sub_zero] at hall
  exact mul_left_cancel₀ hn (hall.trans (mul_one _).symm)

/-- The multipliers of the normalizations, on the scale of those of the points. -/
def normalizationBound (P : Problem K) (e : Ensemble K) (y : Nat → Nat → K) : K :=
  (∑ i ∈ range e.members.size, y i (e.pointCount i)) / (P.points : K)

include hsplit hP hnu in
theorem IsStationary.points_mul_gap {k : Nat} (hk : k < P.features) :
    (P.points : K) * (normalizationBound P e y - P.loadAt nu k) =
      -rho * e.sharedMultiplier (1 + k) := by
  have hn : (P.points : K) ≠ 0 := hP.points_cast_pos.ne'
  have hpart : ∀ i ∈ range parts.size, ∑ j ∈ range (e.pointCount i),
      (P.points : K) * (P.data.entry k (e.point i j) * nu (e.point i j)) =
        y i (e.pointCount i) +
          rho * (e.member i).state.u.getD ((e.member i).partition.sharedOffset + (1 + k)) 0 := by
    intro i hi
    have hip := mem_range.mp hi
    have hweight : rho * (e.member i).state.z.getD (2 * e.pointCount i + 1 + k) 0 +
        (∑ j ∈ range (e.pointCount i), P.data.entry k (e.point i j) * y i j +
          y i (e.pointCount i)) =
        rho * ((e.member i).state.z.getD (2 * e.pointCount i + 1 + k) 0 -
          (e.member i).state.u.getD (2 * e.pointCount i + 1 + k) 0) :=
      (hstationary.conditions i (h.lt_size hip)).weight k hk
    have hsum : ∑ j ∈ range (e.pointCount i),
        (P.points : K) * (P.data.entry k (e.point i j) * nu (e.point i j)) =
        -∑ j ∈ range (e.pointCount i), P.data.entry k (e.point i j) * y i j := by
      rw [← sum_neg_distrib]
      apply sum_congr rfl
      intro j hj
      linear_combination P.data.entry k (e.point i j) * hnu i hip j (mem_range.mp hj)
    have hindex : (e.member i).partition.sharedOffset + (1 + k) =
        2 * e.pointCount i + 1 + k := (Nat.add_assoc _ _ _).symm
    rw [hsum, hindex]
    linear_combination -hweight
  have hall := sum_congr rfl hpart
  rw [sum_points hsplit h fun c => (P.points : K) * (P.data.entry k c * nu c), ← mul_sum,
    sum_add_distrib, ← mul_sum] at hall
  unfold normalizationBound sharedMultiplier
  rw [mul_sub, mul_div_cancel₀ _ hn, h.size_members]
  unfold Problem.loadAt
  linear_combination -hall

include hsplit hP in
theorem IsStationary.sum_weights :
    ∑ k ∈ range P.features, e.consensus.getD (1 + k) 0 = 1 := by
  have hpos := hsplit.parts_pos hP
  have hnormalization :=
    (hstationary.conditions 0 (h.lt_size hpos)).normalization
  rw [← hnormalization]
  apply sum_congr rfl
  intro k hk
  rw [hstationary.weight_eq h hpos (mem_range.mp hk)]

end Stationary

end Ensemble

/-!
## The point of a consensus
-/

section Point

variable {c : Array K} {before : PrimalSolution K} (hc : c.size = P.features + 1)

include hc

theorem getD_a_ofConsensus {k : Nat} (hk : k < P.features) :
    (PrimalSolution.ofConsensus P.data before c).a.getD k 0 = c.getD (1 + k) 0 := by
  unfold PrimalSolution.ofConsensus
  dsimp only
  rw [getD_extract _ _ (by omega)]

theorem size_a_ofConsensus :
    (PrimalSolution.ofConsensus P.data before c).a.size = P.features := by
  unfold PrimalSolution.ofConsensus
  dsimp only
  rw [Array.size_extract]
  omega

theorem marginAt_ofConsensus (j : Nat) :
    P.marginAt (PrimalSolution.ofConsensus P.data before c) j =
      ∑ k ∈ range P.features, P.data.entry k j * c.getD (1 + k) 0 := by
  apply sum_congr rfl
  intro k hk
  rw [getD_a_ofConsensus hc (mem_range.mp hk)]

variable (hP : P.IsProper) (hbefore : before.xi.size = P.points)

omit hc in
include hbefore in
theorem size_xi_ofConsensus :
    (PrimalSolution.ofConsensus P.data before c).xi.size = P.points := by
  unfold PrimalSolution.ofConsensus
  dsimp only
  rw [Array.size_map]
  exact Matrix.size_transposeMulAdd _ _ _ _ hbefore

include hP hbefore in
/-- The slack of a point is what its margin lacks. The slacks held before do not enter. -/
theorem getD_xi_ofConsensus {j : Nat} (hj : j < P.points) :
    (PrimalSolution.ofConsensus P.data before c).xi.getD j 0 =
      max (c.getD 0 0 - P.marginAt (PrimalSolution.ofConsensus P.data before c) j) 0 := by
  have hsize : (c.extract 1 c.size).size = P.data.rows := by
    rw [Array.size_extract, hc, min_self, Nat.add_sub_cancel]
    rfl
  have hmargin := Matrix.getD_transposeMulAdd hP.complete 1 0 hsize hbefore hj
  rw [one_mul, zero_mul, add_zero] at hmargin
  have hxi : (PrimalSolution.ofConsensus P.data before c).xi =
      (P.data.transposeMulAdd 1 (c.extract 1 c.size) 0 before.xi).map fun m =>
        pos (c.getD 0 0 - m) := rfl
  rw [hxi, getD_map _ _ 0 _ (by rw [Matrix.size_transposeMulAdd _ _ _ _ hbefore]; exact hj),
    hmargin, pos_eq_max]
  rfl

end Point

namespace Ensemble

variable {e : Ensemble K} {y : Nat → Nat → K} {nu : Nat → K} {before : PrimalSolution K}

section Optimal

variable (hP : P.IsProper) (hrho : 0 < rho) (hsplit : IsSplit P settings parts)
  (h : e.IsOver parts P) (hstationary : e.IsStationary P rho y)
  (hbefore : before.xi.size = P.points)

include hP hrho hsplit h hstationary hbefore

omit hrho in
theorem IsStationary.feasible :
    P.Feasible (PrimalSolution.ofConsensus P.data before e.consensus) := by
  have hc := h.size_consensus
  refine ⟨size_a_ofConsensus hc, size_xi_ofConsensus hbefore, ?_, ?_, ?_, ?_⟩
  · intro j hj
    rw [getD_xi_ofConsensus hc hP hbefore hj, ← sub_le_iff_le_add']
    exact le_max_left _ _
  · intro j hj
    rw [getD_xi_ofConsensus hc hP hbefore hj]
    exact le_max_right _ _
  · intro k hk
    rw [getD_a_ofConsensus hc hk]
    exact hstationary.balanced.weight_nonneg k hk
  · rw [← hstationary.sum_weights hP hsplit h]
    apply sum_congr rfl
    intro k hk
    rw [getD_a_ofConsensus hc (mem_range.mp hk)]

theorem IsStationary.slack_eq {i j : Nat} (hi : i < parts.size) (hj : j < e.pointCount i) :
    (e.member i).state.z.getD j 0 =
      (PrimalSolution.ofConsensus P.data before e.consensus).xi.getD (e.point i j) 0 := by
  have hc := h.size_consensus
  rcases exists_multipliers hP hsplit h y with ⟨nu, hnu⟩
  rw [getD_xi_ofConsensus hc hP hbefore (point_lt hsplit h hi hj), marginAt_ofConsensus hc]
  exact (hstationary.point hP hrho h hnu hi hj).2.2.1

theorem IsStationary.certifies
    (hnu : ∀ i < parts.size, ∀ j < e.pointCount i, (P.points : K) * nu (e.point i j) = -y i j) :
    P.Certifies (PrimalSolution.ofConsensus P.data before e.consensus) nu
      (normalizationBound P e y) := by
  have hc := h.size_consensus
  have hn : (0 : K) < (P.points : K) := hP.points_cast_pos
  have hpoint : ∀ c < P.points, 0 ≤ nu c ∧ nu c ≤ P.bound ∧
      (PrimalSolution.ofConsensus P.data before e.consensus).xi.getD c 0 * (P.bound - nu c) = 0 ∧
      nu c * (P.marginAt (PrimalSolution.ofConsensus P.data before e.consensus) c +
        (PrimalSolution.ofConsensus P.data before e.consensus).xi.getD c 0 -
        (PrimalSolution.ofConsensus P.data before e.consensus).threshold) = 0 := by
    intro c hcp
    rcases exists_point hsplit h hcp with ⟨i, hi, j, hj, rfl⟩
    rcases hstationary.point hP hrho h hnu hi hj with ⟨hlower, hupper, _, hslack, hsurplus⟩
    rw [← hstationary.slack_eq hP hrho hsplit h hbefore hi hj, marginAt_ofConsensus hc]
    exact ⟨hlower, hupper, hslack, hsurplus⟩
  have hgap : ∀ k < P.features, (P.points : K) * (normalizationBound P e y - P.loadAt nu k) =
      -rho * e.sharedMultiplier (1 + k) := fun k hk =>
    hstationary.points_mul_gap hP hsplit h hnu hk
  refine ⟨⟨?_, ?_, hstationary.sum_nu hP hsplit h hnu, ?_⟩, ?_, ?_, ?_⟩
  · intro c hcp
    exact (hpoint c hcp).left
  · intro c hcp
    exact (hpoint c hcp).2.1
  · intro k hk
    refine sub_nonneg.mp (nonneg_of_mul_nonneg_right ?_ hn)
    rw [hgap k hk, neg_mul]
    exact neg_nonneg.mpr (mul_nonpos_of_nonneg_of_nonpos hrho.le
      (hstationary.balanced.weight_nonpos k hk))
  · intro c hcp
    exact (hpoint c hcp).2.2.1
  · intro c hcp
    exact (hpoint c hcp).2.2.2
  · intro k hk
    rw [getD_a_ofConsensus hc hk]
    have hscaled : (P.points : K) *
        (e.consensus.getD (1 + k) 0 * (normalizationBound P e y - P.loadAt nu k)) = 0 := by
      linear_combination e.consensus.getD (1 + k) 0 * hgap k hk -
        rho * hstationary.balanced.weight_mul k hk
    exact (mul_eq_zero.mp hscaled).resolve_left hn.ne'

theorem IsStationary.exists_certifies : ∃ nu beta,
    P.Certifies (PrimalSolution.ofConsensus P.data before e.consensus) nu beta := by
  rcases exists_multipliers hP hsplit h y with ⟨nu, hnu⟩
  exact ⟨nu, _, hstationary.certifies hP hrho hsplit h hbefore hnu⟩

theorem IsStationary.objective_eq
    (hsame : ∀ i < parts.size, ∀ v < (e.member i).partition.variableCount,
      (e.member i).state.x.getD v 0 = (e.member i).state.z.getD v 0) (tol reltol : K) :
    (Residuals.ofSums (e.sums rho) P.points P.features rho tol reltol).objective =
      P.cost (PrimalSolution.ofConsensus P.data before e.consensus) := by
  have hn : (P.points : K) ≠ 0 := hP.points_cast_pos.ne'
  have hpart : ∀ i ∈ range parts.size, ∑ v ∈ range (e.member i).partition.variableCount,
      (e.member i).partition.costs.getD v 0 * (e.member i).state.x.getD v 0 =
      (P.points : K) * P.bound * ∑ j ∈ range (e.pointCount i),
        (PrimalSolution.ofConsensus P.data before e.consensus).xi.getD (e.point i j) 0 -
      (e.pointCount i : K) * e.consensus.getD 0 0 := by
    intro i hi
    have hip := mem_range.mp hi
    rw [sum_congr rfl fun v hv => by rw [hsame i hip v (mem_range.mp hv)],
      (h.isExact hsplit hip).isPart.sum_costs fun v => (e.member i).state.z.getD v 0,
      hstationary.threshold_eq h hip]
    congr 2
    apply sum_congr rfl
    intro j hj
    exact hstationary.slack_eq hP hrho hsplit h hbefore hip (mem_range.mp hj)
  have hobjective : (e.sums rho).objective = (P.points : K) *
      P.cost (PrimalSolution.ofConsensus P.data before e.consensus) := by
    have hpoints := sum_points hsplit h fun c =>
      (PrimalSolution.ofConsensus P.data before e.consensus).xi.getD c 0
    rw [objective_sums h hsplit.isPart]
    unfold total
    rw [h.size_members, sum_congr rfl hpart, sum_sub_distrib, ← mul_sum, ← sum_mul,
      sum_pointCount hsplit h, hpoints]
    unfold Problem.cost
    change _ = (P.points : K) * (-e.consensus.getD 0 0 + _)
    ring
  change (e.sums rho).objective / (P.points : K) = _
  rw [hobjective, mul_div_cancel_left₀ _ hn]

end Optimal

end Ensemble
end SoftMargin
