import SoftMargin.Proofs.Solver.Stationary

/-!
# Ensembles of certified points

A feasible point and the multipliers that certify it determine an ensemble: every
partition holds the slacks of its points and the point itself, and its
multipliers are what its optimality conditions ask for. This ensemble is
stationary.
-/

namespace SoftMargin

open Scalar Finset

variable {K : Type} [ExactScalar K]

/-!
## The ensemble
-/

variable (P : Problem K) (rho : K) (x : PrimalSolution K) (nu : Nat → K) (beta : K)

def Partition.certified (p : Partition K) : LocalState K :=
  let point := fun j => p.columns.getD j 0
  let n := (P.points : K)
  let z := p.shape.arrange (fun j => x.xi.getD (point j) 0)
    (fun j => P.marginAt x (point j) + x.xi.getD (point j) 0 - x.threshold) x.threshold
    fun k => x.a.getD k 0
  let u := p.shape.arrange (fun j => -(n * (P.bound - nu (point j))) / rho)
    (fun j => -(n * nu (point j)) / rho)
    (((p.points : K) - ∑ j ∈ range p.points, n * nu (point j)) / rho)
    fun k => (∑ j ∈ range p.points, n * (P.data.entry k (point j) * nu (point j)) -
      (p.points : K) * beta) / rho
  ⟨z, z, u, z⟩

def Partition.certifiedMultiplier (p : Partition K) (j : Nat) : K :=
  if j = p.points then (p.points : K) * beta else -((P.points : K) * nu (p.columns.getD j 0))

def Ensemble.certified (parts : Array (Partition K)) : Ensemble K :=
  ⟨parts.map fun p => ⟨p, p.certified P rho x nu beta⟩, #[x.threshold] ++ x.a⟩

variable {P rho x nu beta} {settings : Settings K} {parts : Array (Partition K)}

namespace Partition

variable {p : Partition K}

theorem certified_isSized (p : Partition K) : p.IsSized (p.certified P rho x nu beta) :=
  ⟨Kkt.Shape.size_arrange _ _ _ _ _, Kkt.Shape.size_arrange _ _ _ _ _,
    Kkt.Shape.size_arrange _ _ _ _ _, Kkt.Shape.size_arrange _ _ _ _ _⟩

section Entries

variable (p)

theorem getD_certified_slack {j : Nat} (hj : j < p.points) :
    (p.certified P rho x nu beta).z.getD j 0 = x.xi.getD (p.columns.getD j 0) 0 ∧
      (p.certified P rho x nu beta).u.getD j 0 =
        -((P.points : K) * (P.bound - nu (p.columns.getD j 0))) / rho :=
  ⟨Kkt.Shape.getD_arrange_slack p.shape _ _ _ _ hj,
    Kkt.Shape.getD_arrange_slack p.shape _ _ _ _ hj⟩

theorem getD_certified_surplus {j : Nat} (hj : j < p.points) :
    (p.certified P rho x nu beta).z.getD (p.points + j) 0 =
        P.marginAt x (p.columns.getD j 0) + x.xi.getD (p.columns.getD j 0) 0 - x.threshold ∧
      (p.certified P rho x nu beta).u.getD (p.points + j) 0 =
        -((P.points : K) * nu (p.columns.getD j 0)) / rho :=
  ⟨Kkt.Shape.getD_arrange_surplus p.shape _ _ _ _ hj,
    Kkt.Shape.getD_arrange_surplus p.shape _ _ _ _ hj⟩

theorem getD_certified_threshold :
    (p.certified P rho x nu beta).z.getD (2 * p.points) 0 = x.threshold ∧
      (p.certified P rho x nu beta).u.getD (2 * p.points) 0 =
        ((p.points : K) - ∑ j ∈ range p.points,
          (P.points : K) * nu (p.columns.getD j 0)) / rho :=
  ⟨Kkt.Shape.getD_arrange_threshold p.shape _ _ _ _,
    Kkt.Shape.getD_arrange_threshold p.shape _ _ _ _⟩

theorem getD_certified_weight {k : Nat} (hk : k < p.features) :
    (p.certified P rho x nu beta).z.getD (2 * p.points + 1 + k) 0 = x.a.getD k 0 ∧
      (p.certified P rho x nu beta).u.getD (2 * p.points + 1 + k) 0 =
        (∑ j ∈ range p.points, (P.points : K) *
          (P.data.entry k (p.columns.getD j 0) * nu (p.columns.getD j 0)) -
          (p.points : K) * beta) / rho :=
  ⟨Kkt.Shape.getD_arrange_weight p.shape _ _ _ _ hk,
    Kkt.Shape.getD_arrange_weight p.shape _ _ _ _ hk⟩

end Entries

theorem certifiedMultiplier_point {j : Nat} (hj : j < p.points) :
    p.certifiedMultiplier P nu beta j = -((P.points : K) * nu (p.columns.getD j 0)) :=
  if_neg hj.ne

theorem certifiedMultiplier_normalization :
    p.certifiedMultiplier P nu beta p.points = (p.points : K) * beta :=
  if_pos rfl

theorem certified_conditions (hp : p.IsExact P settings) (hrho : rho ≠ 0)
    (hx : ∑ k ∈ range P.features, x.a.getD k 0 = 1) :
    Conditions P rho p (p.certified P rho x nu beta)
      (fun v => (p.certified P rho x nu beta).z.getD v 0)
      (p.certifiedMultiplier P nu beta) := by
  have hcancel : ∀ a b : K, rho * (a - b / rho) = rho * a - b := by
    intro a b
    rw [mul_sub, mul_div_cancel₀ _ hrho]
  have hpoints : ∀ f : Nat → K, ∑ j ∈ range p.points, f j * p.certifiedMultiplier P nu beta j =
      -∑ j ∈ range p.points, (P.points : K) * (f j * nu (p.columns.getD j 0)) := by
    intro f
    rw [← sum_neg_distrib]
    apply sum_congr rfl
    intro j hj
    rw [certifiedMultiplier_point (mem_range.mp hj)]
    ring
  refine ⟨?_, ?_, ?_, ?_, ?_, ?_⟩
  · intro j hj
    rw [certifiedMultiplier_point hj, (getD_certified_slack p hj).left,
      (getD_certified_slack p hj).right, hcancel]
    ring
  · intro j hj
    rw [certifiedMultiplier_point hj, (getD_certified_surplus p hj).left,
      (getD_certified_surplus p hj).right, hcancel]
  · have hsum := hpoints fun _ => 1
    simp only [one_mul] at hsum
    rw [(getD_certified_threshold p).left, (getD_certified_threshold p).right, hcancel, hsum]
    ring
  · intro k hk
    rw [← hp.features_eq] at hk
    rw [(getD_certified_weight p hk).left, (getD_certified_weight p hk).right, hcancel,
      hpoints fun j => P.data.entry k (p.columns.getD j 0), certifiedMultiplier_normalization]
    ring
  · intro j hj
    have hweight : ∀ k ∈ range P.features, P.data.entry k (p.columns.getD j 0) *
        (p.certified P rho x nu beta).z.getD (2 * p.points + 1 + k) 0 =
        P.data.entry k (p.columns.getD j 0) * x.a.getD k 0 := by
      intro k hk
      rw [(getD_certified_weight p (by rw [hp.features_eq]; exact mem_range.mp hk)).left]
    rw [(getD_certified_slack p hj).left, (getD_certified_surplus p hj).left,
      (getD_certified_threshold p).left, sum_congr rfl hweight]
    unfold Problem.marginAt
    ring
  · rw [← hx]
    apply sum_congr rfl
    intro k hk
    rw [(getD_certified_weight p (by rw [hp.features_eq]; exact mem_range.mp hk)).left]

/-!
## Balance
-/

theorem certified_local (hp : p.IsExact P settings) (hrho : 0 < rho) (hx : P.Feasible x)
    (hcertifies : P.Certifies x nu beta) {v : Nat} (hv : v < p.sharedOffset) :
    0 ≤ (p.certified P rho x nu beta).z.getD v 0 ∧
      (p.certified P rho x nu beta).u.getD v 0 ≤ 0 ∧
      (p.certified P rho x nu beta).z.getD v 0 * (p.certified P rho x nu beta).u.getD v 0 = 0 := by
  have hn : (0 : K) ≤ (P.points : K) := Nat.cast_nonneg _
  have hoffset : p.sharedOffset = 2 * p.points := rfl
  have hcolumn : ∀ j < p.points, p.columns.getD j 0 < P.points := by
    intro j hj
    rw [getD_of_lt _ 0 hj]
    exact hp.columns_lt _ (Array.getElem_mem hj)
  have hscaled : ∀ {gap z : K}, 0 ≤ gap → z * gap = 0 →
      -((P.points : K) * gap) / rho ≤ 0 ∧ z * (-((P.points : K) * gap) / rho) = 0 := by
    intro gap z hgap hmul
    refine ⟨div_nonpos_of_nonpos_of_nonneg (neg_nonpos.mpr (mul_nonneg hn hgap)) hrho.le, ?_⟩
    linear_combination -(P.points : K) / rho * hmul
  rcases Nat.lt_or_ge v p.points with hslack | hsurplus
  · have hc := hcolumn v hslack
    rw [(getD_certified_slack p hslack).left, (getD_certified_slack p hslack).right]
    exact ⟨hx.xi_nonneg _ hc,
      hscaled (sub_nonneg.mpr (hcertifies.le_bound _ hc)) (hcertifies.slack _ hc)⟩
  · have hj : v - p.points < p.points := by omega
    have hc := hcolumn _ hj
    have hindex : v = p.points + (v - p.points) := by omega
    rw [hindex, (getD_certified_surplus p hj).left, (getD_certified_surplus p hj).right]
    refine ⟨sub_nonneg.mpr (hx.margin _ hc), hscaled (hcertifies.nonneg _ hc) ?_⟩
    rw [mul_comm]
    exact hcertifies.surplus _ hc

end Partition

namespace Ensemble

theorem member_certified {i : Nat} (hi : i < parts.size) :
    (certified P rho x nu beta parts).member i =
      ⟨parts[i], parts[i].certified P rho x nu beta⟩ := by
  unfold member certified
  rw [getD_of_lt _ _ (by simpa using hi), Array.getElem_map]

theorem state_certified {i : Nat} (hi : i < parts.size) :
    ((certified P rho x nu beta parts).member i).state =
      ((certified P rho x nu beta parts).member i).partition.certified P rho x nu beta := by
  rw [member_certified hi]

theorem isOver_certified (hx : P.Feasible x) :
    (certified P rho x nu beta parts).IsOver parts P := by
  refine ⟨?_, ?_, ?_⟩
  · unfold certified
    rw [Array.map_map]
    exact Array.map_id' parts
  · intro m hm
    rcases Array.mem_map.mp hm with ⟨p, _, rfl⟩
    exact p.certified_isSized
  · unfold certified
    rw [Array.size_append, hx.size_a]
    exact Nat.add_comm 1 _

section Certified

variable (hrho : 0 < rho) (hsplit : IsSplit P settings parts)
  (hx : P.Feasible x) (hcertifies : P.Certifies x nu beta)

theorem consensus_certified_zero (parts : Array (Partition K)) :
    (certified P rho x nu beta parts).consensus.getD 0 0 = x.threshold := by
  unfold certified
  rw [getD_append_left _ _ _ Nat.one_pos]
  rfl

theorem consensus_certified_succ (parts : Array (Partition K)) (k : Nat) :
    (certified P rho x nu beta parts).consensus.getD (1 + k) 0 = x.a.getD k 0 := by
  unfold certified
  rw [getD_append_right _ _ _ (Nat.le_add_right 1 k)]
  congr 1
  exact Nat.add_sub_cancel_left 1 k

include hsplit hx in
/-- The multipliers of the threshold add up to what the multipliers of the points lack. -/
theorem sharedMultiplier_certified_zero :
    (certified P rho x nu beta parts).sharedMultiplier 0 =
      (P.points : K) * (1 - ∑ c ∈ range P.points, nu c) / rho := by
  have h : (certified P rho x nu beta parts).IsOver parts P := isOver_certified hx
  have hterm : ∀ i ∈ range parts.size,
      ((certified P rho x nu beta parts).member i).state.u.getD
        (((certified P rho x nu beta parts).member i).partition.sharedOffset + 0) 0 =
      (((certified P rho x nu beta parts).pointCount i : K) -
        ∑ j ∈ range ((certified P rho x nu beta parts).pointCount i),
          (P.points : K) * nu ((certified P rho x nu beta parts).point i j)) / rho := by
    intro i hi
    rw [state_certified (mem_range.mp hi)]
    exact (Partition.getD_certified_threshold _).right
  unfold sharedMultiplier
  rw [h.size_members, sum_congr rfl hterm, ← sum_div, sum_sub_distrib, sum_pointCount hsplit h,
    sum_points hsplit h fun c => (P.points : K) * nu c, ← mul_sum, mul_sub, mul_one]

include hsplit hx in
theorem sharedMultiplier_certified_succ {k : Nat} (hk : k < P.features) :
    (certified P rho x nu beta parts).sharedMultiplier (1 + k) =
      -((P.points : K) * (beta - P.loadAt nu k)) / rho := by
  have h : (certified P rho x nu beta parts).IsOver parts P := isOver_certified hx
  have hterm : ∀ i ∈ range parts.size,
      ((certified P rho x nu beta parts).member i).state.u.getD
        (((certified P rho x nu beta parts).member i).partition.sharedOffset + (1 + k)) 0 =
      (∑ j ∈ range ((certified P rho x nu beta parts).pointCount i), (P.points : K) *
        (P.data.entry k ((certified P rho x nu beta parts).point i j) *
          nu ((certified P rho x nu beta parts).point i j)) -
        ((certified P rho x nu beta parts).pointCount i : K) * beta) / rho := by
    intro i hi
    have hip := mem_range.mp hi
    have hfeatures := (h.isExact hsplit hip).features_eq
    rw [state_certified hip, ← Nat.add_assoc]
    exact (Partition.getD_certified_weight _ (by rw [hfeatures]; exact hk)).right
  unfold sharedMultiplier
  rw [h.size_members, sum_congr rfl hterm, ← sum_div, sum_sub_distrib,
    sum_points hsplit h fun c => (P.points : K) * (P.data.entry k c * nu c), ← mul_sum, ← sum_mul,
    sum_pointCount hsplit h]
  unfold Problem.loadAt
  ring

include hrho hsplit hx hcertifies

theorem isBalanced_certified : (certified P rho x nu beta parts).IsBalanced P := by
  have h : (certified P rho x nu beta parts).IsOver parts P := isOver_certified hx
  have hn : (0 : K) ≤ (P.points : K) := Nat.cast_nonneg _
  have hlocal : ∀ i < (certified P rho x nu beta parts).members.size,
      ∀ v < ((certified P rho x nu beta parts).member i).partition.sharedOffset,
      0 ≤ ((certified P rho x nu beta parts).member i).state.z.getD v 0 ∧
        ((certified P rho x nu beta parts).member i).state.u.getD v 0 ≤ 0 ∧
        ((certified P rho x nu beta parts).member i).state.z.getD v 0 *
          ((certified P rho x nu beta parts).member i).state.u.getD v 0 = 0 := by
    intro i hi v hv
    have hip := h.lt_parts hi
    rw [state_certified hip]
    exact Partition.certified_local (h.isExact hsplit hip) hrho hx hcertifies hv
  refine ⟨?_, ?_, ?_, ?_, ?_, ?_, ?_, ?_⟩
  · intro i hi k hk
    have hip := h.lt_parts hi
    have hfeatures := (h.isExact hsplit hip).features_eq
    rw [state_certified hip]
    rcases Nat.eq_zero_or_pos k with rfl | hpos
    · rw [consensus_certified_zero]
      exact (Partition.getD_certified_threshold _).left
    · have hindex : k = 1 + (k - 1) := by omega
      rw [hindex, consensus_certified_succ, ← Nat.add_assoc]
      exact (Partition.getD_certified_weight _ (by omega)).left
  · intro i hi v hv
    exact (hlocal i hi v hv).left
  · intro i hi v hv
    exact (hlocal i hi v hv).2.1
  · intro i hi v hv
    exact (hlocal i hi v hv).2.2
  · rw [sharedMultiplier_certified_zero hsplit hx, hcertifies.sum_eq, sub_self, mul_zero, zero_div]
  · intro k hk
    rw [consensus_certified_succ]
    exact hx.a_nonneg k hk
  · intro k hk
    rw [sharedMultiplier_certified_succ hsplit hx hk]
    exact div_nonpos_of_nonpos_of_nonneg
      (neg_nonpos.mpr (mul_nonneg hn (sub_nonneg.mpr (hcertifies.load_le k hk)))) hrho.le
  · intro k hk
    rw [sharedMultiplier_certified_succ hsplit hx hk, consensus_certified_succ]
    linear_combination -(P.points : K) / rho * hcertifies.weight k hk

theorem isStationary_certified : (certified P rho x nu beta parts).IsStationary P rho
    fun i => ((certified P rho x nu beta parts).member i).partition.certifiedMultiplier P nu
      beta := by
  have h : (certified P rho x nu beta parts).IsOver parts P := isOver_certified hx
  refine ⟨isBalanced_certified hrho hsplit hx hcertifies, ?_⟩
  intro i hi
  have hip := h.lt_parts hi
  rw [state_certified hip]
  exact Partition.certified_conditions (h.isExact hsplit hip) hrho.ne' hx.sum_a

end Certified

end Ensemble
end SoftMargin
