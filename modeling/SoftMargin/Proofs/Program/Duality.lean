import SoftMargin.Proofs.Exact.Simplex
import SoftMargin.Problem
import SoftMargin.Solution

/-!
# Optimality in the soft margin program

Multipliers of the points bound the cost of every feasible point from below. The
gap between cost and bound is a sum of products that feasibility makes
nonnegative, so a feasible point is optimal if all of them vanish.
-/

namespace SoftMargin
namespace Problem

open Scalar Finset

variable {K : Type} [ExactScalar K]

def marginAt (P : Problem K) (x : PrimalSolution K) (j : Nat) : K :=
  ∑ k ∈ range P.features, P.data.entry k j * x.a.getD k 0

/-- What the multipliers of the points put on weight `k`. -/
def loadAt (P : Problem K) (nu : Nat → K) (k : Nat) : K :=
  ∑ j ∈ range P.points, P.data.entry k j * nu j

def cost (P : Problem K) (x : PrimalSolution K) : K :=
  -x.threshold + P.bound * ∑ j ∈ range P.points, x.xi.getD j 0

structure Feasible (P : Problem K) (x : PrimalSolution K) : Prop where
  size_a : x.a.size = P.features
  size_xi : x.xi.size = P.points
  margin : ∀ j < P.points, x.threshold ≤ P.marginAt x j + x.xi.getD j 0
  xi_nonneg : ∀ j < P.points, 0 ≤ x.xi.getD j 0
  a_nonneg : ∀ k < P.features, 0 ≤ x.a.getD k 0
  sum_a : ∑ k ∈ range P.features, x.a.getD k 0 = 1

def IsOptimal (P : Problem K) (x : PrimalSolution K) : Prop :=
  P.Feasible x ∧ ∀ y, P.Feasible y → P.cost x ≤ P.cost y

/-- The multipliers `nu` of the points, with the bound `beta` on what they put on a weight, are
feasible for the dual program. -/
structure DualFeasible (P : Problem K) (nu : Nat → K) (beta : K) : Prop where
  nonneg : ∀ j < P.points, 0 ≤ nu j
  le_bound : ∀ j < P.points, nu j ≤ P.bound
  sum_eq : ∑ j ∈ range P.points, nu j = 1
  load_le : ∀ k < P.features, P.loadAt nu k ≤ beta

/-- The multipliers certify that the point is optimal: they are feasible, and in each pair of an
inequality and its multiplier one is tight. -/
structure Certifies (P : Problem K) (x : PrimalSolution K) (nu : Nat → K) (beta : K) : Prop
    extends P.DualFeasible nu beta where
  slack : ∀ j < P.points, x.xi.getD j 0 * (P.bound - nu j) = 0
  surplus : ∀ j < P.points, nu j * (P.marginAt x j + x.xi.getD j 0 - x.threshold) = 0
  weight : ∀ k < P.features, x.a.getD k 0 * (beta - P.loadAt nu k) = 0

variable {P : Problem K} {x : PrimalSolution K} {nu : Nat → K} {beta : K}

theorem sum_marginAt (P : Problem K) (x : PrimalSolution K) (nu : Nat → K) :
    ∑ j ∈ range P.points, nu j * P.marginAt x j =
      ∑ k ∈ range P.features, x.a.getD k 0 * P.loadAt nu k := by
  unfold marginAt loadAt
  simp only [mul_sum]
  rw [sum_comm]
  apply sum_congr rfl
  intro k _
  apply sum_congr rfl
  intro j _
  ring

theorem cost_add_eq (beta : K) (hx : ∑ k ∈ range P.features, x.a.getD k 0 = 1)
    (hnu : ∑ j ∈ range P.points, nu j = 1) : P.cost x + beta =
      ∑ j ∈ range P.points, x.xi.getD j 0 * (P.bound - nu j) +
      ∑ j ∈ range P.points, nu j * (P.marginAt x j + x.xi.getD j 0 - x.threshold) +
      ∑ k ∈ range P.features, x.a.getD k 0 * (beta - P.loadAt nu k) := by
  have hslack : ∑ j ∈ range P.points, x.xi.getD j 0 * (P.bound - nu j) =
      P.bound * ∑ j ∈ range P.points, x.xi.getD j 0 -
        ∑ j ∈ range P.points, nu j * x.xi.getD j 0 := by
    rw [mul_sum, ← sum_sub_distrib]
    apply sum_congr rfl
    intro j _
    ring
  have hsurplus : ∑ j ∈ range P.points,
      nu j * (P.marginAt x j + x.xi.getD j 0 - x.threshold) =
      ∑ j ∈ range P.points, nu j * P.marginAt x j +
        ∑ j ∈ range P.points, nu j * x.xi.getD j 0 - x.threshold := by
    have hthreshold : x.threshold = ∑ j ∈ range P.points, nu j * x.threshold := by
      rw [← sum_mul, hnu, one_mul]
    rw [hthreshold, ← sum_add_distrib, ← sum_sub_distrib]
    apply sum_congr rfl
    intro j _
    rw [← hthreshold]
    ring
  have hweight : ∑ k ∈ range P.features, x.a.getD k 0 * (beta - P.loadAt nu k) =
      beta - ∑ k ∈ range P.features, x.a.getD k 0 * P.loadAt nu k := by
    have hbeta : beta = ∑ k ∈ range P.features, x.a.getD k 0 * beta := by
      rw [← sum_mul, hx, one_mul]
    rw [hbeta, ← sum_sub_distrib]
    apply sum_congr rfl
    intro k _
    rw [← hbeta]
    ring
  unfold cost
  rw [hslack, hsurplus, hweight, sum_marginAt]
  ring

theorem neg_le_cost (hx : P.Feasible x) (hnu : P.DualFeasible nu beta) : -beta ≤ P.cost x := by
  have hslack : 0 ≤ ∑ j ∈ range P.points, x.xi.getD j 0 * (P.bound - nu j) := by
    apply sum_nonneg
    intro j hj
    exact mul_nonneg (hx.xi_nonneg j (mem_range.mp hj))
      (sub_nonneg.mpr (hnu.le_bound j (mem_range.mp hj)))
  have hsurplus : 0 ≤ ∑ j ∈ range P.points,
      nu j * (P.marginAt x j + x.xi.getD j 0 - x.threshold) := by
    apply sum_nonneg
    intro j hj
    exact mul_nonneg (hnu.nonneg j (mem_range.mp hj))
      (sub_nonneg.mpr (hx.margin j (mem_range.mp hj)))
  have hweight : 0 ≤ ∑ k ∈ range P.features, x.a.getD k 0 * (beta - P.loadAt nu k) := by
    apply sum_nonneg
    intro k hk
    exact mul_nonneg (hx.a_nonneg k (mem_range.mp hk))
      (sub_nonneg.mpr (hnu.load_le k (mem_range.mp hk)))
  have hgap := cost_add_eq beta hx.sum_a hnu.sum_eq
  linarith

theorem Certifies.cost_eq (h : P.Certifies x nu beta) (hx : P.Feasible x) :
    P.cost x = -beta := by
  have hgap := cost_add_eq beta hx.sum_a h.sum_eq
  rw [sum_eq_zero fun j hj => h.slack j (mem_range.mp hj),
    sum_eq_zero fun j hj => h.surplus j (mem_range.mp hj),
    sum_eq_zero fun k hk => h.weight k (mem_range.mp hk), add_zero, add_zero] at hgap
  linarith

theorem Certifies.isOptimal (h : P.Certifies x nu beta) (hx : P.Feasible x) : P.IsOptimal x := by
  refine ⟨hx, ?_⟩
  intro y hy
  rw [h.cost_eq hx]
  exact neg_le_cost hy h.toDualFeasible

/-!
## Complementary pairs
-/

/-- A point with the least slacks, and multipliers that are complementary to it. -/
structure Complementary (P : Problem K) (x : PrimalSolution K) (nu : Nat → K) (beta : K) :
    Prop where
  weights : UnitSimplex.IsPoint P.features x.a
  size_xi : x.xi.size = P.points
  xi_eq : ∀ j < P.points, x.xi.getD j 0 = max (x.threshold - P.marginAt x j) 0
  nonneg : ∀ j < P.points, 0 ≤ nu j
  le_bound : ∀ j < P.points, nu j ≤ P.bound
  sum_eq : ∑ j ∈ range P.points, nu j = 1
  load_eq : ∀ k < P.features, 0 < x.a.getD k 0 → P.loadAt nu k = beta
  eq_bound : ∀ j < P.points, 0 < x.xi.getD j 0 → nu j = P.bound
  eq_zero : ∀ j < P.points, x.threshold < P.marginAt x j → nu j = 0

theorem Certifies.complementary (h : P.Certifies x nu beta) (hx : P.Feasible x)
    (hxi : ∀ j < P.points, x.xi.getD j 0 = max (x.threshold - P.marginAt x j) 0) :
    P.Complementary x nu beta where
  weights := ⟨hx.size_a, hx.a_nonneg, hx.sum_a⟩
  size_xi := hx.size_xi
  xi_eq := hxi
  nonneg := h.nonneg
  le_bound := h.le_bound
  sum_eq := h.sum_eq
  load_eq := by
    intro k hk hpos
    have hzero := (mul_eq_zero.mp (h.weight k hk)).resolve_left hpos.ne'
    exact (sub_eq_zero.mp hzero).symm
  eq_bound := by
    intro j hj hpos
    have hzero := (mul_eq_zero.mp (h.slack j hj)).resolve_left hpos.ne'
    exact (sub_eq_zero.mp hzero).symm
  eq_zero := by
    intro j hj hbeyond
    have hpos : 0 < P.marginAt x j + x.xi.getD j 0 - x.threshold := by
      have hnonneg := hx.xi_nonneg j hj
      linarith
    exact (mul_eq_zero.mp (h.surplus j hj)).resolve_right hpos.ne'

end Problem
end SoftMargin
