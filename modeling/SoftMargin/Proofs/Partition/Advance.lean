import SoftMargin.Proofs.Partition.Balance

/-!
# One iteration

An iteration solves every partition for its state, and projects. The multipliers
grow by the difference between solution and projection, and the sums that judge
the iteration are sums over all variables of all partitions.
-/

namespace SoftMargin
namespace Ensemble

open Scalar Finset

variable {K : Type} [ExactScalar K] {P : Problem K} {settings : Settings K}
  {parts : Array (Partition K)} {e : Ensemble K}

/-!
## Local solutions
-/

theorem member_updateX (e : Ensemble K) (rho : K) {i : Nat} (hi : i < e.members.size) :
    (e.updateX rho).2.member i = ⟨(e.member i).partition,
      ((e.member i).partition.updateX rho (e.member i).state).2⟩ := by
  unfold member updateX
  dsimp only
  rw [Array.map_map, getD_map _ _ Member.empty _ hi]
  rfl

theorem isOver_updateX (hsplit : IsSplit P settings parts) (h : e.IsOver parts P) :
    (e.updateX settings.rho).2.IsOver parts P := by
  have hmembers : (e.updateX settings.rho).2.members = e.members.map fun m =>
      ⟨m.partition, (m.partition.updateX settings.rho m.state).2⟩ := by
    unfold updateX
    dsimp only
    rw [Array.map_map]
    rfl
  refine ⟨?_, ?_, h.size_consensus⟩
  · rw [← h.partitions, hmembers, Array.map_map]
    rfl
  · intro m hm
    rw [hmembers] at hm
    rcases Array.mem_map.mp hm with ⟨m', hm', rfl⟩
    have hexact := hsplit.exact m'.partition (by
      rw [← h.partitions]
      exact Array.mem_map_of_mem hm')
    exact (hexact.updateX_spec (h.sized m' hm')).2.1

theorem updateX_finite (hsplit : IsSplit P settings parts) (h : e.IsOver parts P) :
    (e.updateX settings.rho).1.all id = true := by
  have hflags : (e.updateX settings.rho).1 = e.members.map fun m =>
      (m.partition.updateX settings.rho m.state).1 := by
    unfold updateX
    dsimp only
    rw [Array.map_map]
    rfl
  rw [hflags, Array.all_eq_true_iff_forall_mem]
  intro flag hflag
  rcases Array.mem_map.mp hflag with ⟨m, hm, rfl⟩
  have hexact := hsplit.exact m.partition (by
    rw [← h.partitions]
    exact Array.mem_map_of_mem hm)
  exact (hexact.updateX_spec (h.sized m hm)).left

/-!
## The whole iteration
-/

theorem isOver_advance (hsplit : IsSplit P settings parts) (h : e.IsOver parts P) :
    (e.advance settings.rho).IsOver parts P :=
  isOver_project hsplit.haveFeatures (isOver_updateX hsplit h)

theorem isBalanced_advance (hsplit : IsSplit P settings parts) (h : e.IsOver parts P)
    (hparts : 0 < parts.size) : (e.advance settings.rho).IsBalanced P :=
  isBalanced_project hsplit.haveFeatures (isOver_updateX hsplit h) hparts

theorem size_members_advance (e : Ensemble K) (rho : K) :
    (e.advance rho).members.size = e.members.size := by
  unfold advance project updateZU updateConsensus updateX
  simp

theorem member_advance (e : Ensemble K) (rho : K) {i : Nat} (hi : i < e.members.size) :
    (e.advance rho).member i = ⟨(e.member i).partition,
      (e.member i).partition.updateZU (e.advance rho).consensus
        ((e.member i).partition.updateX rho (e.member i).state).2⟩ := by
  have hsize : i < (e.updateX rho).2.members.size := by
    unfold updateX
    simpa using hi
  unfold advance
  rw [member_project _ hsize, member_updateX e rho hi]

section Advance

variable (hsplit : IsSplit P settings parts) (h : e.IsOver parts P) {i : Nat}
  (hi : i < parts.size)

include h hi

theorem zPrevious_advance (rho : K) :
    ((e.advance rho).member i).state.zPrevious = (e.member i).state.z := by
  rw [member_advance e rho (h.lt_size hi)]
  rfl

theorem partition_advance (rho : K) :
    ((e.advance rho).member i).partition = (e.member i).partition := by
  rw [member_advance e rho (h.lt_size hi)]

include hsplit

theorem advance_multiplier (v : Nat) :
    ((e.advance settings.rho).member i).state.u.getD v 0 =
      ((e.advance settings.rho).member i).state.x.getD v 0 + (e.member i).state.u.getD v 0 -
        ((e.advance settings.rho).member i).state.z.getD v 0 := by
  have hover := isOver_updateX hsplit h
  have hsize := h.lt_size hi
  have hmultiplier := project_multiplier hsplit.haveFeatures hover hi v
  change ((e.advance settings.rho).member i).state.u.getD v 0 = _ + _ -
    ((e.advance settings.rho).member i).state.z.getD v 0 at hmultiplier
  rw [hmultiplier, member_updateX e settings.rho hsize, member_advance e settings.rho hsize]
  rfl

theorem advance_isSolution : ∃ y, Partition.IsSolution P settings.rho (e.member i).partition
    (e.member i).state
    (fun v => ((e.advance settings.rho).member i).state.x.getD v 0) y := by
  have hsize := h.lt_size hi
  rcases ((h.isExact hsplit hi).updateX_spec (h.isSized hi)).2.2 with ⟨y, hy⟩
  refine ⟨y, ?_⟩
  rw [member_advance e settings.rho hsize]
  exact hy

end Advance

/-- An iteration leaves the projections and the multipliers unchanged. -/
def IsUnchanged (rho : K) (e : Ensemble K) : Prop :=
  (e.advance rho).members.map (fun m => (m.state.z, m.state.u)) =
    e.members.map fun m => (m.state.z, m.state.u)

theorem isUnchanged_of_eq {rho : K} (h : e.advance rho = e) : e.IsUnchanged rho := by
  unfold IsUnchanged
  rw [h]

theorem IsUnchanged.member (h : e.IsUnchanged settings.rho) {i : Nat}
    (hi : i < e.members.size) :
    ((e.advance settings.rho).member i).state.z = (e.member i).state.z ∧
      ((e.advance settings.rho).member i).state.u = (e.member i).state.u := by
  have hsize := size_members_advance e settings.rho
  have hpair : ((e.advance settings.rho).members.map
      fun m => (m.state.z, m.state.u)).getD i (#[], #[]) =
      (e.members.map fun m => (m.state.z, m.state.u)).getD i (#[], #[]) := by rw [h]
  rw [getD_map _ _ Member.empty _ (by omega), getD_map _ _ Member.empty _ hi] at hpair
  exact Prod.mk.inj hpair

/-!
## The sums
-/

def total (e : Ensemble K) (g : Member K → Nat → K) : K :=
  ∑ i ∈ range e.members.size,
    ∑ v ∈ range (e.member i).partition.variableCount, g (e.member i) v

theorem field_sums (e : Ensemble K) (rho : K) (field : Sums K → K) (hzero : field Sums.zero = 0)
    (hadd : ∀ s t, field (s.add t) = field s + field t) : field (e.sums rho) =
      ∑ i ∈ range e.members.size,
        field ((e.member i).partition.sums rho (e.member i).state) := by
  unfold sums
  rw [foldl_eq_foldl_range _ e.members Member.empty]
  exact foldl_range_induction
    (fun n acc => field acc =
      ∑ i ∈ range n, field ((e.member i).partition.sums rho (e.member i).state))
    (fun acc i => acc.add ((e.member i).partition.sums rho (e.member i).state))
    e.members.size Sums.zero (by rw [hzero, sum_range_zero]) (by
      intro n _ acc hacc
      rw [hadd, hacc, sum_range_succ])

section Sums

variable (h : e.IsOver parts P)

include h

theorem rsq_sums (rho : K) : (e.sums rho).rsq =
    e.total fun m v => (m.state.x.getD v 0 - m.state.z.getD v 0) ^ 2 := by
  rw [field_sums e rho Sums.rsq rfl fun _ _ => rfl]
  apply sum_congr rfl
  intro i hi
  have hsized := h.isSized (h.lt_parts (mem_range.mp hi))
  exact squaredDistance_eq_sum _ _ hsized.x hsized.z

theorem ssq_sums (rho : K) : (e.sums rho).ssq =
    rho ^ 2 * e.total fun m v => (m.state.z.getD v 0 - m.state.zPrevious.getD v 0) ^ 2 := by
  rw [field_sums e rho Sums.ssq rfl fun _ _ => rfl]
  unfold total
  rw [mul_sum]
  apply sum_congr rfl
  intro i hi
  have hsized := h.isSized (h.lt_parts (mem_range.mp hi))
  rw [← squaredDistance_eq_sum _ _ hsized.z hsized.zPrevious, pow_two]
  rfl

theorem objective_sums (hparts : ∀ p ∈ parts, p.IsPart P) (rho : K) : (e.sums rho).objective =
    e.total fun m v => m.partition.costs.getD v 0 * m.state.x.getD v 0 := by
  rw [field_sums e rho Sums.objective rfl fun _ _ => rfl]
  apply sum_congr rfl
  intro i hi
  have hip := h.lt_parts (mem_range.mp hi)
  exact dot_eq_sum _ _ (h.isPart hparts hip).size_costs (h.isSized hip).x

end Sums

theorem total_sq_eq_zero_iff {e : Ensemble K} {g : Member K → Nat → K} :
    (e.total fun m v => g m v ^ 2) = 0 ↔ ∀ i < e.members.size,
      ∀ v < (e.member i).partition.variableCount, g (e.member i) v = 0 := by
  unfold total
  rw [sum_eq_zero_iff_of_nonneg fun i _ => sum_nonneg fun v _ => sq_nonneg (g (e.member i) v)]
  constructor
  · intro h i hi v hv
    exact eq_zero_of_sum_sq (h i (mem_range.mpr hi)) hv
  · intro h i hi
    apply sum_eq_zero
    intro v hv
    rw [h i (mem_range.mp hi) v (mem_range.mp hv), zero_pow two_ne_zero]

end Ensemble
end SoftMargin
