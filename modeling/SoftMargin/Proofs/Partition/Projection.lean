import SoftMargin.Proofs.Partition.Balance

/-!
# Projections as nearest points

The projections of all partitions, stacked, lie in a cone: local entries and
weights are not negative, and the shared parts agree. Whatever the local
solutions are, they are the point of the cone that is nearest to the solutions
with the multipliers added. The new multipliers are what is left over.
-/

namespace SoftMargin
namespace Ensemble

open Scalar Finset

variable {K : Type} [ExactScalar K] {P : Problem K} {parts : Array (Partition K)}
  {e : Ensemble K}

/-!
## Iterations with given local solutions
-/

def withSolutions (e : Ensemble K) (x : Nat → Array K) : Ensemble K :=
  { e with members := e.members.mapIdx fun i m => ⟨m.partition, { m.state with x := x i }⟩ }

/-- The ensemble after `k` iterations from a reset. The local solutions of iteration `k` are
`x k`. -/
def afterSolutions (e : Ensemble K) (x : Nat → Nat → Array K) : Nat → Ensemble K
  | 0 => e.reset
  | k + 1 => ((e.afterSolutions x k).withSolutions (x k)).project

theorem updateX_eq_withSolutions (e : Ensemble K) (rho : K) : (e.updateX rho).2 =
    e.withSolutions fun i => ((e.member i).partition.updateX rho (e.member i).state).2.x := by
  unfold updateX withSolutions
  dsimp only
  congr 1
  apply Array.ext
  · simp
  · intro i hi hi'
    have hlt : i < e.members.size := by simpa using hi
    have hmember : e.member i = e.members[i] := getD_of_lt _ _ hlt
    simp only [Array.getElem_map, Array.getElem_mapIdx, hmember]
    rfl

theorem exists_afterSolutions_eq (e : Ensemble K) (rho : K) : ∃ x : Nat → Nat → Array K,
    ∀ k, (fun f : Ensemble K => f.advance rho)^[k] e.reset = e.afterSolutions x k := by
  let reached : Nat → Ensemble K := fun k => (fun f : Ensemble K => f.advance rho)^[k] e.reset
  refine ⟨fun k i => (((reached k).member i).partition.updateX rho
    ((reached k).member i).state).2.x, ?_⟩
  intro k
  induction k with
  | zero => rfl
  | succ k ih =>
      rw [Function.iterate_succ_apply', afterSolutions, ← ih]
      show Ensemble.project _ = _
      rw [updateX_eq_withSolutions]

omit [ExactScalar K] in
theorem isOver_withSolutions (h : e.IsOver parts P) {x : Nat → Array K}
    (hx : ∀ i (hi : i < parts.size), (x i).size = parts[i].variableCount) :
    (e.withSolutions x).IsOver parts P := by
  refine ⟨?_, ?_, h.size_consensus⟩
  · rw [← h.partitions]
    apply Array.ext
    · simp [withSolutions]
    · intro i hi hi'
      simp [withSolutions]
  · intro m hm
    rcases Array.mem_mapIdx.mp hm with ⟨i, hi, rfl⟩
    have hip := h.lt_parts hi
    have hsized := h.sized _ (Array.getElem_mem hi)
    have hpart : e.members[i].partition = parts[i] := by
      simp only [← h.partitions, Array.getElem_map]
    refine ⟨?_, hsized.z, hsized.u, hsized.zPrevious⟩
    show (x i).size = e.members[i].partition.variableCount
    rw [hpart]
    exact hx i hip

theorem isOver_afterSolutions (hfeatures : HaveFeatures P parts) (h : e.IsOver parts P)
    {x : Nat → Nat → Array K}
    (hx : ∀ k i (hi : i < parts.size), (x k i).size = parts[i].variableCount) (k : Nat) :
    (e.afterSolutions x k).IsOver parts P := by
  induction k with
  | zero => exact isOver_reset h
  | succ k ih => exact isOver_project hfeatures (isOver_withSolutions ih (hx k))

/-!
## The cone
-/

/-- Vectors for all partitions. The local entries are not negative, and the shared parts are one
vector with weights that are not negative. -/
structure InCone (P : Problem K) (parts : Array (Partition K)) (w : Array (Array K)) : Prop where
  size_eq : w.size = parts.size
  sized : ∀ i (hi : i < parts.size), (w.getD i #[]).size = parts[i].variableCount
  local_nonneg : ∀ i (hi : i < parts.size), ∀ v < parts[i].sharedOffset,
    0 ≤ (w.getD i #[]).getD v 0
  shared : ∃ c : Array K, c.size = P.features + 1 ∧ (∀ k < P.features, 0 ≤ c.getD (1 + k) 0) ∧
    ∀ i (hi : i < parts.size), ∀ k < P.features + 1,
      (w.getD i #[]).getD (parts[i].sharedOffset + k) 0 = c.getD k 0

def projections (e : Ensemble K) : Array (Array K) :=
  e.members.map (·.state.z)

def squaredDistanceTo (e : Ensemble K) (w : Array (Array K)) : K :=
  ∑ i ∈ range e.members.size, ∑ v ∈ range (e.member i).partition.variableCount,
    ((w.getD i #[]).getD v 0 -
      ((e.member i).state.x.getD v 0 + (e.member i).state.u.getD v 0)) ^ 2

omit [ExactScalar K] in
theorem getD_projections (h : e.IsOver parts P) {i : Nat} (hi : i < parts.size) :
    e.projections.getD i #[] = (e.member i).state.z :=
  getD_map _ _ Member.empty _ (h.lt_size hi)

theorem IsBalanced.inCone (hbalanced : e.IsBalanced P) (h : e.IsOver parts P) :
    InCone P parts e.projections := by
  have hsize := h.size_members
  refine ⟨?_, ?_, ?_, e.consensus, h.size_consensus, hbalanced.weight_nonneg, ?_⟩
  · show (e.members.map _).size = _
    rw [Array.size_map, hsize]
  · intro i hi
    rw [getD_projections h hi, (h.isSized hi).z, h.partition_eq hi]
  · intro i hi v hv
    rw [getD_projections h hi]
    exact hbalanced.local_nonneg i (by omega) v (by rw [h.partition_eq hi]; exact hv)
  · intro i hi k hk
    rw [getD_projections h hi, ← h.partition_eq hi]
    exact hbalanced.shared i (by omega) k hk

def atRest (parts : Array (Partition K)) (w : Array (Array K)) (consensus : Array K) :
    Ensemble K :=
  ⟨parts.mapIdx fun i p =>
    ⟨p, { p.initialState with z := w.getD i #[] }⟩, consensus⟩

theorem member_atRest (w : Array (Array K)) (c : Array K) {i : Nat} (hi : i < parts.size) :
    (atRest parts w c).member i =
      ⟨parts[i], { parts[i].initialState with z := w.getD i #[] }⟩ := by
  unfold member atRest
  rw [getD_of_lt _ _ (by simpa using hi)]
  exact Array.getElem_mapIdx _

theorem isOver_atRest {w : Array (Array K)} (hw : InCone P parts w) {c : Array K}
    (hc : c.size = P.features + 1) : (atRest parts w c).IsOver parts P := by
  refine ⟨?_, ?_, hc⟩
  · apply Array.ext
    · simp [atRest]
    · intro i hi hi'
      simp [atRest]
  · intro m hm
    rcases Array.mem_mapIdx.mp hm with ⟨i, hi, rfl⟩
    have hzero : (zeros parts[i].variableCount : Array K).size = parts[i].variableCount :=
      size_zeros _
    exact ⟨hzero, hw.sized i hi, hzero, hzero⟩

/-- The points of the cone are the projections that need no multipliers. -/
theorem InCone.exists_isBalanced {w : Array (Array K)} (hw : InCone P parts w) :
    ∃ c, (atRest parts w c).IsOver parts P ∧ (atRest parts w c).IsBalanced P := by
  rcases hw.shared with ⟨c, hc, hweights, hshared⟩
  have hsize : (atRest parts w c).members.size = parts.size := Array.size_mapIdx
  have hu : ∀ i < parts.size, ∀ v, ((atRest parts w c).member i).state.u.getD v 0 = 0 := by
    intro i hi v
    rw [member_atRest w c hi]
    exact getD_zeros _ v
  have hmultiplier : ∀ k, (atRest parts w c).sharedMultiplier k = 0 := by
    intro k
    apply sum_eq_zero
    intro i hi
    exact hu i (hsize ▸ mem_range.mp hi) _
  refine ⟨c, isOver_atRest hw hc, ?_, ?_, ?_, ?_, hmultiplier 0, hweights, ?_, ?_⟩
  · intro i hi k hk
    rw [hsize] at hi
    rw [member_atRest w c hi]
    exact hshared i hi k hk
  · intro i hi v hv
    rw [hsize] at hi
    rw [member_atRest w c hi] at hv ⊢
    exact hw.local_nonneg i hi v hv
  · intro i hi v _
    exact (hu i (hsize ▸ hi) v).le
  · intro i hi v _
    rw [hu i (hsize ▸ hi) v, mul_zero]
  · intro k _
    exact (hmultiplier (1 + k)).le
  · intro k _
    rw [hmultiplier, mul_zero]

/-!
## The nearest point
-/

section Nearest

variable (hfeatures : HaveFeatures P parts) (h : e.IsOver parts P) {w : Array (Array K)}

include hfeatures h

theorem squaredDistanceTo_eq : e.squaredDistanceTo w =
    e.squaredDistanceTo e.project.projections +
      ∑ i ∈ range parts.size, ∑ v ∈ range (e.member i).partition.variableCount,
        ((w.getD i #[]).getD v 0 - (e.project.member i).state.z.getD v 0) ^ 2 +
      2 * ∑ i ∈ range parts.size, ∑ v ∈ range (e.member i).partition.variableCount,
        (e.project.member i).state.u.getD v 0 *
          ((e.project.member i).state.z.getD v 0 - (w.getD i #[]).getD v 0) := by
  have hover := isOver_project hfeatures h
  unfold squaredDistanceTo
  rw [h.size_members, mul_sum, ← sum_add_distrib, ← sum_add_distrib]
  apply sum_congr rfl
  intro i hi
  have hip := mem_range.mp hi
  rw [mul_sum, ← sum_add_distrib, ← sum_add_distrib, getD_projections hover hip]
  apply sum_congr rfl
  intro v _
  rw [project_multiplier hfeatures h hip v]
  ring

theorem sum_multiplier_nonneg (hparts : 0 < parts.size) (hw : InCone P parts w) :
    0 ≤ ∑ i ∈ range parts.size, ∑ v ∈ range (e.member i).partition.variableCount,
      (e.project.member i).state.u.getD v 0 *
        ((e.project.member i).state.z.getD v 0 - (w.getD i #[]).getD v 0) := by
  rcases hw.exists_isBalanced with ⟨c, hover, hbalanced⟩
  have hmonotone := IsBalanced.monotone hfeatures (isOver_project hfeatures h) hover
    (isBalanced_project hfeatures h hparts) hbalanced
  refine hmonotone.trans_eq (sum_congr rfl ?_)
  intro i hi
  have hip := mem_range.mp hi
  rw [member_atRest w c hip, member_project e (h.lt_size hip)]
  apply sum_congr rfl
  intro v _
  show (_ - (zeros parts[i].variableCount : Array K).getD v 0) * _ = _
  rw [getD_zeros, sub_zero]

theorem squaredDistanceTo_lt (hparts : 0 < parts.size) (hw : InCone P parts w)
    (hne : w ≠ e.project.projections) :
    e.squaredDistanceTo e.project.projections < e.squaredDistanceTo w := by
  have hover := isOver_project hfeatures h
  have hmultiplier := sum_multiplier_nonneg hfeatures h hparts hw
  have hinside : ∀ i ∈ range parts.size,
      0 ≤ ∑ v ∈ range (e.member i).partition.variableCount,
        ((w.getD i #[]).getD v 0 - (e.project.member i).state.z.getD v 0) ^ 2 :=
    fun i _ => sum_nonneg fun v _ => sq_nonneg _
  rw [squaredDistanceTo_eq hfeatures h (w := w)]
  rcases (sum_nonneg hinside).eq_or_lt with hzero | hpos
  · refine absurd ?_ hne
    have hzero := (sum_eq_zero_iff_of_nonneg hinside).mp hzero.symm
    have hsize : e.project.projections.size = parts.size := by
      show (e.project.members.map _).size = _
      rw [Array.size_map, hover.size_members]
    apply ext_getD #[] (hw.size_eq.trans hsize.symm)
    intro i hi
    have hip : i < parts.size := hw.size_eq ▸ hi
    rw [getD_projections hover hip]
    have hz := (hover.isSized hip).z
    rw [hover.partition_eq hip] at hz
    have hsame := hzero i (mem_range.mpr hip)
    rw [h.partition_eq hip, ← hw.sized i hip] at hsame
    exact eq_of_sum_sq_sub ((hw.sized i hip).trans hz.symm) hsame
  · linarith

end Nearest

/-- After every iteration from a reset, whatever the local solutions, the projections and the
multipliers fit together, and the projections are the only nearest point of the cone. The answers of
the partitions are such local solutions. -/
theorem projections_nearest (hfeatures : HaveFeatures P parts) (hparts : 0 < parts.size)
    (h : e.IsOver parts P) {x : Nat → Nat → Array K}
    (hx : ∀ k i (hi : i < parts.size), (x k i).size = parts[i].variableCount) (k : Nat) :
    (e.afterSolutions x (k + 1)).IsBalanced P ∧
      (∀ j < P.features, 0 < (e.afterSolutions x (k + 1)).consensus.getD (1 + j) 0 →
        (e.afterSolutions x (k + 1)).sharedMultiplier (1 + j) = 0) ∧
      InCone P parts (e.afterSolutions x (k + 1)).projections ∧
      (∀ w, InCone P parts w → w ≠ (e.afterSolutions x (k + 1)).projections →
        ((e.afterSolutions x k).withSolutions (x k)).squaredDistanceTo
            (e.afterSolutions x (k + 1)).projections <
          ((e.afterSolutions x k).withSolutions (x k)).squaredDistanceTo w) ∧
      ∀ rho, ∃ answers : Nat → Nat → Array K,
        ∀ n, (fun f : Ensemble K => f.advance rho)^[n] e.reset = e.afterSolutions answers n := by
  have hover : ((e.afterSolutions x k).withSolutions (x k)).IsOver parts P :=
    isOver_withSolutions (isOver_afterSolutions hfeatures h hx k) (hx k)
  have hbalanced : (e.afterSolutions x (k + 1)).IsBalanced P :=
    isBalanced_project hfeatures hover hparts
  refine ⟨hbalanced, ?_, hbalanced.inCone (isOver_project hfeatures hover), ?_,
    e.exists_afterSolutions_eq⟩
  · intro j hj hpos
    exact (mul_eq_zero.mp (hbalanced.weight_mul j hj)).resolve_left hpos.ne'
  · intro w hw hne
    exact squaredDistanceTo_lt hfeatures hover hparts hw hne

def twoPoints : Problem ℚ :=
  ⟨⟨1, 2, #[1, -1]⟩, 1⟩

/-- A partition of one of the points, whose system is never solved. -/
def onePoint (c : Nat) : Partition ℚ :=
  ⟨#[c], 1, #[2, 0, -1, 0], fun b => (true, b)⟩

/-- The two local solutions disagree on the weight. -/
theorem projections_nearest_twoPoints :
    ((start #[onePoint 0, onePoint 1] 1).afterSolutions
      (fun _ i => if i = 0 then #[1, -1, 2, 3] else #[-1, 1, 0, -5]) 2).IsBalanced twoPoints ∧
    ((start #[onePoint 0, onePoint 1] 1).afterSolutions
      (fun _ i => if i = 0 then #[1, -1, 2, 3] else #[-1, 1, 0, -5]) 2).projections =
        #[#[1, 0, 1, 0], #[0, 1, 1, 0]] := by
  refine ⟨(projections_nearest (P := twoPoints) ?_ (by decide) (isOver_start twoPoints _) ?_
    1).left, by decide +kernel⟩
  · intro p hp
    simp only [List.mem_toArray, List.mem_cons, List.not_mem_nil, or_false] at hp
    rcases hp with rfl | rfl
    · rfl
    · rfl
  · intro k i hi
    match i, hi with
    | 0, _ => rfl
    | 1, _ => rfl

end Ensemble
end SoftMargin
