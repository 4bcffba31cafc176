import SoftMargin.Proofs.Partition.Advance
import SoftMargin.Proofs.Partition.Points
import SoftMargin.Proofs.Program.Objective
import SoftMargin.Proofs.Solver.Building

/-!
# The relaxed objective

The costs of a partition are scaled by the number of points of the program for
the slacks, and by the number of its own points for the threshold. Divided by
the number of all points, their sum is the objective of the program with the
slacks of the local solutions, and with the mean of the local thresholds, each
counted as often as there are points in its partition.
-/

namespace SoftMargin

open Scalar Finset

variable {K : Type} [ExactScalar K] {rule : Ldl.OrderingRule K} {draws : Random.Generator}
  {P : Problem K} {settings : Settings K} {parts : Array (Partition K)}

/-!
## The partitions that are built
-/

namespace Partition

theorem map_columns_eq {groups : List (Array Nat)} {ps : List (Partition K)}
    (h : List.Forall₂ (fun columns p => newBy rule P settings columns = .ok p) groups ps) :
    ps.map (·.columns) = groups := by
  induction h with
  | nil => rfl
  | cons hnew _ ih => rw [List.map_cons, ih, columns_of_newBy hnew]

theorem buildAllBy_eq_ok (h : buildAllBy rule draws P settings = .ok parts) :
    (∀ p ∈ parts, p.IsPart P) ∧ parts.toList.map (·.columns) =
      (Random.seededGroups draws P.points settings.partitions.toNat settings.seed).toList := by
  unfold buildAllBy buildEach at h
  dsimp only at h
  by_cases hcount : P.points < settings.partitions.toNat
  · rw [if_pos hcount] at h
    cases h
  · rw [if_neg hcount] at h
    rcases Ldl.bind_eq_ok.mp h with ⟨ps, hps, heq⟩
    cases heq
    refine ⟨fun p hp => ?_, map_columns_eq (buildGroups_eq_ok hps)⟩
    rcases exists_of_mem_buildGroups hps p (List.mem_toArray.mp hp) with ⟨columns, hgroup, hnew⟩
    exact isPart_of_newBy hnew fun c hc =>
      Random.lt_of_mem_groups _ _ (Array.mem_toList_iff.mp hgroup) hc

theorem columns_perm_of_buildAllBy (h : buildAllBy rule draws P settings = .ok parts)
    (hcount : 0 < settings.partitions.toNat) :
    (parts.toList.flatMap fun p => p.columns.toList).Perm (List.range P.points) := by
  have hgroups := Random.flatMap_groups_perm draws.below (draws.ofSeed settings.seed) P.points
    hcount
  have hcolumns := (buildAllBy_eq_ok h).right
  unfold Random.seededGroups at hcolumns
  rwa [← hcolumns, List.flatMap_map] at hgroups

end Partition

/-!
## The sum of the costs
-/

namespace Ensemble

variable {e : Ensemble K}

def slackAt (e : Ensemble K) (i j : Nat) : K :=
  (e.member i).state.x.getD j 0

def thresholdAt (e : Ensemble K) (i : Nat) : K :=
  (e.member i).state.x.getD (e.member i).partition.sharedOffset 0

def slackSum (e : Ensemble K) : K :=
  ∑ i ∈ range e.members.size, ∑ j ∈ range (e.pointCount i), e.slackAt i j

theorem IsOver.objective_sums_eq (h : e.IsOver parts P) (hparts : ∀ p ∈ parts, p.IsPart P)
    (rho : K) : (e.sums rho).objective = (P.points : K) * P.bound * e.slackSum -
      ∑ i ∈ range parts.size, (e.pointCount i : K) * e.thresholdAt i := by
  have hpart : ∀ i ∈ range parts.size,
      ∑ v ∈ range (e.member i).partition.variableCount,
        (e.member i).partition.costs.getD v 0 * (e.member i).state.x.getD v 0 =
      (P.points : K) * P.bound * ∑ j ∈ range (e.pointCount i), e.slackAt i j -
        (e.pointCount i : K) * e.thresholdAt i := fun i hi =>
    (h.isPart hparts (mem_range.mp hi)).sum_costs fun v => (e.member i).state.x.getD v 0
  rw [objective_sums h hparts]
  unfold total slackSum
  rw [h.size_members, sum_congr rfl hpart, sum_sub_distrib, ← mul_sum]

theorem IsOver.objective_eq (h : e.IsOver parts P) (hP : P.IsProper)
    (hparts : ∀ p ∈ parts, p.IsPart P) (rho tol reltol : K) :
    (Residuals.ofSums (e.sums rho) P.points P.features rho tol reltol).objective =
      P.bound * e.slackSum -
        ∑ i ∈ range parts.size, (e.pointCount i : K) / (P.points : K) * e.thresholdAt i := by
  have hn : (P.points : K) ≠ 0 := hP.points_cast_pos.ne'
  have hshare : ∀ i ∈ range parts.size, (e.pointCount i : K) / (P.points : K) * e.thresholdAt i =
      (e.pointCount i : K) * e.thresholdAt i / (P.points : K) := fun i _ =>
    div_mul_eq_mul_div _ _ _
  change (e.sums rho).objective / (P.points : K) = _
  rw [h.objective_sums_eq hparts, sum_congr rfl hshare, ← sum_div, sub_div, mul_assoc,
    mul_div_cancel_left₀ _ hn]

theorem IsOver.sum_share (h : e.IsOver parts P) (hP : P.IsProper)
    (hcolumns : (parts.toList.flatMap fun p => p.columns.toList).Perm (List.range P.points)) :
    ∑ i ∈ range parts.size, (e.pointCount i : K) / (P.points : K) = 1 := by
  rw [← sum_div, h.sum_pointCount hcolumns, div_self hP.points_cast_pos.ne']

/-!
## The objective of the program
-/

/-- Whatever the local solutions of the partitions that are built: the objective that is reported is
the one with all their slacks, less the mean of their thresholds, weighted with the numbers of
points. Where they agree on the threshold, it is the objective with that and the slacks, and where
their slacks are also those of common weights, it is the objective of the program. -/
theorem relaxed_objective {data : Matrix K} {bound : K} (hnew : Problem.new data bound = .ok P)
    (hcount : 0 < settings.partitions.toNat)
    (hparts : Partition.buildAllBy rule draws P settings = .ok parts) (h : e.IsOver parts P)
    (rho tol reltol : K) :
    let objective := (Residuals.ofSums (e.sums rho) P.points P.features rho tol reltol).objective
    objective = P.bound * e.slackSum -
        ∑ i ∈ range parts.size, (e.pointCount i : K) / (P.points : K) * e.thresholdAt i ∧
      ∀ t : K, (∀ i < parts.size, e.thresholdAt i = t) →
        objective = -t + P.bound * e.slackSum ∧
          ∀ a : Array K, a.size = P.features →
            (∀ i < parts.size, ∀ j < e.pointCount i,
              e.slackAt i j = max (t - ∑ k ∈ range P.features,
                P.data.entry k (e.point i j) * a.getD k 0) 0) →
            P.evaluate? t a = some (P.margins a, objective) := by
  intro objective
  have hP := Problem.new_eq_ok hnew
  have hcolumns := Partition.columns_perm_of_buildAllBy hparts hcount
  have hmean : objective = P.bound * e.slackSum -
      ∑ i ∈ range parts.size, (e.pointCount i : K) / (P.points : K) * e.thresholdAt i :=
    h.objective_eq hP (Partition.buildAllBy_eq_ok hparts).left rho tol reltol
  refine ⟨hmean, fun t ht => ?_⟩
  have hcommon : objective = -t + P.bound * e.slackSum := by
    rw [hmean, sum_congr rfl fun i hi => by rw [ht i (mem_range.mp hi)], ← sum_mul,
      h.sum_share hP hcolumns]
    ring
  refine ⟨hcommon, fun a ha hslack => ?_⟩
  -- every point stands at one place of one partition, so the slacks are those of the points
  have hsum : e.slackSum = ∑ c ∈ range P.points,
      max (t - ∑ k ∈ range P.features, P.data.entry k c * a.getD k 0) 0 := by
    unfold slackSum
    rw [h.size_members, ← h.sum_points hcolumns fun c =>
      max (t - ∑ k ∈ range P.features, P.data.entry k c * a.getD k 0) 0]
    exact sum_congr rfl fun i hi => sum_congr rfl fun j hj =>
      hslack i (mem_range.mp hi) j (mem_range.mp hj)
  rw [Problem.evaluate?_eq hP.complete t ha, hcommon, hsum]

/-- A local solution of a partition of `threePoints`, with the threshold one, and the slacks that
the weights one half each leave. -/
def halfWeightsState (p : Partition ℚ) : LocalState ℚ where
  x := p.shape.arrange
    (fun j => max (1 - ∑ k ∈ range 2, threePoints.data.entry k (p.columns.getD j 0) *
      #[1 / 2, 1 / 2].getD k 0) 0) (fun _ => 0) 1 (fun _ => 0)
  z := zeros p.variableCount
  u := zeros p.variableCount
  zPrevious := zeros p.variableCount

theorem relaxed_objective_threePoints :
    let settings : Settings ℚ := { Settings.default with partitions := 2 }
    ∃ (parts : Array (Partition ℚ)) (e : Ensemble ℚ),
      Partition.buildAllBy Ldl.naturalOrder Random.Xoshiro.generator threePoints settings =
        .ok parts ∧
      e.IsOver parts threePoints ∧ (∀ i < parts.size, e.thresholdAt i = 1) ∧
      threePoints.evaluate? 1 #[1 / 2, 1 / 2] = some (#[1 / 2, 1 / 2, 1],
        (Residuals.ofSums (e.sums 1) 3 2 1 0 0).objective) := by
  intro settings
  have hbuilt : ∃ parts, Partition.buildAllBy Ldl.naturalOrder Random.Xoshiro.generator threePoints
      settings = .ok parts :=
    Partition.exists_buildAllBy Kkt.orders_naturalOrder _
      (Problem.new_eq_ok threePoints_new).complete (by decide)
  rcases hbuilt with ⟨parts, hparts⟩
  let e : Ensemble ℚ := ⟨parts.map fun p => ⟨p, halfWeightsState p⟩, zeros 3⟩
  have hover : e.IsOver parts threePoints := by
    refine ⟨?_, ?_, size_zeros 3⟩
    · simp only [e, Array.map_map, Function.comp_def, Array.map_id']
    · intro m hm
      rcases Array.mem_map.mp hm with ⟨p, _, rfl⟩
      exact ⟨Kkt.Shape.size_arrange .., size_zeros _, size_zeros _, size_zeros _⟩
  have hmember : ∀ i < parts.size,
      (e.member i).state = halfWeightsState (e.member i).partition := by
    intro i hi
    rw [hover.partition_eq hi]
    unfold member
    rw [getD_of_lt _ _ (hover.lt_size hi)]
    simp only [e, Array.getElem_map]
  have hthreshold : ∀ i < parts.size, e.thresholdAt i = 1 := by
    intro i hi
    unfold thresholdAt
    rw [hmember i hi]
    exact Kkt.Shape.getD_arrange_threshold ..
  have hslack : ∀ i < parts.size, ∀ j < e.pointCount i,
      e.slackAt i j = max (1 - ∑ k ∈ range threePoints.features,
        threePoints.data.entry k (e.point i j) * #[1 / 2, 1 / 2].getD k 0) 0 := by
    intro i hi j hj
    unfold slackAt
    rw [hmember i hi]
    exact Kkt.Shape.getD_arrange_slack _ _ _ _ _ hj
  have hall := relaxed_objective threePoints_new (by decide) hparts hover 1 0 0
  have hmargins : threePoints.margins #[1 / 2, 1 / 2] = #[1 / 2, 1 / 2, 1] := by decide +kernel
  rw [← hmargins]
  exact ⟨parts, e, hparts, hover, hthreshold, (hall.right 1 hthreshold).right _ rfl hslack⟩

end Ensemble
end SoftMargin
