import SoftMargin.Proofs.LineSearch.Refine
import SoftMargin.Proofs.Program.Objective

/-!
# The objective on a segment

Along the segment between two points the threshold and the margin of every point
of the data move at constant rates, so the objective is convex there.
-/

namespace SoftMargin
namespace LineSearch

open Scalar Finset

variable {K : Type} [ExactScalar K] {P : Problem K}

theorem getD_between {first last : Array K} (hsize : first.size = last.size) (t : K) (k : Nat) :
    (between first last t).getD k 0 =
      first.getD k 0 + (last.getD k 0 - first.getD k 0) * t := by
  unfold between
  rw [getD_combine _ _ hsize]
  ring

theorem getD_margins_weights (hP : P.data.Complete) {v : Array K}
    (hv : v.size = P.features + 1) {j : Nat} (hj : j < P.points) :
    (P.margins (v.extract 1 v.size)).getD j 0 =
      ∑ r ∈ range P.features, P.data.entry r j * v.getD (1 + r) 0 := by
  have hsize : (v.extract 1 v.size).size = P.features := by
    rw [Array.size_extract, hv, min_self, Nat.add_sub_cancel]
  rw [Problem.getD_margins hP hsize hj]
  apply sum_congr rfl
  intro r hr
  have hr := mem_range.mp hr
  rw [getD_extract v 0 (by omega)]

theorem convexOn_objectiveAt_between (hP : P.data.Complete) (hbound : 0 ≤ P.bound)
    {first last : Array K} (hfirst : first.size = P.features + 1)
    (hlast : last.size = P.features + 1) :
    ConvexOn K Set.univ fun t => objectiveAt P (between first last t) := by
  have hsize := hfirst.trans hlast.symm
  let margin (v : Array K) (j : Nat) : K :=
    ∑ r ∈ range P.features, P.data.entry r j * v.getD (1 + r) 0
  have hmargin : ∀ t, ∀ j < P.points,
      (P.margins ((between first last t).extract 1 (between first last t).size)).getD j 0 =
        margin first j + (margin last j - margin first j) * t := by
    intro t j hj
    have hbetween : (between first last t).size = P.features + 1 := by
      unfold between
      rw [size_combine, hfirst, hlast, min_self]
    rw [getD_margins_weights hP hbetween hj]
    simp only [margin, sub_mul, sum_mul, ← sum_sub_distrib, ← sum_add_distrib]
    apply sum_congr rfl
    intro r _
    rw [getD_between hsize]
    ring
  have hline : (fun t => objectiveAt P (between first last t)) = fun t =>
      -first.getD 0 0 + -(last.getD 0 0 - first.getD 0 0) * t +
        P.bound * ∑ j ∈ range P.points, max (first.getD 0 0 - margin first j +
          (last.getD 0 0 - first.getD 0 0 - (margin last j - margin first j)) * t) 0 := by
    funext t
    unfold objectiveAt Problem.objective
    rw [objectiveFromMargins_eq, Problem.size_margins, getD_between hsize]
    congr 1
    · ring
    · congr 1
      apply sum_congr rfl
      intro j hj
      rw [hmargin t j (mem_range.mp hj)]
      congr 1
      ring
  rw [hline]
  exact convexOn_line_add_sum hbound _ _ _ _ _

end LineSearch
end SoftMargin
