import Mathlib.Analysis.Convex.Function
import SoftMargin.Proofs.Exact.Matrix
import SoftMargin.Problem

/-!
# The objective along a line

The objective is minus the threshold and the bound times a sum of positive parts.
Where threshold and margins move at constant rates, these are positive parts of
lines, so the objective is convex.
-/

namespace SoftMargin

open Scalar Finset

variable {K : Type} [ExactScalar K]

/-!
## Margins
-/

namespace Problem

theorem size_margins (P : Problem K) (a : Array K) : (P.margins a).size = P.points :=
  Matrix.size_transposeMulAdd _ _ _ _ (size_zeros _)

theorem getD_margins {P : Problem K} (hP : P.data.Complete) {a : Array K}
    (ha : a.size = P.features) {j : Nat} (hj : j < P.points) :
    (P.margins a).getD j 0 = ∑ r ∈ range P.features, P.data.entry r j * a.getD r 0 := by
  unfold margins Matrix.transposeMul
  rw [Matrix.getD_transposeMulAdd hP _ _ ha (size_zeros _) hj, one_mul, zero_mul, add_zero]
  rfl

end Problem

theorem objectiveFromMargins_eq (bound threshold : K) (margins : Array K) :
    objectiveFromMargins bound threshold margins = -threshold +
      bound * ∑ j ∈ range margins.size, max (threshold - margins.getD j 0) 0 := by
  unfold objectiveFromMargins
  congr 2
  rw [foldl_eq_foldl_range _ margins 0]
  exact foldl_range_induction
    (fun n (total : K) => total = ∑ j ∈ range n, max (threshold - margins.getD j 0) 0)
    _ _ 0 (sum_range_zero _).symm (by
      intro n _ total htotal
      rw [sum_range_succ, ← htotal, pos_eq_max])

theorem Problem.evaluate?_eq {P : Problem K} (hP : P.data.Complete) (threshold : K) {a : Array K}
    (ha : a.size = P.features) : P.evaluate? threshold a = some (P.margins a, -threshold +
      P.bound * ∑ j ∈ range P.points,
        max (threshold - ∑ k ∈ range P.features, P.data.entry k j * a.getD k 0) 0) := by
  have hmargins : P.data.transposeMul? a = some (P.margins a) := if_pos ⟨ha, size_zeros _, hP⟩
  unfold evaluate?
  rw [hmargins]
  simp only [Option.bind_eq_bind, Option.bind_some, Option.pure_def]
  rw [objectiveFromMargins_eq, P.size_margins]
  congr 4
  apply sum_congr rfl
  intro j hj
  rw [getD_margins hP ha (mem_range.mp hj)]

/-!
## Lines and their positive parts
-/

theorem line_combine {a b : K} (hab : a + b = 1) (start rate x y : K) :
    start + rate * (a * x + b * y) = a * (start + rate * x) + b * (start + rate * y) := by
  linear_combination -start * hab

theorem max_line_le {a b : K} (ha : 0 ≤ a) (hb : 0 ≤ b) (hab : a + b = 1) (start rate x y : K) :
    max (start + rate * (a * x + b * y)) 0 ≤
      a * max (start + rate * x) 0 + b * max (start + rate * y) 0 := by
  rw [line_combine hab]
  apply max_le
  · exact add_le_add (mul_le_mul_of_nonneg_left (le_max_left _ _) ha)
      (mul_le_mul_of_nonneg_left (le_max_left _ _) hb)
  · exact add_nonneg (mul_nonneg ha (le_max_right _ _)) (mul_nonneg hb (le_max_right _ _))

theorem convexOn_line_add_sum {bound : K} (hbound : 0 ≤ bound) (n : Nat) (start rate : K)
    (gap gapRate : Nat → K) :
    ConvexOn K Set.univ fun t =>
      start + rate * t + bound * ∑ j ∈ range n, max (gap j + gapRate j * t) 0 := by
  refine ⟨convex_univ, ?_⟩
  intro x _ y _ a b ha hb hab
  have hsum : ∑ j ∈ range n, max (gap j + gapRate j * (a * x + b * y)) 0 ≤
      a * ∑ j ∈ range n, max (gap j + gapRate j * x) 0 +
        b * ∑ j ∈ range n, max (gap j + gapRate j * y) 0 := by
    rw [mul_sum, mul_sum, ← sum_add_distrib]
    exact sum_le_sum fun j _ => max_line_le ha hb hab _ _ _ _
  simp only [smul_eq_mul]
  rw [line_combine hab]
  linear_combination mul_le_mul_of_nonneg_left hsum hbound

theorem convexOn_objectiveFromMargins {bound : K} (hbound : 0 ≤ bound) (margins : Array K) :
    ConvexOn K Set.univ fun threshold => objectiveFromMargins bound threshold margins := by
  have hline : (fun threshold => objectiveFromMargins bound threshold margins) = fun t =>
      0 + -1 * t + bound * ∑ j ∈ range margins.size, max (-margins.getD j 0 + 1 * t) 0 := by
    funext t
    rw [objectiveFromMargins_eq, zero_add, neg_one_mul]
    simp only [one_mul, sub_eq_neg_add]
  rw [hline]
  exact convexOn_line_add_sum hbound _ _ _ _ _

end SoftMargin
