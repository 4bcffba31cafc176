import SoftMargin.Proofs.Exact.Simplex

/-!
# The nearest point of the unit simplex

The common shift takes the same from every entry that it leaves positive, and at
most that from an entry that is clipped. So what is taken from a vector points
away from the simplex, and every other point of the simplex is farther from the
vector than its projection.
-/

namespace SoftMargin
namespace UnitSimplex

open Scalar Finset

variable {K : Type} [ExactScalar K]

/-- The one point of the simplex that no other point of it is as near to `v` as. -/
structure IsNearest (v p : Array K) : Prop where
  isPoint : IsPoint v.size p
  lt : ∀ y, IsPoint v.size y → y ≠ p → squaredDistance v p < squaredDistance v y

theorem IsNearest.le {v p y : Array K} (h : IsNearest v p) (hy : IsPoint v.size y) :
    squaredDistance v p ≤ squaredDistance v y := by
  by_cases heq : y = p
  · rw [heq]
  · exact (h.lt y hy heq).le

/-!
## What the projection takes
-/

/-- Away from the shift itself, an entry of the vector is only moved up to zero. -/
theorem taken_mul_nonpos (shift x : K) {y : K} (hy : 0 ≤ y) :
    (x - max (x - shift) 0 - shift) * (y - max (x - shift) 0) ≤ 0 := by
  rcases le_total x shift with hclipped | hkept
  · rw [max_eq_right (sub_nonpos.mpr hclipped), sub_zero, sub_zero]
    exact mul_nonpos_of_nonpos_of_nonneg (sub_nonpos.mpr hclipped) hy
  · rw [max_eq_left (sub_nonneg.mpr hkept), sub_sub_cancel, sub_self, zero_mul]

theorem sum_taken_mul_nonpos {v y : Array K} (hv : 0 < v.size) (hy : IsPoint v.size y) :
    ∑ k ∈ range v.size, (v.getD k 0 - (nearest v).getD k 0) *
      (y.getD k 0 - (nearest v).getD k 0) ≤ 0 := by
  have hentries : ∑ k ∈ range v.size,
      (v.getD k 0 - (nearest v).getD k 0 - commonShift v) *
        (y.getD k 0 - (nearest v).getD k 0) ≤ 0 := by
    apply sum_nonpos
    intro k hk
    rw [getD_nearest (mem_range.mp hk)]
    exact taken_mul_nonpos _ _ (hy.nonneg k (mem_range.mp hk))
  -- both points have one sum, so the common shift takes the same towards either
  have hshift : ∑ k ∈ range v.size,
      commonShift v * (y.getD k 0 - (nearest v).getD k 0) = 0 := by
    rw [← mul_sum, sum_sub_distrib, hy.sum_eq, (isPoint_nearest hv).sum_eq, sub_self, mul_zero]
  calc ∑ k ∈ range v.size, (v.getD k 0 - (nearest v).getD k 0) *
        (y.getD k 0 - (nearest v).getD k 0)
      = ∑ k ∈ range v.size, (v.getD k 0 - (nearest v).getD k 0 - commonShift v) *
          (y.getD k 0 - (nearest v).getD k 0) +
        ∑ k ∈ range v.size, commonShift v * (y.getD k 0 - (nearest v).getD k 0) := by
        rw [← sum_add_distrib]
        apply sum_congr rfl
        intro k _
        ring
    _ ≤ 0 := by
        rw [hshift, add_zero]
        exact hentries

/-!
## Distances
-/

theorem squaredDistance_nonneg (x : Array K) {y : Array K} (hsize : y.size = x.size) :
    0 ≤ squaredDistance x y := by
  rw [squaredDistance_eq_sum x y rfl hsize]
  exact sum_nonneg fun k _ => sq_nonneg _

theorem eq_of_squaredDistance {x y : Array K} (hsize : y.size = x.size)
    (h : squaredDistance x y ≤ 0) : x = y := by
  rw [squaredDistance_eq_sum x y rfl hsize] at h
  exact eq_of_sum_sq_sub hsize.symm (le_antisymm h (sum_nonneg fun k _ => sq_nonneg _))

/-- The way to a point of the simplex over the projection is no detour. -/
theorem squaredDistance_nearest_add_le {v y : Array K} (hv : 0 < v.size)
    (hy : IsPoint v.size y) :
    squaredDistance v (nearest v) + squaredDistance (nearest v) y ≤ squaredDistance v y := by
  have hsize : (nearest v).size = v.size := (isPoint_nearest hv).size_eq
  have htaken := sum_taken_mul_nonpos hv hy
  have hexpand : squaredDistance v y =
      squaredDistance v (nearest v) + squaredDistance (nearest v) y -
        2 * ∑ k ∈ range v.size, (v.getD k 0 - (nearest v).getD k 0) *
          (y.getD k 0 - (nearest v).getD k 0) := by
    rw [squaredDistance_eq_sum v y rfl hy.size_eq, squaredDistance_eq_sum v _ rfl hsize,
      squaredDistance_eq_sum _ y hsize hy.size_eq, mul_sum, ← sum_add_distrib,
      ← sum_sub_distrib]
    apply sum_congr rfl
    intro k _
    ring
  rw [hexpand]
  linarith

theorem isNearest_nearest {v : Array K} (hv : 0 < v.size) : IsNearest v (nearest v) := by
  refine ⟨isPoint_nearest hv, ?_⟩
  intro y hy hne
  have hsize : y.size = (nearest v).size := hy.size_eq.trans (isPoint_nearest hv).size_eq.symm
  have hapart : 0 < squaredDistance (nearest v) y :=
    not_le.mp fun hle => hne (eq_of_squaredDistance hsize hle).symm
  have hway := squaredDistance_nearest_add_le hv hy
  linarith

/-!
## Vectors that are left alone
-/

theorem isPoint_of_defect_eq_zero {a : Array K} (h : defect a = 0) : IsPoint a.size a := by
  rw [defect_eq_sum rfl, magnitude_eq_abs] at h
  have hbelow : ∀ k ∈ range a.size, 0 ≤ max (-a.getD k 0) 0 := fun k _ => le_max_right _ _
  have hboth := (add_eq_zero_iff_of_nonneg (abs_nonneg _) (sum_nonneg hbelow)).mp h
  refine ⟨rfl, ?_, ?_⟩
  · intro k hk
    have hzero := (sum_eq_zero_iff_of_nonneg hbelow).mp hboth.right k (mem_range.mpr hk)
    exact neg_nonpos.mp (max_eq_right_iff.mp hzero)
  · exact (sub_eq_zero.mp (abs_eq_zero.mp hboth.left)).symm

theorem defect_eq_zero_iff {a : Array K} : defect a = 0 ↔ IsPoint a.size a :=
  ⟨isPoint_of_defect_eq_zero, fun h => h.defect_eq_zero⟩

theorem nearest_eq_self_iff {v : Array K} (hv : 0 < v.size) :
    nearest v = v ↔ IsPoint v.size v := by
  constructor
  · intro heq
    have hpoint := isPoint_nearest hv
    rwa [heq] at hpoint
  · intro hpoint
    have hway := squaredDistance_nearest_add_le hv hpoint
    have hself : squaredDistance v v = 0 := by
      rw [squaredDistance_eq_sum v v rfl rfl]
      exact sum_eq_zero fun k _ => by rw [sub_self, zero_pow two_ne_zero]
    have hback := squaredDistance_nonneg (nearest v) (y := v) (isPoint_nearest hv).size_eq.symm
    rw [hself] at hway
    exact (eq_of_squaredDistance (isPoint_nearest hv).size_eq (by linarith)).symm

/-- The projection is the one nearest point of the simplex, by distance as well as by its square,
and leaves exactly the vectors alone that have no distance from the simplex. -/
theorem nearest_unique {v : Array K} (hv : 0 < v.size) :
    IsNearest v (nearest v) ∧
      ((∀ a b : K, 0 ≤ a → a ≤ b → sqrt a ≤ sqrt b) →
        ∀ y, IsPoint v.size y → distance v (nearest v) ≤ distance v y) ∧
      (nearest v = v ↔ defect v = 0) := by
  have hnearest := isNearest_nearest hv
  refine ⟨hnearest, ?_, (nearest_eq_self_iff hv).trans defect_eq_zero_iff.symm⟩
  intro hsqrt y hy
  exact hsqrt _ _ (squaredDistance_nonneg v hnearest.isPoint.size_eq) (hnearest.le hy)

theorem nearest_unique_threeEntries : 0 < (#[-1, 1 / 2, 7 / 10] : Array ℚ).size ∧
    IsNearest (#[-1, 1 / 2, 7 / 10] : Array ℚ) #[0, 2 / 5, 3 / 5] ∧
    defect (#[-1, 1 / 2, 7 / 10] : Array ℚ) = 9 / 5 := by
  have hnearest : nearest (#[-1, 1 / 2, 7 / 10] : Array ℚ) = #[0, 2 / 5, 3 / 5] := by
    decide +kernel
  have hunique := nearest_unique (v := (#[-1, 1 / 2, 7 / 10] : Array ℚ)) (by decide)
  rw [hnearest] at hunique
  exact ⟨by decide, hunique.left, by decide +kernel⟩

end UnitSimplex
end SoftMargin
