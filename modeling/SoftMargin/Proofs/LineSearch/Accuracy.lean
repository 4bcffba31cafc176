import SoftMargin.Proofs.LineSearch.Bisection
import SoftMargin.Proofs.Partition.Local
import SoftMargin.Proofs.Program.Threshold

/-!
# How good a refined point is

The threshold of a refined point is looked for between the least and the greatest
margin. One of the margins is a best threshold for the weights, so it is not lost.
The bisection ends near a best threshold, and the objective changes no faster than
on its steepest piece.
-/

namespace SoftMargin
namespace LineSearch

open Scalar Bisection

section Exact

variable {K : Type} [ExactScalar K]

theorem refine_snd (P : Problem K) (halvings : Nat) (first last : Array K) :
    let point := (refine P halvings first last).1
    let margins := P.margins (point.extract 1 point.size)
    (refine P halvings first last).2 = objectiveFromMargins P.bound
      (minimizer (fun v => objectiveFromMargins P.bound v margins) halvings (least margins)
        (greatest margins)) margins := by
  unfold refine
  dsimp only
  rw [extract_setThreshold]

/-- A threshold that is least between the margins is a best one, and one near it costs little
more. -/
theorem objectiveFromMargins_sub_best_le {bound : K} {margins : Array K} {lo hi best q v : K}
    (hbound : 0 ≤ bound) (hq : q ∈ minimizers (fun v => objectiveFromMargins bound v margins) lo hi)
    (hmem : best ∈ Set.Icc lo hi) {distance : K} (hnear : |v - q| ≤ distance) :
    objectiveFromMargins bound v margins - objectiveFromMargins bound best margins ≤
      max 1 (bound * (margins.size : K) - 1) * distance := by
  have hleast : objectiveFromMargins bound q margins ≤ objectiveFromMargins bound best margins :=
    hq.2 hmem
  have hslope := objectiveFromMargins_lipschitz hbound v q margins
  have hscaled := mul_le_mul_of_nonneg_left hnear
    (zero_le_one.trans (le_max_left 1 (bound * (margins.size : K) - 1)))
  linarith

end Exact

/-- A refined point has weights on the simplex and is reported with its own objective. One of the
margins is a best threshold for these weights, and the objective exceeds the one there by no more
than the accuracy of the bisection allows on the steepest piece. -/
theorem refine_near_best {eps : ℝ} (heps : 0 < eps) {data : Matrix (RealAt eps)}
    {bound : RealAt eps} {P : Problem (RealAt eps)} (hP : Problem.new data bound = .ok P)
    (hcount : 1 ≤ P.bound * (P.points : RealAt eps)) {first last : Array (RealAt eps)}
    (hfirst : first.size = P.features + 1) (hlast : last.size = P.features + 1)
    (halvings : Nat) :
    let point := (refine P halvings first last).1
    let weights := point.extract 1 point.size
    let margins := P.margins weights
    let best := bestThreshold P.bound margins
    OnSimplex P.features point ∧
      (refine P halvings first last).2 = P.objective (point.getD 0 0) weights ∧
      best ∈ margins ∧
      (least margins ∈ margins ∧ ∀ m ∈ margins, least margins ≤ m) ∧
      (greatest margins ∈ margins ∧ ∀ m ∈ margins, m ≤ greatest margins) ∧
      (∀ threshold, P.objective best weights ≤ P.objective threshold weights) ∧
      (refine P halvings first last).2 - P.objective best weights ≤
        max 1 (P.bound * (P.points : RealAt eps) - 1) *
          accuracy halvings (least margins) (greatest margins) := by
  intro point weights margins best
  have hproper := Problem.new_eq_ok hP
  have hspec := refine_spec P halvings hproper.features_pos hfirst hlast
  have hsize : margins.size = P.points := Problem.size_margins P weights
  have hpos : 0 < margins.size := hsize ▸ hproper.points_pos
  have hceil : ∀ n : Nat, ceilNat (1 / P.bound) ≤ n ↔ 1 / P.bound ≤ (n : RealAt eps) :=
    fun n => RealAt.ceilNat_le_iff _ n
  have hsized : 1 ≤ P.bound * (margins.size : RealAt eps) := by rwa [hsize]
  have hbest : best ∈ margins := bestThreshold_mem hceil hproper.bound_pos hsized
  have hleast := least_spec hpos
  have hgreatest := greatest_spec hpos
  refine ⟨hspec.left, hspec.right, hbest, hleast, hgreatest, ?_, ?_⟩
  · intro threshold
    exact objectiveFromMargins_bestThreshold_le hceil hproper.bound_pos hsized threshold
  · have hconvex := convexOn_objectiveFromMargins hproper.bound_pos.le margins
    rcases exists_near_minimizer heps hconvex halvings (hleast.right _ hgreatest.left) with
      ⟨q, hq, hnear⟩
    rw [refine_snd, ← hsize]
    exact objectiveFromMargins_sub_best_le hproper.bound_pos.le hq.1
      ⟨hleast.right _ hbest, hgreatest.right _ hbest⟩ hnear

/-- Three points whose margins are all two in the middle of the simplex. -/
noncomputable def mirroredRows : Problem (RealAt 1e-16) :=
  ⟨⟨2, 3, #[1.0, 3.0, 2.0, 2.0, 3.0, 1.0]⟩, 0.5⟩

/-- The bound is half, so the second smallest margin is best. -/
theorem refine_near_best_mirroredRows :
    let found := refine mirroredRows 60 #[2.0, 0.9, 0.1] #[2.0, 0.1, 0.9]
    let margins := mirroredRows.margins (found.1.extract 1 found.1.size)
    1 ≤ mirroredRows.bound * (mirroredRows.points : RealAt 1e-16) ∧
      OnSimplex 2 found.1 ∧
      found.2 - objectiveFromMargins 0.5 (bestThreshold 0.5 margins) margins ≤
        accuracy 60 (least margins) (greatest margins) := by
  intro found margins
  have hbound : (0 : RealAt 1e-16) < 0.5 ∧ (0.5 : RealAt 1e-16) ≤ 1 := by norm_num
  have hnew : Problem.new mirroredRows.data mirroredRows.bound = .ok mirroredRows :=
    Problem.new_of_exact hbound.1 hbound.2 (by decide) (by decide) rfl
  have hcount : 1 ≤ mirroredRows.bound * (mirroredRows.points : RealAt 1e-16) := by
    show (1 : RealAt 1e-16) ≤ 0.5 * ((3 : Nat) : RealAt 1e-16)
    norm_num
  have hslope : max 1 (mirroredRows.bound * (mirroredRows.points : RealAt 1e-16) - 1) =
      1 := by
    show max 1 (0.5 * ((3 : Nat) : RealAt 1e-16) - 1) = 1
    norm_num
  have hfirst : (#[2.0, 0.9, 0.1] : Array (RealAt 1e-16)).size =
      mirroredRows.features + 1 := rfl
  have hlast : (#[2.0, 0.1, 0.9] : Array (RealAt 1e-16)).size =
      mirroredRows.features + 1 := rfl
  have hbest := refine_near_best (by positivity) hnew hcount hfirst hlast 60
  rw [hslope] at hbest
  rcases hbest with ⟨hsimplex, _, _, _, _, _, hnear⟩
  rw [one_mul] at hnear
  exact ⟨hcount, hsimplex, hnear⟩

end LineSearch
end SoftMargin
