import Mathlib.Analysis.Convex.Continuous
import Mathlib.Analysis.Convex.Mul
import SoftMargin.Proofs.Exact.Real
import SoftMargin.Proofs.LineSearch.Segment

/-!
# How accurate a bisection is

A convex function is compared at two places around the middle of an interval,
which may lie outside of it. So a halving can lose the minimizer, but it loses
it by no more than the distance to these places, and it does so at one end only:
however many halvings follow, the interval that is left has the minimizer within
that distance.
-/

namespace SoftMargin
namespace Bisection

open Scalar

section Exact

variable {K : Type} [ExactScalar K]

def minimizers (g : K → K) (lo hi : K) : Set K :=
  {t | t ∈ Set.Icc lo hi ∧ IsMinOn g (Set.Icc lo hi) t}

/-- How far the minimizer that is found can be from the last one. -/
def accuracy (halvings : Nat) (lo hi : K) : K :=
  probe + max ((hi - lo) / 2.0 ^ (halvings + 1)) (epsilon * max 1 (max |lo| |hi|) / 2.0)

theorem accuracy_eq (halvings : Nat) (lo hi : K) :
    accuracy halvings lo hi =
      probe + max ((hi - lo) / 2 ^ halvings) (epsilon * max 1 (max |lo| |hi|)) / 2 := by
  have htwo : (2.0 : K) = 2 := by norm_num
  unfold accuracy
  rw [htwo, pow_succ, ← div_div, max_div_div_right zero_le_two]

/-!
## One comparison
-/

variable {g : K → K} {lo hi q m h : K}

theorem lt_of_after_last (hq : IsGreatest (minimizers g lo hi) q) (hm : m ∈ Set.Icc lo hi)
    (hafter : q < m) : g q < g m := by
  by_contra hnot
  refine absurd (hq.2 ⟨hm, ?_⟩) (not_le.mpr hafter)
  intro x hx
  exact (not_lt.mp hnot).trans (hq.1.2 hx)

/-- A function that rises around `m` has no minimizer far above it. -/
theorem le_add_of_rises (hg : ConvexOn K Set.univ g) (hq : IsGreatest (minimizers g lo hi) q)
    (hm : m ∈ Set.Icc lo hi) (hh : 0 < h) (hrises : g (m - h) < g (m + h)) : q ≤ m + h := by
  by_contra hnot
  have hbeyond := not_le.mp hnot
  have hmiddle : g m ≤ g (m + h) := by
    have hle := hg.le_max_of_mem_Icc (Set.mem_univ (m - h)) (Set.mem_univ (m + h))
      (show m ∈ Set.Icc (m - h) (m + h) from ⟨by linarith, by linarith⟩)
    rwa [max_eq_right hrises.le] at hle
  have hopen : m + h ∈ openSegment K (m - h) q := by
    rw [openSegment_eq_Ioo (by linarith)]
    exact ⟨by linarith, hbeyond⟩
  have hlast := hg.lt_right_of_left_lt (Set.mem_univ _) (Set.mem_univ _) hopen hrises
  exact absurd (hq.1.2 hm) (not_le.mpr (hmiddle.trans_lt hlast))

/-- A function that does not rise around `m` has its last minimizer not far below it. -/
theorem sub_le_of_not_rises (hg : ConvexOn K Set.univ g)
    (hq : IsGreatest (minimizers g lo hi) q) (hm : m ∈ Set.Icc lo hi) (hh : 0 < h)
    (hnot : ¬g (m - h) < g (m + h)) : m - h ≤ q := by
  by_contra hbelow
  have hbefore := not_le.mp hbelow
  have hfirst : g q < g m := lt_of_after_last hq hm (by linarith)
  have hleft : g (m - h) ≤ g m := by
    have hle := hg.le_max_of_mem_Icc (Set.mem_univ q) (Set.mem_univ m)
      (show m - h ∈ Set.Icc q m from ⟨hbefore.le, by linarith⟩)
    rwa [max_eq_right hfirst.le] at hle
  have hopen : m ∈ openSegment K q (m + h) := by
    rw [openSegment_eq_Ioo (by linarith)]
    exact ⟨by linarith, by linarith⟩
  have hright := hg.lt_right_of_left_lt (Set.mem_univ _) (Set.mem_univ _) hopen hfirst
  exact hnot (hleft.trans_lt hright)

/-!
## All halvings
-/

/-- The last minimizer stays within reach of the interval that is left. -/
theorem interval_near (hg : ConvexOn K Set.univ g) (hq : IsGreatest (minimizers g lo hi) q)
    (hprobe : 0 < (probe : K)) (left : Nat) {a b : K} (hlo : lo ≤ a) (hab : a ≤ b) (hhi : b ≤ hi)
    (hlower : a - probe ≤ q) (hupper : q ≤ b + probe) :
    (interval g left a b).1 - probe ≤ q ∧ q ≤ (interval g left a b).2 + probe := by
  induction left generalizing a b with
  | zero => exact ⟨hlower, hupper⟩
  | succ left ih =>
      have hmiddle := le_middle hab
      have hmem : middle a b ∈ Set.Icc lo hi :=
        ⟨hlo.trans hmiddle.left, hmiddle.right.trans hhi⟩
      unfold interval
      by_cases hnarrow : isNarrow a b = true
      · rw [if_pos hnarrow]
        exact ⟨hlower, hupper⟩
      · rw [if_neg hnarrow]
        dsimp only
        by_cases hrises : g (middle a b - probe) < g (middle a b + probe)
        · rw [if_pos hrises]
          exact ih hlo hmiddle.left hmem.2 hlower (le_add_of_rises hg hq hmem hprobe hrises)
        · rw [if_neg hrises]
          exact ih hmem.1 hmiddle.right hhi (sub_le_of_not_rises hg hq hmem hprobe hrises) hupper

theorem interval_width_le (g : K → K) (hepsilon : 0 ≤ (epsilon : K)) (left : Nat) {a b : K}
    (hlo : lo ≤ a) (hab : a ≤ b) (hhi : b ≤ hi) :
    (interval g left a b).2 - (interval g left a b).1 ≤
      max ((b - a) / 2 ^ left) (epsilon * max 1 (max |lo| |hi|)) := by
  induction left generalizing a b with
  | zero =>
      rw [pow_zero, div_one]
      exact le_max_left _ _
  | succ left ih =>
      have hmiddle := le_middle hab
      have hhalf : ∀ width : K, width / 2 ^ (left + 1) = width / 2 / 2 ^ left := fun width => by
        rw [pow_succ', div_div]
      unfold interval
      by_cases hnarrow : isNarrow a b = true
      · rw [if_pos hnarrow]
        refine le_trans ?_ (le_max_right _ _)
        unfold isNarrow at hnarrow
        rw [larger_eq_max, magnitude_eq_abs] at hnarrow
        refine (of_decide_eq_true hnarrow).trans ?_
        exact mul_le_mul_of_nonneg_left
          (max_le_max_left 1 (abs_le_max_abs_abs hlo (hab.trans hhi))) hepsilon
      · rw [if_neg hnarrow, hhalf]
        dsimp only
        by_cases hrises : g (middle a b - probe) < g (middle a b + probe)
        · rw [if_pos hrises]
          have hwidth : middle a b - a = (b - a) / 2 := by rw [middle_eq]; ring
          rw [← hwidth]
          exact ih hlo hmiddle.left (hmiddle.right.trans hhi)
        · rw [if_neg hrises]
          have hwidth : b - middle a b = (b - a) / 2 := by rw [middle_eq]; ring
          rw [← hwidth]
          exact ih (hlo.trans hmiddle.left) hmiddle.right hhi

theorem abs_minimizer_sub_le (hg : ConvexOn K Set.univ g)
    (hq : IsGreatest (minimizers g lo hi) q) (hprobe : 0 < (probe : K))
    (hepsilon : 0 ≤ (epsilon : K)) (halvings : Nat) (hle : lo ≤ hi) :
    |minimizer g halvings lo hi - q| ≤ accuracy halvings lo hi := by
  have hnear := interval_near hg hq hprobe halvings le_rfl hle le_rfl
    (by linarith [hq.1.1.1]) (by linarith [hq.1.1.2])
  have hwidth := interval_width_le g hepsilon halvings (le_refl lo) hle (le_refl hi)
  unfold minimizer
  dsimp only
  rw [accuracy_eq, middle_eq, abs_le]
  constructor
  · linarith
  · linarith

end Exact

/-!
## Over the reals
-/

theorem exists_isGreatest_minimizers {g : ℝ → ℝ} (hg : ConvexOn ℝ Set.univ g) {lo hi : ℝ}
    (h : lo ≤ hi) : ∃ q, IsGreatest (minimizers g lo hi) q := by
  have hcontinuous : Continuous g := hg.locallyLipschitz.continuous
  have hinterval : IsCompact (Set.Icc lo hi) := isCompact_Icc
  rcases hinterval.exists_isMinOn (Set.nonempty_Icc.mpr h) hcontinuous.continuousOn with
    ⟨p, hp, hmin⟩
  have hlevel : minimizers g lo hi = Set.Icc lo hi ∩ {t | g t ≤ g p} := by
    ext t
    constructor
    · intro ht
      exact ⟨ht.1, ht.2 hp⟩
    · intro ht
      exact ⟨ht.1, fun x hx => show g t ≤ g x from le_trans ht.2 (hmin hx)⟩
  have hcompact : IsCompact (minimizers g lo hi) := by
    rw [hlevel]
    exact hinterval.inter_right (isClosed_le hcontinuous continuous_const)
  exact hcompact.exists_isGreatest ⟨p, hp, hmin⟩

theorem probe_pos {eps : ℝ} (heps : 0 < eps) : 0 < (probe : RealAt eps) :=
  Real.sqrt_pos.mpr heps

theorem exists_near_minimizer {eps : ℝ} (heps : 0 < eps) {g : RealAt eps → RealAt eps}
    (hg : ConvexOn (RealAt eps) Set.univ g) (halvings : Nat) {lo hi : RealAt eps} (h : lo ≤ hi) :
    ∃ q, IsGreatest (minimizers g lo hi) q ∧
      |minimizer g halvings lo hi - q| ≤ accuracy halvings lo hi := by
  have hlast : ∃ q, IsGreatest (minimizers g lo hi) q := exists_isGreatest_minimizers hg h
  rcases hlast with ⟨q, hq⟩
  exact ⟨q, hq, abs_minimizer_sub_le hg hq (probe_pos heps) heps.le halvings h⟩

/-- Over the reals with any machine constant, a bisection stays between its bounds and ends near the
last minimizer of every convex function, as are the two that the line search minimizes. -/
theorem minimizer_near_last {eps : ℝ} (heps : 0 < eps) :
    (∀ g : RealAt eps → RealAt eps, ConvexOn (RealAt eps) Set.univ g →
      ∀ (halvings : Nat) (lo hi : RealAt eps), lo ≤ hi →
        minimizer g halvings lo hi ∈ Set.Icc lo hi ∧
        ∃ q, IsGreatest (minimizers g lo hi) q ∧
          |minimizer g halvings lo hi - q| ≤ accuracy halvings lo hi) ∧
    (∀ P : Problem (RealAt eps), P.data.Complete → 0 ≤ P.bound →
      ∀ first last : Array (RealAt eps), first.size = P.features + 1 →
        last.size = P.features + 1 →
        ConvexOn (RealAt eps) Set.univ fun t =>
          LineSearch.objectiveAt P (LineSearch.between first last t)) ∧
    ∀ (bound : RealAt eps) (margins : Array (RealAt eps)), 0 ≤ bound →
      ConvexOn (RealAt eps) Set.univ fun threshold =>
        objectiveFromMargins bound threshold margins := by
  refine ⟨?_, ?_, ?_⟩
  · intro g hg halvings lo hi h
    exact ⟨minimizer_mem g halvings h, exists_near_minimizer heps hg halvings h⟩
  · intro P hP hbound first last hfirst hlast
    exact LineSearch.convexOn_objectiveAt_between hP hbound hfirst hlast
  · intro bound margins hbound
    exact convexOn_objectiveFromMargins hbound margins

theorem minimizer_near_last_square : (0 : ℝ) < 1 / 2 ^ 52 ∧
    |minimizer (fun x : RealAt (1 / 2 ^ 52) => x ^ 2) 60 (-1) 2| ≤ accuracy 60 (-1) 2 := by
  have heps : (0 : ℝ) < 1 / 2 ^ 52 := by positivity
  have hconvex : ConvexOn (RealAt (1 / 2 ^ 52)) Set.univ fun x => x ^ 2 := even_two.convexOn_pow
  have hbounds : (-1 : RealAt (1 / 2 ^ 52)) ≤ 2 := by norm_num
  rcases ((minimizer_near_last heps).left _ hconvex 60 (-1) 2 hbounds).right with ⟨q, hq, hnear⟩
  have hzero : q ^ 2 ≤ (0 : RealAt (1 / 2 ^ 52)) ^ 2 :=
    hq.1.2 (show (0 : RealAt (1 / 2 ^ 52)) ∈ Set.Icc (-1) 2 from ⟨by norm_num, by norm_num⟩)
  rw [zero_pow two_ne_zero] at hzero
  have hq0 : q = 0 := (pow_eq_zero_iff two_ne_zero).mp (le_antisymm hzero (sq_nonneg q))
  rw [hq0, sub_zero] at hnear
  exact ⟨heps, hnear⟩

end Bisection
end SoftMargin
