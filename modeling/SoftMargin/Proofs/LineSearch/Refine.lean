import SoftMargin.Proofs.Exact.Simplex
import SoftMargin.Proofs.LineSearch.Reads

/-!
# The point that a line search finds

Both ends of the segment are means of recorded vectors. With their weights moved
to the simplex they span a segment of points with weights on the simplex, and
neither the bisection along it nor the choice of the threshold leaves it. The
objective that is reported is that of the point.
-/

namespace SoftMargin

open Scalar

/-!
## The ends of the segment
-/

theorem Trace.size_consensusAt {α : Type} {t : Trace α}
    (ht : t.consensus.size = t.length * t.width) {k : Nat} (hk : k < t.length) :
    (t.consensusAt k).size = t.width := by
  have hlast : (k + 1) * t.width ≤ t.length * t.width := Nat.mul_le_mul_right _ hk
  unfold consensusAt
  rw [Array.size_extract, ht, min_eq_left hlast, Nat.succ_mul, Nat.add_sub_cancel_left]

namespace LineSearch

section Ends

variable {α : Type} [Scalar α] {t : Trace α}

theorem size_mean (ht : t.consensus.size = t.length * t.width) {iterations : List Nat}
    (h : ∀ k ∈ iterations, k < t.length) : (mean t iterations).size = t.width := by
  have htotal : ∀ acc : Array α, acc.size = t.width →
      (iterations.foldl (fun acc k => combine 1 (t.consensusAt k) 1 acc) acc).size =
        t.width := by
    induction iterations with
    | nil =>
        intro acc hacc
        exact hacc
    | cons k rest ih =>
        intro acc hacc
        apply ih fun k' hk' => h k' (List.mem_cons_of_mem k hk')
        unfold combine
        rw [Array.size_zipWith, Trace.size_consensusAt ht (h k List.mem_cons_self), hacc, min_self]
  have hzero := htotal (zeros t.width) Array.size_replicate
  rw [mean_eq]
  by_cases hempty : iterations.isEmpty = true
  · rw [if_pos hempty]
    exact hzero
  · rw [if_neg hempty]
    unfold scale
    rw [Array.size_map]
    exact hzero

theorem size_deepEnds (ht : t.consensus.size = t.length * t.width) {first last : Array α}
    (h : deepEnds? t = some (first, last)) : first.size = t.width ∧ last.size = t.width := by
  rw [deepEnds_eq] at h
  rcases Option.map_eq_some_iff.mp h with ⟨⟨i, j⟩, _, hends⟩
  rcases Prod.mk.inj hends with ⟨rfl, rfl⟩
  exact ⟨size_mean ht fun k hk => lt_of_mem_near hk, size_mean ht fun k hk => lt_of_mem_near hk⟩

theorem size_shallowEnds (ht : t.consensus.size = t.length * t.width) :
    (shallowEnds t).1.size = t.width ∧ (shallowEnds t).2.size = t.width := by
  have hbetter : ∀ half, (mean t ((ranked t).take half)).size = t.width := fun half =>
    size_mean ht fun k hk => lt_of_mem_ranked (List.mem_of_mem_take hk)
  have hworse : ∀ half, (mean t ((ranked t).drop half)).size = t.width := fun half =>
    size_mean ht fun k hk => lt_of_mem_ranked (List.mem_of_mem_drop hk)
  rw [shallowEnds_eq rfl]
  refine ⟨hbetter _, ?_⟩
  dsimp only
  split_ifs
  · exact hbetter _
  · exact hworse _

theorem size_ends (deepMinIter : Nat) (ht : t.consensus.size = t.length * t.width) :
    (ends deepMinIter t).2.1.size = t.width ∧ (ends deepMinIter t).2.2.size = t.width := by
  rw [ends_eq]
  cases hdeep : if deepMinIter < t.length then deepEnds? t else none with
  | none => exact size_shallowEnds ht
  | some pair =>
      by_cases hlong : deepMinIter < t.length
      · rw [if_pos hlong] at hdeep
        exact size_deepEnds ht hdeep
      · rw [if_neg hlong] at hdeep
        cases hdeep

theorem run_cases (P : Problem α) (deepMinIter halvings : Nat) (t : Trace α) (value : α) :
    (∃ point objective,
      (point, objective) =
        refine P halvings (ends deepMinIter t).2.1 (ends deepMinIter t).2.2 ∧
      (run P deepMinIter halvings t value).refined = some point ∧
      (run P deepMinIter halvings t value).objective = some objective ∧
      (run P deepMinIter halvings t value).adopted = decide (objective < value) ∧
      (run P deepMinIter halvings t value).improvement =
        if objective < value then value - objective else 0) ∨
    ((run P deepMinIter halvings t value).refined = none ∧
      (run P deepMinIter halvings t value).objective = none ∧
      (run P deepMinIter halvings t value).adopted = false ∧
      (run P deepMinIter halvings t value).improvement = 0) := by
  unfold run
  dsimp only
  by_cases hfar : shortestSegment < distance (ends deepMinIter t).2.1 (ends deepMinIter t).2.2
  · rw [if_pos hfar]
    exact Or.inl ⟨_, _, rfl, rfl, rfl, rfl, rfl⟩
  · rw [if_neg hfar]
    exact Or.inr ⟨rfl, rfl, rfl, rfl⟩

end Ends

end LineSearch

variable {K : Type} [ExactScalar K]

/-!
## Bisection
-/

namespace Bisection

theorem middle_eq (lo hi : K) : middle lo hi = (lo + hi) / 2 := by
  unfold middle
  norm_num

theorem le_middle {lo hi : K} (h : lo ≤ hi) : lo ≤ middle lo hi ∧ middle lo hi ≤ hi := by
  rw [middle_eq]
  constructor
  · linarith
  · linarith

theorem interval_le (g : K → K) (left : Nat) {lo hi : K} (h : lo ≤ hi) :
    lo ≤ (interval g left lo hi).1 ∧ (interval g left lo hi).1 ≤ (interval g left lo hi).2 ∧
      (interval g left lo hi).2 ≤ hi := by
  induction left generalizing lo hi with
  | zero => exact ⟨le_refl lo, h, le_refl hi⟩
  | succ left ih =>
      have hmiddle := le_middle h
      unfold interval
      by_cases hnarrow : isNarrow lo hi = true
      · rw [if_pos hnarrow]
        exact ⟨le_refl lo, h, le_refl hi⟩
      · rw [if_neg hnarrow]
        dsimp only
        by_cases hrises : g (middle lo hi - probe) < g (middle lo hi + probe)
        · rw [if_pos hrises]
          have hinside := ih hmiddle.left
          exact ⟨hinside.left, hinside.2.1, hinside.2.2.trans hmiddle.right⟩
        · rw [if_neg hrises]
          have hinside := ih hmiddle.right
          exact ⟨hmiddle.left.trans hinside.left, hinside.2.1, hinside.2.2⟩

theorem minimizer_mem (g : K → K) (halvings : Nat) {lo hi : K} (h : lo ≤ hi) :
    lo ≤ minimizer g halvings lo hi ∧ minimizer g halvings lo hi ≤ hi := by
  have hinterval := interval_le g halvings h
  have hmiddle := le_middle hinterval.2.1
  exact ⟨hinterval.left.trans hmiddle.left, hmiddle.right.trans hinterval.2.2⟩

end Bisection

/-!
## The refined point
-/

namespace LineSearch

open Finset

structure OnSimplex (n : Nat) (v : Array K) : Prop where
  size_eq : v.size = n + 1
  nonneg : ∀ k < n, 0 ≤ v.getD (1 + k) 0
  sum_eq : ∑ k ∈ range n, v.getD (1 + k) 0 = 1

variable {n : Nat}

theorem onSimplex_ontoSimplex {v : Array K} (hv : v.size = n + 1) (hn : 0 < n) :
    OnSimplex n (ontoSimplex v) := by
  have hfirst : (v.extract 0 1).size = 1 := by
    rw [Array.size_extract]
    omega
  have hweights : (v.extract 1 v.size).size = n := by
    rw [Array.size_extract]
    omega
  have hpoint := UnitSimplex.isPoint_nearest (v := v.extract 1 v.size) (by omega)
  rw [hweights] at hpoint
  have hentry : ∀ k < n, (ontoSimplex v).getD (1 + k) 0 =
      (UnitSimplex.nearest (v.extract 1 v.size)).getD k 0 := by
    intro k hk
    unfold ontoSimplex
    rw [getD_append_right _ _ _ (by omega), hfirst, Nat.add_sub_cancel_left]
  refine ⟨?_, ?_, ?_⟩
  · unfold ontoSimplex
    rw [Array.size_append, hfirst, hpoint.size_eq, Nat.add_comm]
  · intro k hk
    rw [hentry k hk]
    exact hpoint.nonneg k hk
  · rw [← hpoint.sum_eq]
    apply sum_congr rfl
    intro k hk
    exact hentry k (mem_range.mp hk)

theorem OnSimplex.between {first last : Array K} (hfirst : OnSimplex n first)
    (hlast : OnSimplex n last) {t : K} (hlower : 0 ≤ t) (hupper : t ≤ 1) :
    OnSimplex n (between first last t) := by
  have hsize := hfirst.size_eq.trans hlast.size_eq.symm
  have hentry : ∀ k, (LineSearch.between first last t).getD k 0 =
      (1 - t) * first.getD k 0 + t * last.getD k 0 := fun k => getD_combine _ _ hsize k
  refine ⟨?_, ?_, ?_⟩
  · unfold LineSearch.between
    rw [size_combine, hfirst.size_eq, hlast.size_eq, min_self]
  · intro k hk
    rw [hentry]
    exact add_nonneg (mul_nonneg (sub_nonneg.mpr hupper) (hfirst.nonneg k hk))
      (mul_nonneg hlower (hlast.nonneg k hk))
  · simp only [hentry]
    rw [sum_add_distrib, ← mul_sum, ← mul_sum, hfirst.sum_eq, hlast.sum_eq, mul_one, mul_one,
      sub_add_cancel]

omit [ExactScalar K] in
theorem extract_setThreshold (v : Array K) (threshold : K) :
    (v.setIfInBounds 0 threshold).extract 1 (v.setIfInBounds 0 threshold).size =
      v.extract 1 v.size := by
  apply Array.ext
  · simp
  · intro k hk hk'
    rw [Array.getElem_extract, Array.getElem_extract, Array.getElem_setIfInBounds_ne _ (by omega)]

theorem OnSimplex.setThreshold {v : Array K} (h : OnSimplex n v) (threshold : K) :
    OnSimplex n (v.setIfInBounds 0 threshold) := by
  have hentry : ∀ k, (v.setIfInBounds 0 threshold).getD (1 + k) 0 = v.getD (1 + k) 0 :=
    fun k => Ldl.getD_setIfInBounds_ne _ _ _ (by omega)
  refine ⟨by rw [Array.size_setIfInBounds, h.size_eq], ?_, ?_⟩
  · intro k hk
    rw [hentry]
    exact h.nonneg k hk
  · simp only [hentry]
    exact h.sum_eq

theorem objectiveAt_setThreshold (P : Problem K) {v : Array K} (hv : 0 < v.size)
    (threshold : K) : objectiveAt P (v.setIfInBounds 0 threshold) =
      objectiveFromMargins P.bound threshold (P.margins (v.extract 1 v.size)) := by
  unfold objectiveAt Problem.objective
  rw [extract_setThreshold, Ldl.getD_setIfInBounds_self _ _ _ hv]

theorem refine_spec (P : Problem K) (halvings : Nat) {first last : Array K} (hn : 0 < n)
    (hfirst : first.size = n + 1) (hlast : last.size = n + 1) :
    OnSimplex n (refine P halvings first last).1 ∧
      (refine P halvings first last).2 = objectiveAt P (refine P halvings first last).1 := by
  have hmember := Bisection.minimizer_mem
    (fun t => objectiveAt P (between (ontoSimplex first) (ontoSimplex last) t)) halvings
    (zero_le_one : (0 : K) ≤ 1)
  have hpoint := (onSimplex_ontoSimplex hfirst hn).between (onSimplex_ontoSimplex hlast hn)
    hmember.left hmember.right
  unfold refine
  dsimp only
  refine ⟨hpoint.setThreshold _, (objectiveAt_setThreshold P ?_ _).symm⟩
  rw [hpoint.size_eq]
  exact Nat.succ_pos n

end LineSearch
end SoftMargin
