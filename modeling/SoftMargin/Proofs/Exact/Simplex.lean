import SoftMargin.Proofs.Exact.Vector
import SoftMargin.Simplex

/-!
# Projecting onto the unit simplex

Once some of the largest entries have been seen, the shift found for them leaves
positive parts that sum to one. The next entry either takes part in a new shift
or is not above the old one. So the projection of a vector with an entry lies on
the simplex.
-/

namespace SoftMargin
namespace UnitSimplex

open Scalar Finset

variable {K : Type} [ExactScalar K]

structure IsPoint (n : Nat) (a : Array K) : Prop where
  size_eq : a.size = n
  nonneg : ∀ k < n, 0 ≤ a.getD k 0
  sum_eq : ∑ k ∈ range n, a.getD k 0 = 1

/-!
## The common shift
-/

def above (shift : K) (seen : List K) : K :=
  (seen.map fun x => max (x - shift) 0).sum

theorem above_of_le {shift : K} {seen : List K} (h : ∀ x ∈ seen, shift ≤ x) :
    above shift seen = seen.sum - (seen.length : K) * shift := by
  unfold above
  induction seen with
  | nil => simp
  | cons x rest ih =>
      rw [List.map_cons, List.sum_cons, ih fun y hy => h y (List.mem_cons_of_mem x hy),
        max_eq_left (sub_nonneg.mpr (h x List.mem_cons_self)), List.sum_cons, List.length_cons]
      push_cast
      ring

theorem above_concat (shift : K) (seen : List K) (v : K) :
    above shift (seen ++ [v]) = above shift seen + max (v - shift) 0 := by
  unfold above
  rw [List.map_append, List.sum_append, List.map_singleton, List.sum_singleton]

/-- The search has seen these entries, and if there are any its shift leaves one above it. -/
structure ShiftSearch.Covers (s : ShiftSearch K) (seen : List K) : Prop where
  count_eq : s.count = seen.length
  total_eq : s.total = seen.sum
  above_eq : seen ≠ [] → above s.shift seen = 1

theorem above_mean {seen : List K} {v : K} (hle : ∀ x ∈ seen, v ≤ x)
    (hpos : 0 < v - (seen.sum + v - 1) / ((seen.length + 1 : Nat) : K)) :
    above ((seen.sum + v - 1) / ((seen.length + 1 : Nat) : K)) (seen ++ [v]) = 1 := by
  have hcount : ((seen.length + 1 : Nat) : K) ≠ 0 := Nat.cast_ne_zero.mpr (Nat.succ_ne_zero _)
  rw [above_of_le, List.sum_append, List.sum_singleton, List.length_append,
    List.length_singleton, mul_div_cancel₀ _ hcount]
  · ring
  · intro x hx
    rcases List.mem_append.mp hx with hseen | hlast
    · exact (sub_pos.mp hpos).le.trans (hle x hseen)
    · rw [List.mem_singleton.mp hlast]
      exact (sub_pos.mp hpos).le

/-- An entry that asks for a shift above itself is not above the shift found before. -/
theorem le_of_not_pos {seen : List K} {v shift : K} (hle : ∀ x ∈ seen, v ≤ x)
    (habove : above shift seen = 1)
    (hnot : ¬0 < v - (seen.sum + v - 1) / ((seen.length + 1 : Nat) : K)) : v ≤ shift := by
  by_contra hlt
  have hshift := not_le.mp hlt
  rw [above_of_le fun x hx => hshift.le.trans (hle x hx)] at habove
  have hcount : (0 : K) < ((seen.length + 1 : Nat) : K) := Nat.cast_pos.mpr (Nat.succ_pos _)
  have hasked := (le_div_iff₀ hcount).mp (sub_nonpos.mp (not_lt.mp hnot))
  push_cast at hasked
  have hlength : seen ≠ [] := by
    rintro rfl
    simp at habove
  have hpos : (0 : K) < (seen.length : K) := Nat.cast_pos.mpr (List.length_pos_iff.mpr hlength)
  have hscaled := mul_lt_mul_of_pos_left hshift hpos
  linarith

theorem ShiftSearch.Covers.next {s : ShiftSearch K} {seen : List K} {v : K}
    (h : s.Covers seen) (hle : ∀ x ∈ seen, v ≤ x) : (s.next v).Covers (seen ++ [v]) := by
  have hcount : s.count + 1 = seen.length + 1 := by rw [h.count_eq]
  refine ⟨by rw [List.length_append]; exact hcount,
    by rw [List.sum_append, List.sum_singleton, ← h.total_eq]; rfl, ?_⟩
  intro _
  have hshift : (s.next v).shift =
      if 0 < v - (seen.sum + v - 1) / ((seen.length + 1 : Nat) : K) then
        (seen.sum + v - 1) / ((seen.length + 1 : Nat) : K) else s.shift := by
    rw [← h.total_eq, ← hcount]
    rfl
  rw [hshift]
  by_cases hpos : 0 < v - (seen.sum + v - 1) / ((seen.length + 1 : Nat) : K)
  · rw [if_pos hpos]
    exact above_mean hle hpos
  · rw [if_neg hpos]
    -- the first entry always asks for a shift below itself
    have hseen : seen ≠ [] := by
      rintro rfl
      simp at hpos
    rw [above_concat, h.above_eq hseen,
      max_eq_right (sub_nonpos.mpr (le_of_not_pos hle (h.above_eq hseen) hpos)), add_zero]

theorem covers_foldl {falling : List K} (h : falling.Pairwise fun a b => b ≤ a) :
    (falling.foldl ShiftSearch.next ⟨0, 0, 0⟩).Covers falling := by
  induction falling using List.reverseRecOn with
  | nil => exact ⟨rfl, rfl, fun hne => absurd rfl hne⟩
  | append_singleton seen v ih =>
      rcases List.pairwise_append.mp h with ⟨hseen, _, hlast⟩
      rw [List.foldl_append]
      exact (ih hseen).next fun x hx => hlast x hx v (List.mem_singleton_self v)

theorem above_commonShift {v : Array K} (hv : 0 < v.size) :
    above (commonShift v) v.toList = 1 := by
  have hperm := Sorting.stableSort_perm (fun a b => decide (b < a)) v.toList
  have horders : Sorting.Orders (fun a b => decide (b < a)) v.toList := by
    constructor
    · intro a _ b _ hab
      exact decide_eq_false (not_lt.mpr (of_decide_eq_true hab).le)
    · intro a _ b _ c _ hab hbc
      exact decide_eq_false (not_lt.mpr
        ((not_lt.mp (of_decide_eq_false hab)).trans (not_lt.mp (of_decide_eq_false hbc))))
  have hcovers := covers_foldl ((Sorting.stableSort_pairwise horders).imp
    fun hab => not_lt.mp (of_decide_eq_false hab.left))
  rw [← hcovers.above_eq]
  · exact (hperm.map _).sum_eq.symm
  · intro hnil
    have hlength := hperm.length_eq
    rw [hnil, List.length_nil, Array.length_toList] at hlength
    exact absurd hlength hv.ne

/-!
## The projection
-/

theorem getD_nearest {v : Array K} {k : Nat} (hk : k < v.size) :
    (nearest v).getD k 0 = max (v.getD k 0 - commonShift v) 0 := by
  unfold nearest
  dsimp only
  rw [getD_map _ _ 0 _ hk, pos_eq_max]

theorem isPoint_nearest {v : Array K} (hv : 0 < v.size) : IsPoint v.size (nearest v) := by
  refine ⟨Array.size_map, ?_, ?_⟩
  · intro k hk
    rw [getD_nearest hk]
    exact le_max_right _ _
  · have hsum := list_sum_map_eq_sum_range v.toList 0 fun x => max (x - commonShift v) 0
    rw [Array.length_toList] at hsum
    rw [← above_commonShift hv]
    refine Eq.trans (sum_congr rfl ?_) hsum.symm
    intro k hk
    rw [getD_nearest (mem_range.mp hk), List.getD_eq_getElem?_getD, Array.getElem?_toList,
      ← Array.getD_eq_getD_getElem?]

theorem defect_eq_sum {n : Nat} {a : Array K} (hsize : a.size = n) :
    defect a = magnitude (1 - ∑ k ∈ range n, a.getD k 0) +
      ∑ k ∈ range n, max (-a.getD k 0) 0 := by
  have hbelow : a.foldl (fun total x => total + pos (-x)) 0 =
      ∑ k ∈ range n, max (-a.getD k 0) 0 := by
    rw [foldl_eq_foldl_range _ a 0, hsize]
    exact foldl_range_induction
      (fun m (total : K) => total = ∑ k ∈ range m, max (-a.getD k 0) 0) _ _ 0
      (sum_range_zero _).symm (by
        intro m _ total htotal
        rw [sum_range_succ, ← htotal, pos_eq_max])
  unfold defect
  dsimp only
  rw [hbelow, sum_eq_sum_range a hsize]

theorem defect_of_nonneg {n : Nat} {a : Array K} (hsize : a.size = n)
    (h : ∀ k < n, 0 ≤ a.getD k 0) : defect a = magnitude (1 - ∑ k ∈ range n, a.getD k 0) := by
  have hbelow : ∀ k ∈ range n, max (-a.getD k 0) 0 = 0 := fun k hk =>
    max_eq_right (neg_nonpos.mpr (h k (mem_range.mp hk)))
  rw [defect_eq_sum hsize, sum_eq_zero hbelow, add_zero]

theorem IsPoint.defect_eq_zero {n : Nat} {a : Array K} (h : IsPoint n a) : defect a = 0 := by
  rw [defect_of_nonneg h.size_eq h.nonneg, h.sum_eq, sub_self]
  unfold magnitude
  rw [if_neg (lt_irrefl 0), sub_zero]

end UnitSimplex
end SoftMargin
