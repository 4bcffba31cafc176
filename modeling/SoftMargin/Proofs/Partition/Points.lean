import SoftMargin.Proofs.Partition.Balance

/-!
# Points and partitions

Each point of the program stands at one place of one partition. A sum over the
points of all partitions is therefore a sum over the points of the program, and
values that are given place by place are the values of a function of the point.
-/

namespace SoftMargin
namespace Ensemble

open Finset

variable {K : Type} [ExactScalar K] {P : Problem K} {settings : Settings K}
  {parts : Array (Partition K)} {e : Ensemble K}

theorem IsSplit.parts_pos (hP : P.IsProper) (hsplit : IsSplit P settings parts) :
    0 < parts.size := by
  rcases Nat.eq_zero_or_pos parts.size with hzero | hpos
  · have hcolumns := hsplit.columns.length_eq
    rw [Array.eq_empty_of_size_eq_zero hzero, List.length_range] at hcolumns
    exact absurd hcolumns hP.points_pos.ne
  · exact hpos

def point (e : Ensemble K) (i j : Nat) : Nat :=
  (e.member i).partition.columns.getD j 0

def pointCount (e : Ensemble K) (i : Nat) : Nat :=
  (e.member i).partition.points

omit [ExactScalar K] in
theorem columns_member (h : e.IsOver parts P) {i : Nat} (hi : i < parts.size)
    (hi' : i < (parts.toList.map fun p => p.columns.toList).length) :
    (parts.toList.map fun p => p.columns.toList)[i] =
      (e.member i).partition.columns.toList := by
  rw [h.partition_eq hi, List.getElem_map, Array.getElem_toList]

theorem IsOver.sum_points (h : e.IsOver parts P)
    (hcolumns : (parts.toList.flatMap fun p => p.columns.toList).Perm (List.range P.points))
    (g : Nat → K) : ∑ i ∈ range parts.size, ∑ j ∈ range (e.pointCount i), g (e.point i j) =
      ∑ c ∈ range P.points, g c := by
  have hparts : ∀ i ∈ range parts.size, ∑ j ∈ range (e.pointCount i), g (e.point i j) =
      (((parts.toList.map fun p => p.columns.toList).getD i []).map g).sum := by
    intro i hi
    have hip := mem_range.mp hi
    rw [List.getD_eq_getElem?_getD, List.getElem?_eq_getElem (by simpa using hip),
      columns_member h hip, Option.getD_some, list_sum_map_eq_sum_range _ 0]
    apply sum_congr rfl
    intro j _
    unfold point
    rw [Array.getD_eq_getD_getElem?, List.getD_eq_getElem?_getD, Array.getElem?_toList]
  have hlength : parts.size = (parts.toList.map fun p => p.columns.toList).length := by simp
  have hpoints : ∀ c ∈ range P.points, g c = g ((List.range P.points).getD c 0) := by
    intro c hc
    rw [List.getD_eq_getElem?_getD, List.getElem?_range (mem_range.mp hc), Option.getD_some]
  calc
    _ = ((parts.toList.map fun p => p.columns.toList).map fun l => (l.map g).sum).sum := by
      rw [sum_congr rfl hparts, hlength,
        list_sum_map_eq_sum_range _ [] fun l : List Nat => (l.map g).sum]
    _ = ((parts.toList.map fun p => p.columns.toList).flatten.map g).sum := by
      simp only [List.map_flatten, List.sum_flatten, List.map_map, Function.comp_def]
    _ = ((List.range P.points).map g).sum := by
      rw [← List.flatMap_def]
      exact (hcolumns.map g).sum_eq
    _ = ∑ c ∈ range P.points, g c := by
      rw [list_sum_map_eq_sum_range _ 0, List.length_range, sum_congr rfl hpoints]

theorem IsOver.sum_pointCount (h : e.IsOver parts P)
    (hcolumns : (parts.toList.flatMap fun p => p.columns.toList).Perm (List.range P.points)) :
    ∑ i ∈ range parts.size, (e.pointCount i : K) = (P.points : K) := by
  have hcount := h.sum_points hcolumns fun _ => (1 : K)
  simp only [sum_const, card_range, nsmul_eq_mul, mul_one] at hcount
  exact hcount

section Points

variable (hsplit : IsSplit P settings parts) (h : e.IsOver parts P)

include hsplit

theorem IsSplit.flatten_columns : (parts.toList.map fun p => p.columns.toList).flatten.Perm
    (List.range P.points) := by
  rw [← List.flatMap_def]
  exact hsplit.columns

include h

theorem point_lt {i j : Nat} (hi : i < parts.size) (hj : j < e.pointCount i) :
    e.point i j < P.points := by
  unfold point
  rw [getD_of_lt _ 0 hj]
  exact (h.isExact hsplit hi).columns_lt _ (Array.getElem_mem hj)

theorem exists_point {c : Nat} (hc : c < P.points) :
    ∃ i < parts.size, ∃ j < e.pointCount i, e.point i j = c := by
  have hmem := hsplit.flatten_columns.mem_iff.mpr (List.mem_range.mpr hc)
  rcases List.mem_flatten.mp hmem with ⟨l, hl, hcl⟩
  rcases List.getElem_of_mem hl with ⟨i, hi, rfl⟩
  have hip : i < parts.size := by simpa using hi
  rw [columns_member h hip] at hcl
  rcases List.getElem_of_mem hcl with ⟨j, hj, rfl⟩
  refine ⟨i, hip, j, hj, ?_⟩
  unfold point
  rw [getD_of_lt _ 0 hj, Array.getElem_toList]

theorem point_injective {i i' j j' : Nat} (hi : i < parts.size) (hi' : i' < parts.size)
    (hj : j < e.pointCount i) (hj' : j' < e.pointCount i') (heq : e.point i j = e.point i' j') :
    i = i' ∧ j = j' := by
  have hnodup := hsplit.flatten_columns.nodup_iff.mpr List.nodup_range
  rcases List.nodup_flatten.mp hnodup with ⟨hinside, hbetween⟩
  have hmem : ∀ {i j : Nat}, j < e.pointCount i →
      e.point i j ∈ (e.member i).partition.columns.toList := by
    intro i j hj
    unfold point
    rw [getD_of_lt _ 0 hj]
    exact Array.mem_toList_iff.mpr (Array.getElem_mem hj)
  have hdisjoint : ∀ {i i' : Nat}, i < i' → i' < parts.size →
      List.Disjoint (e.member i).partition.columns.toList
        (e.member i').partition.columns.toList := by
    intro i i' hlt hi'
    have hpair := List.pairwise_iff_getElem.mp hbetween i i' (by simp; omega)
      (by simpa using hi') hlt
    rwa [columns_member h (by omega), columns_member h hi'] at hpair
  rcases Nat.lt_trichotomy i i' with hlt | rfl | hgt
  · have hpoint := hmem hj'
    rw [← heq] at hpoint
    exact absurd hpoint (hdisjoint hlt hi' (hmem hj))
  · refine ⟨rfl, ?_⟩
    have hl := hinside _ (List.getElem_mem (by simpa using hi))
    rw [columns_member h hi] at hl
    unfold point at heq
    rw [getD_of_lt _ 0 hj, getD_of_lt _ 0 hj'] at heq
    exact hl.getElem_inj_iff.mp heq
  · have hpoint := hmem hj
    rw [heq] at hpoint
    exact absurd hpoint (hdisjoint hgt hi (hmem hj'))

theorem exists_pointwise {β : Type} (d : β) (w : Nat → Nat → β) : ∃ g : Nat → β,
    ∀ i < parts.size, ∀ j < e.pointCount i, g (e.point i j) = w i j := by
  classical
  refine ⟨fun c => if hplace : ∃ place : Nat × Nat, place.1 < parts.size ∧
    place.2 < e.pointCount place.1 ∧ e.point place.1 place.2 = c then
      w hplace.choose.1 hplace.choose.2 else d, ?_⟩
  intro i hi j hj
  have hplace : ∃ place : Nat × Nat, place.1 < parts.size ∧
      place.2 < e.pointCount place.1 ∧ e.point place.1 place.2 = e.point i j :=
    ⟨(i, j), hi, hj, rfl⟩
  have hspec := hplace.choose_spec
  have hsame := point_injective hsplit h hspec.left hi hspec.2.1 hj hspec.2.2
  refine (dif_pos hplace).trans ?_
  rw [hsame.left, hsame.right]

theorem sum_points (g : Nat → K) : ∑ i ∈ range parts.size, ∑ j ∈ range (e.pointCount i),
    g (e.point i j) = ∑ c ∈ range P.points, g c :=
  h.sum_points hsplit.columns g

end Points

end Ensemble
end SoftMargin
