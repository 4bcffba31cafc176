import Mathlib.Data.List.Perm.Basic
import Mathlib.Data.List.Sort
import SoftMargin.Proofs.Exact.Matrix
import SoftMargin.Random.Shuffle

/-!
# Shuffled groups

Whatever the draws, shuffling only rearranges the indices, and dealing hands out
each of them once. The cards of a hand lie as many places apart as there are
hands, so that the sizes of two hands differ by at most one.
-/

namespace SoftMargin
namespace Random

variable {σ : Type}

/-!
## Shuffling
-/

theorem swapIfInBounds_perm {β : Type} (xs : Array β) (i j : Nat) :
    (xs.swapIfInBounds i j).Perm xs := by
  unfold Array.swapIfInBounds
  by_cases hi : i < xs.size
  · rw [dif_pos hi]
    by_cases hj : j < xs.size
    · rw [dif_pos hj]
      exact Array.swap_perm hi hj
    · rw [dif_neg hj]
  · rw [dif_neg hi]

theorem foldl_shuffleStep_perm (draw : Source σ) (is : List Nat) (s : Array Nat × σ) :
    (is.foldl (shuffleStep draw) s).1.Perm s.1 := by
  induction is generalizing s with
  | nil => exact Array.Perm.refl s.1
  | cons i rest ih => exact (ih _).trans (swapIfInBounds_perm s.1 i _)

theorem shuffle_perm (draw : Source σ) (source : σ) (n : Nat) :
    (shuffle draw source n).Perm (Array.range n) :=
  foldl_shuffleStep_perm draw _ _

theorem toList_shuffle_perm (draw : Source σ) (source : σ) (n : Nat) :
    (shuffle draw source n).toList.Perm (List.range n) := by
  have hperm := Array.perm_iff_toList_perm.mp (shuffle_perm draw source n)
  rwa [Array.toList_range] at hperm

theorem size_shuffle (draw : Source σ) (source : σ) (n : Nat) :
    (shuffle draw source n).size = n := by
  rw [← Array.length_toList, (toList_shuffle_perm draw source n).length_eq, List.length_range]

/-!
## Dealing
-/

theorem mem_of_mem_hand {cards : Array Nat} {hands i c : Nat} (h : c ∈ hand cards hands i) :
    c ∈ cards := by
  unfold hand at h
  rw [List.mem_toArray, List.mem_mergeSort] at h
  rcases List.mem_map.mp h with ⟨k, hk, rfl⟩
  have hlt := List.mem_range.mp (List.mem_filter.mp hk).left
  simp [Array.getD, hlt]

theorem lt_of_mem_groups (draw : Source σ) (source : σ) {n hands : Nat} {group : Array Nat}
    (h : group ∈ groups draw source n hands) {c : Nat} (hc : c ∈ group) : c < n := by
  rcases Array.mem_map.mp h with ⟨i, _, rfl⟩
  have hcard := (shuffle_perm draw source n).mem_iff.mp (mem_of_mem_hand hc)
  simpa using hcard

/-- How many of so many cards the hand at place `i` gets. -/
def share (cards hands i : Nat) : Nat :=
  if i < cards % hands then cards / hands + 1 else cards / hands

theorem place_lt_iff {cards hands i : Nat} (hi : i < hands) (t : Nat) :
    i + hands * t < cards ↔ t < share cards hands i := by
  have hcards := Nat.div_add_mod cards hands
  have hrest := Nat.mod_lt cards (Nat.zero_lt_of_lt hi)
  unfold share
  rcases Nat.lt_trichotomy t (cards / hands) with hlt | heq | hgt
  · have hround := Nat.mul_le_mul_left hands hlt
    rw [Nat.mul_succ] at hround
    split <;> omega
  · rw [← heq] at hcards ⊢
    split <;> omega
  · have hround := Nat.mul_le_mul_left hands hgt
    rw [Nat.mul_succ] at hround
    split <;> omega

theorem filter_mod_eq_map {cards hands i : Nat} (hi : i < hands) :
    (List.range cards).filter (fun k => k % hands = i) =
      (List.range (share cards hands i)).map fun t => i + hands * t := by
  have hrises : ((List.range (share cards hands i)).map fun t => i + hands * t).Pairwise
      (· < ·) := by
    rw [List.pairwise_map]
    refine List.pairwise_lt_range.imp ?_
    intro t u htu
    exact Nat.add_lt_add_left (Nat.mul_lt_mul_of_pos_left htu (Nat.zero_lt_of_lt hi)) i
  refine (List.pairwise_lt_range.filter _).eq_of_mem_iff hrises ?_
  intro k
  rw [List.mem_filter, List.mem_range, decide_eq_true_eq, List.mem_map]
  constructor
  · rintro ⟨hk, hki⟩
    have hplace : i + hands * (k / hands) = k := hki ▸ Nat.mod_add_div k hands
    refine ⟨k / hands, List.mem_range.mpr ((place_lt_iff hi _).mp ?_), hplace⟩
    rw [hplace]
    exact hk
  · rintro ⟨t, ht, rfl⟩
    refine ⟨(place_lt_iff hi t).mpr (List.mem_range.mp ht), ?_⟩
    rw [Nat.add_mul_mod_self_left, Nat.mod_eq_of_lt hi]

theorem hand_perm (cards : Array Nat) (hands i : Nat) : (hand cards hands i).toList.Perm
    (((List.range cards.size).filter fun k => k % hands = i).map fun k => cards.getD k 0) :=
  List.mergeSort_perm _ _

theorem size_hand (cards : Array Nat) {hands i : Nat} (hi : i < hands) :
    (hand cards hands i).size = share cards.size hands i := by
  rw [← Array.length_toList, (hand_perm cards hands i).length_eq, List.length_map,
    filter_mod_eq_map hi, List.length_map, List.length_range]

theorem flatMap_filter_mod_perm (cards : Nat) {hands : Nat} (hhands : 0 < hands) :
    ((List.range hands).flatMap fun i => (List.range cards).filter fun k => k % hands = i).Perm
      (List.range cards) := by
  refine (List.perm_ext_iff_of_nodup ?_ List.nodup_range).mpr ?_
  · rw [List.nodup_flatMap]
    refine ⟨fun i _ => List.nodup_range.filter _, List.nodup_range.imp ?_⟩
    intro i j hij k hi hj
    rw [List.mem_filter, decide_eq_true_eq] at hi hj
    exact hij (hi.right.symm.trans hj.right)
  · intro k
    simp only [List.mem_flatMap, List.mem_filter, List.mem_range, decide_eq_true_eq]
    constructor
    · rintro ⟨i, _, hk, _⟩
      exact hk
    · intro hk
      exact ⟨k % hands, Nat.mod_lt k hhands, hk, rfl⟩

theorem map_getD_range {β : Type} (xs : Array β) (d : β) :
    (List.range xs.size).map (fun k => xs.getD k d) = xs.toList := by
  apply List.ext_getElem
  · rw [List.length_map, List.length_range, Array.length_toList]
  · intro k hk hk'
    rw [List.getElem_map, List.getElem_range, Array.getElem_toList, getD_of_lt]

theorem toList_deal (cards : Array Nat) (hands : Nat) :
    (deal cards hands).toList = (List.range hands).map (hand cards hands) := by
  unfold deal
  rw [Array.toList_map, Array.toList_range]

theorem exists_of_mem_deal {cards : Array Nat} {hands : Nat} {group : Array Nat}
    (h : group ∈ deal cards hands) : ∃ i < hands, group = hand cards hands i := by
  rcases Array.mem_map.mp h with ⟨i, hi, rfl⟩
  exact ⟨i, Array.mem_range.mp hi, rfl⟩

theorem getD_deal (cards : Array Nat) {hands i : Nat} (hi : i < hands) :
    (deal cards hands).getD i #[] = hand cards hands i := by
  rw [Array.getD_eq_getD_getElem?, ← Array.getElem?_toList, toList_deal, List.getElem?_map,
    List.getElem?_range hi]
  rfl

theorem flatMap_deal_perm (cards : Array Nat) {hands : Nat} (hhands : 0 < hands) :
    ((deal cards hands).toList.flatMap Array.toList).Perm cards.toList := by
  rw [toList_deal, List.flatMap_map]
  have hhand := List.Perm.flatMap_left (List.range hands) fun i _ => hand_perm cards hands i
  have hplaces := (flatMap_filter_mod_perm cards.size hhands).map fun k => cards.getD k 0
  rw [List.map_flatMap, map_getD_range] at hplaces
  exact hhand.trans hplaces

theorem flatMap_groups_perm (draw : Source σ) (source : σ) (n : Nat) {hands : Nat}
    (hhands : 0 < hands) :
    ((groups draw source n hands).toList.flatMap Array.toList).Perm (List.range n) :=
  (flatMap_deal_perm _ hhands).trans (toList_shuffle_perm draw source n)

theorem rising_hand {cards : Array Nat} (hcards : cards.toList.Nodup) (hands i : Nat) :
    (hand cards hands i).toList.Pairwise (· < ·) := by
  have hnodup : (hand cards hands i).toList.Nodup := by
    rw [(hand_perm cards hands i).nodup_iff]
    have hsublist := (List.filter_sublist (p := fun k => decide (k % hands = i))
      (l := List.range cards.size)).map fun k => cards.getD k 0
    rw [map_getD_range] at hsublist
    exact hcards.sublist hsublist
  have hsorted : (hand cards hands i).toList.Pairwise (· ≤ ·) := List.pairwise_mergeSort' _ _
  refine (hsorted.and hnodup).imp ?_
  intro a b hab
  exact Nat.lt_of_le_of_ne hab.left hab.right

theorem groups_one (draw : Source σ) (source : σ) (n : Nat) :
    groups draw source n 1 = #[Array.range n] := by
  have hnodup : (shuffle draw source n).toList.Nodup :=
    (toList_shuffle_perm draw source n).nodup_iff.mpr List.nodup_range
  have hperm := flatMap_groups_perm draw source n Nat.one_pos
  unfold groups at hperm ⊢
  rw [toList_deal, List.range_one, List.map_singleton, List.flatMap_singleton] at hperm
  rw [← Array.toList_inj, toList_deal, List.range_one, List.map_singleton]
  refine congrArg (fun group => [group]) (Array.toList_inj.mp ?_)
  rw [Array.toList_range]
  exact (rising_hand hnodup 1 0).eq_of_mem_iff List.pairwise_lt_range fun c => hperm.mem_iff

theorem columns_select {α : Type} {H : Matrix α} (hH : H.Complete) {group : Array Nat}
    (hgroup : ∀ c ∈ group, c < H.cols) :
    (List.range (H.select group).cols).map (H.select group).col = group.toList.map H.col := by
  rw [← map_getD_range group 0, List.map_map]
  apply List.map_congr_left
  intro j hj
  exact Matrix.col_select hH hgroup (List.mem_range.mp hj)

theorem flatMap_select_perm {α : Type} {H : Matrix α} (hH : H.Complete)
    {dealt : List (Array Nat)} (hdealt : (dealt.flatMap Array.toList).Perm (List.range H.cols)) :
    (dealt.flatMap fun group =>
      (List.range (H.select group).cols).map (H.select group).col).Perm
        ((List.range H.cols).map H.col) := by
  have hselect : ∀ group ∈ dealt, (List.range (H.select group).cols).map
      (H.select group).col = group.toList.map H.col := by
    intro group hgroup
    refine columns_select hH ?_
    intro c hc
    have hmem : c ∈ dealt.flatMap Array.toList :=
      List.mem_flatMap.mpr ⟨group, hgroup, Array.mem_toList_iff.mpr hc⟩
    exact List.mem_range.mp (hdealt.mem_iff.mp hmem)
  rw [List.flatMap_congr hselect, ← List.map_flatMap]
  exact hdealt.map H.col

/-- Whatever the draws, the groups are disjoint, each of them rises, together they hold every index
below `n` once, and their sizes are the quotient, and one more for as many of the first as the
remainder says. So none is empty unless there are more groups than indices, and what they select of
a matrix are all its columns, each once. -/
theorem groups_each_index_once (draw : Source σ) (source : σ) (n : Nat) {hands : Nat}
    (hhands : 0 < hands) :
    let dealt := groups draw source n hands
    dealt.size = hands ∧
      (dealt.toList.Pairwise fun group other => ∀ c ∈ group, c ∉ other) ∧
      (dealt.toList.flatMap Array.toList).Perm (List.range n) ∧
      (∀ group ∈ dealt, group.toList.Pairwise (· < ·)) ∧
      (∀ i < hands, (dealt.getD i #[]).size =
        if i < n % hands then n / hands + 1 else n / hands) ∧
      (hands ≤ n → ∀ group ∈ dealt, 0 < group.size) ∧
      ∀ (α : Type) (H : Matrix α), H.Complete → H.cols = n →
        (dealt.toList.flatMap fun group =>
          (List.range (H.select group).cols).map (H.select group).col).Perm
            ((List.range n).map H.col) := by
  intro dealt
  have hperm := flatMap_groups_perm draw source n hhands
  have hnodup := hperm.nodup_iff.mpr List.nodup_range
  have hsize : ∀ i < hands, (hand (shuffle draw source n) hands i).size = share n hands i := by
    intro i hi
    rw [size_hand _ hi, size_shuffle]
  refine ⟨Array.size_map.trans Array.size_range, ?_, hperm, ?_, ?_, ?_, ?_⟩
  · refine (List.nodup_flatMap.mp hnodup).right.imp ?_
    intro group other hdisjoint c hc hother
    exact hdisjoint (Array.mem_toList_iff.mpr hc) (Array.mem_toList_iff.mpr hother)
  · intro group hgroup
    rcases exists_of_mem_deal hgroup with ⟨i, _, rfl⟩
    exact rising_hand ((toList_shuffle_perm draw source n).nodup_iff.mpr List.nodup_range) hands i
  · intro i hi
    exact (congrArg Array.size (getD_deal _ hi)).trans (hsize i hi)
  · intro hle group hgroup
    rcases exists_of_mem_deal hgroup with ⟨i, hi, rfl⟩
    rw [hsize i hi]
    have hquotient := Nat.div_pos hle hhands
    unfold share
    split <;> omega
  · rintro α H hH rfl
    exact flatMap_select_perm hH hperm

theorem groups_each_index_once_seven :
    let dealt := seededGroups Xoshiro.generator 7 3 0
    dealt.size = 3 ∧ (dealt.toList.flatMap Array.toList).Perm (List.range 7) ∧
      (dealt.getD 0 #[]).size = 3 ∧ (dealt.getD 1 #[]).size = 2 ∧ (dealt.getD 2 #[]).size = 2 := by
  intro dealt
  have hdealt := groups_each_index_once Xoshiro.below (Xoshiro.ofSeed 0) 7 (by decide : 0 < 3)
  obtain ⟨hsize, _, hperm, _, hsizes, _⟩ := hdealt
  exact ⟨hsize, hperm, hsizes 0 (by decide), hsizes 1 (by decide), hsizes 2 (by decide)⟩

end Random
end SoftMargin
