import SoftMargin.Proofs.Exact.Matrix
import SoftMargin.Proofs.Solver.Recording

/-!
# Flat storage

The vectors of every iteration fill the storage one after the other. A push
adds those of one iteration behind the others, so each is found where its
offset says, and those found before stay where they are.
-/

namespace SoftMargin

variable {α : Type}

/-!
## Slices
-/

theorem slice?_append_left {β : Type} {xs : Array β} (ys : Array β) (first : Nat) {last : Nat}
    (h : last ≤ xs.size) : slice? (xs ++ ys) first last = slice? xs first last := by
  unfold slice?
  rw [Array.size_append, Array.extract_append, Nat.sub_eq_zero_of_le h]
  by_cases hfirst : first ≤ last
  · rw [if_pos ⟨hfirst, Nat.le_add_right_of_le h⟩, if_pos ⟨hfirst, h⟩]
    simp
  · rw [if_neg fun hand => hfirst hand.left, if_neg fun hand => hfirst hand.left]

theorem slice?_append_right {β : Type} (xs ys : Array β) (first last : Nat) :
    slice? (xs ++ ys) (xs.size + first) (xs.size + last) = slice? ys first last := by
  have hbefore : xs.extract (xs.size + first) (xs.size + last) = #[] :=
    Array.extract_empty_of_size_le_start (Nat.le_add_right _ _)
  unfold slice?
  rw [Array.size_append, Array.extract_append, hbefore, Nat.add_sub_cancel_left,
    Nat.add_sub_cancel_left, Array.empty_append]
  simp only [Nat.add_le_add_iff_left]

theorem lengths_toList {β : Type} {vs : Array (Array β)} {width : Nat}
    (hwidth : ∀ v ∈ vs, v.size = width) : ∀ l ∈ vs.toList.map Array.toList, l.length = width := by
  intro l hl
  rcases List.mem_map.mp hl with ⟨v, hv, rfl⟩
  exact hwidth v (Array.mem_toList_iff.mp hv)

theorem size_flatten {β : Type} {vs : Array (Array β)} {width : Nat}
    (hwidth : ∀ v ∈ vs, v.size = width) : vs.flatten.size = vs.size * width := by
  rw [← Array.length_toList, Array.toList_flatten, List.length_flatten,
    List.map_eq_replicate_iff.mpr (lengths_toList hwidth), List.sum_replicate_nat, List.length_map,
    Array.length_toList]

theorem slice?_flatten {β : Type} {vs : Array (Array β)} {width i : Nat}
    (hwidth : ∀ v ∈ vs, v.size = width) (hi : i < vs.size) :
    slice? vs.flatten (i * width) (i * width + width) = some vs[i] := by
  let L := vs.toList.map Array.toList
  have hlen : ∀ l ∈ L, l.length = width := lengths_toList hwidth
  have hL : L.length = vs.size := by
    rw [List.length_map, Array.length_toList]
  have hpart := List.drop_take_succ_flatten_eq_getElem L i (hL ▸ hi)
  rw [Matrix.sum_take_lengths hlen (hL ▸ hi.le), Matrix.sum_take_lengths hlen (hL ▸ hi),
    Nat.succ_mul] at hpart
  have hle : i * width + width ≤ vs.size * width := by
    rw [← Nat.succ_mul]
    exact Nat.mul_le_mul_right width hi
  unfold slice?
  rw [if_pos ⟨Nat.le_add_right _ _, (size_flatten hwidth).symm ▸ hle⟩]
  congr 1
  apply Array.toList_inj.mp
  rw [Array.toList_extract, Array.toList_flatten, List.extract_eq_take_drop, ← List.drop_take,
    hpart]
  simp [L]

namespace Trace

variable {t : Trace α}

structure IsFilled (t : Trace α) : Prop where
  size_consensus : t.consensus.size = t.length * t.width
  size_copies : t.copies.size = t.length * t.partitions * t.width

theorem isFilled_empty (features partitions : Nat) :
    (empty features partitions : Trace α).IsFilled := by
  refine ⟨(Nat.zero_mul _).symm, ?_⟩
  show 0 = 0 * partitions * (features + 1)
  rw [Nat.zero_mul, Nat.zero_mul]

structure Fits (t : Trace α) (consensus : Array α) (copies : Array (Array α)) : Prop where
  size_consensus : consensus.size = t.width
  size_copies : copies.size = t.partitions
  size_copy : ∀ v ∈ copies, v.size = t.width

section Push

variable (h : t.IsFilled) {consensus : Array α} {copies : Array (Array α)}
  (hfits : t.Fits consensus copies) (r : Residuals α)

include h hfits

theorem IsFilled.push : (t.push r consensus copies).IsFilled := by
  constructor
  · show (t.consensus ++ consensus).size = (t.push r consensus copies).length * t.width
    rw [length_push, Array.size_append, h.size_consensus, hfits.size_consensus, Nat.succ_mul]
  · show (t.copies ++ copies.flatten).size =
      (t.push r consensus copies).length * t.partitions * t.width
    rw [length_push, Array.size_append, h.size_copies, size_flatten hfits.size_copy,
      hfits.size_copies, Nat.succ_mul, Nat.add_mul]

theorem IsFilled.consensusAt?_push {k : Nat} (hk : k ≤ t.length) :
    (t.push r consensus copies).consensusAt? k =
      if k = t.length then some consensus else t.consensusAt? k := by
  show slice? (t.consensus ++ consensus) (k * t.width) ((k + 1) * t.width) = _
  rcases hk.eq_or_lt with rfl | hlt
  · have hlast : (t.length + 1) * t.width = t.consensus.size + t.width := by
      rw [h.size_consensus, Nat.succ_mul]
    have hslice := slice?_append_right t.consensus consensus 0 t.width
    rw [Nat.add_zero] at hslice
    rw [if_pos rfl, hlast, ← h.size_consensus, hslice, ← hfits.size_consensus]
    unfold slice?
    rw [if_pos ⟨Nat.zero_le _, le_refl _⟩, Array.extract_size]
  · rw [if_neg hlt.ne, slice?_append_left]
    · rfl
    · rw [h.size_consensus]
      exact Nat.mul_le_mul_right t.width hlt

theorem IsFilled.copyAt?_push {k i : Nat} (hk : k ≤ t.length) (hi : i < t.partitions) :
    (t.push r consensus copies).copyAt? k i =
      if k = t.length then copies[i]? else t.copyAt? k i := by
  have hstart : (t.push r consensus copies).copyStart k i = t.copyStart k i := rfl
  show slice? (t.copies ++ copies.flatten) (t.copyStart k i) (t.copyStart k i + t.width) = _
  have hic : i < copies.size := hfits.size_copies ▸ hi
  rcases hk.eq_or_lt with rfl | hlt
  · have hfirst : t.copyStart t.length i = t.copies.size + i * t.width := by
      unfold copyStart
      rw [h.size_copies, Nat.add_mul]
    rw [if_pos rfl, hfirst, Nat.add_assoc, slice?_append_right, slice?_flatten hfits.size_copy hic,
      Array.getElem?_eq_getElem hic]
  · rw [if_neg hlt.ne, slice?_append_left]
    · rfl
    · unfold copyStart
      rw [h.size_copies, ← Nat.succ_mul]
      apply Nat.mul_le_mul_right
      calc
        k * t.partitions + i + 1 ≤ (k + 1) * t.partitions := by
          rw [Nat.succ_mul]
          exact Nat.add_le_add_left hi _
        _ ≤ t.length * t.partitions := Nat.mul_le_mul_right _ hlt

end Push

end Trace
end SoftMargin
