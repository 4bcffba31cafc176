import SoftMargin.Proofs.Program.Objective
import SoftMargin.Proofs.Sorting.Keys

/-!
# The best threshold

Raising the threshold costs the bound for each margin below it and gains one. So
with the margins in rising order the objective falls as long as the bound times
the number of margins passed is below one, and no threshold is better than the
margin at which one is reached. Between two thresholds the objective changes no
faster than on its steepest piece.
-/

namespace SoftMargin

open Scalar Finset

variable {K : Type} [ExactScalar K]

/-!
## Shortfalls
-/

def shortfall (threshold : K) (margins : List K) : K :=
  (margins.map fun m => max (threshold - m) 0).sum

theorem objectiveFromMargins_eq_shortfall (bound threshold : K) (margins : Array K) :
    objectiveFromMargins bound threshold margins =
      -threshold + bound * shortfall threshold margins.toList := by
  rw [objectiveFromMargins_eq]
  unfold shortfall
  rw [list_sum_map_eq_sum_range margins.toList 0, Array.length_toList]
  congr 2
  apply sum_congr rfl
  intro j _
  rw [List.getD_eq_getElem?_getD, Array.getElem?_toList, ← Array.getD_eq_getD_getElem?]

theorem shortfall_append (threshold : K) (front back : List K) :
    shortfall threshold (front ++ back) = shortfall threshold front + shortfall threshold back := by
  unfold shortfall
  rw [List.map_append, List.sum_append]

theorem shortfall_perm {front back : List K} (h : front.Perm back) (threshold : K) :
    shortfall threshold front = shortfall threshold back :=
  (h.map _).sum_eq

theorem shortfall_of_le {threshold : K} {margins : List K} (h : ∀ m ∈ margins, m ≤ threshold) :
    shortfall threshold margins = (margins.length : K) * threshold - margins.sum := by
  unfold shortfall
  induction margins with
  | nil => simp
  | cons m rest ih =>
      rw [List.map_cons, List.sum_cons, ih fun m hm => h m (List.mem_cons_of_mem _ hm),
        max_eq_left (sub_nonneg.mpr (h m List.mem_cons_self)), List.length_cons, List.sum_cons]
      push_cast
      ring

theorem shortfall_of_ge {threshold : K} {margins : List K} (h : ∀ m ∈ margins, threshold ≤ m) :
    shortfall threshold margins = 0 := by
  unfold shortfall
  apply List.sum_eq_zero
  intro v hv
  rcases List.mem_map.mp hv with ⟨m, hm, rfl⟩
  exact max_eq_right (sub_nonpos.mpr (h m hm))

theorem shortfall_mono {v w : K} (h : v ≤ w) (margins : List K) :
    shortfall v margins ≤ shortfall w margins := by
  unfold shortfall
  apply List.sum_le_sum
  intro m _
  exact max_le_max_right 0 (sub_le_sub_right h m)

/-- The shortfall rises at most as fast as there are margins. -/
theorem shortfall_sub_le {v w : K} (h : v ≤ w) (margins : List K) :
    shortfall w margins - shortfall v margins ≤ (margins.length : K) * (w - v) := by
  unfold shortfall
  induction margins with
  | nil => simp
  | cons m rest ih =>
      have hfirst : max (w - m) 0 ≤ max (v - m) 0 + (w - v) := by
        apply max_le
        · linarith [le_max_left (v - m) 0]
        · linarith [le_max_right (v - m) 0]
      simp only [List.map_cons, List.sum_cons, List.length_cons]
      push_cast
      linarith

/-!
## How fast the objective changes
-/

theorem objectiveFromMargins_sub_le {bound v w : K} (hbound : 0 ≤ bound) (h : v ≤ w)
    (margins : Array K) :
    objectiveFromMargins bound w margins - objectiveFromMargins bound v margins ≤
      (bound * (margins.size : K) - 1) * (w - v) := by
  have hslow := mul_le_mul_of_nonneg_left (shortfall_sub_le h margins.toList) hbound
  rw [Array.length_toList] at hslow
  rw [objectiveFromMargins_eq_shortfall, objectiveFromMargins_eq_shortfall]
  linarith

theorem objectiveFromMargins_sub_ge {bound v w : K} (hbound : 0 ≤ bound) (h : v ≤ w)
    (margins : Array K) :
    objectiveFromMargins bound v margins - objectiveFromMargins bound w margins ≤ w - v := by
  have hmono := mul_le_mul_of_nonneg_left (shortfall_mono h margins.toList) hbound
  rw [objectiveFromMargins_eq_shortfall, objectiveFromMargins_eq_shortfall]
  linarith

/-- The objective changes no faster than on its steepest piece. -/
theorem objectiveFromMargins_lipschitz {bound : K} (hbound : 0 ≤ bound) (v w : K)
    (margins : Array K) :
    objectiveFromMargins bound v margins - objectiveFromMargins bound w margins ≤
      max 1 (bound * (margins.size : K) - 1) * |v - w| := by
  rcases le_total v w with h | h
  · rw [abs_sub_comm, abs_of_nonneg (sub_nonneg.mpr h)]
    refine (objectiveFromMargins_sub_ge hbound h margins).trans ?_
    exact le_mul_of_one_le_left (sub_nonneg.mpr h) (le_max_left _ _)
  · rw [abs_of_nonneg (sub_nonneg.mpr h)]
    refine (objectiveFromMargins_sub_le hbound h margins).trans ?_
    exact mul_le_mul_of_nonneg_right (le_max_right _ _) (sub_nonneg.mpr h)

/-!
## Where it is least
-/

def rising (margins : Array K) : List K :=
  Sorting.stableSort (fun a b => a < b) margins.toList

theorem rising_perm (margins : Array K) : (rising margins).Perm margins.toList :=
  Sorting.stableSort_perm _ _

theorem length_rising (margins : Array K) : (rising margins).length = margins.size := by
  rw [(rising_perm margins).length_eq, Array.length_toList]

theorem rising_pairwise (margins : Array K) : (rising margins).Pairwise (· ≤ ·) :=
  Sorting.stableSort_rises (fun m => m) margins.toList

/-- The margin at which the bound times the number of margins passed reaches one. -/
def bestThreshold (bound : K) (margins : Array K) : K :=
  (rising margins).getD (ceilNat (1 / bound) - 1) 0

theorem rising_split {margins : Array K} {k : Nat} (hk : k < margins.size) :
    ∃ front back, rising margins = front ++ (rising margins).getD k 0 :: back ∧
      front.length = k ∧ (∀ m ∈ front, m ≤ (rising margins).getD k 0) ∧
      ∀ m ∈ back, (rising margins).getD k 0 ≤ m := by
  have hlength : k < (rising margins).length := by rwa [length_rising]
  have hsplit : rising margins = (rising margins).take k ++
      (rising margins).getD k 0 :: (rising margins).drop (k + 1) := by
    rw [List.getD_eq_getElem?_getD, List.getElem?_eq_getElem hlength, Option.getD_some,
      List.cons_getElem_drop_succ, List.take_append_drop]
  have hsorted := rising_pairwise margins
  rw [hsplit, List.pairwise_append, List.pairwise_cons] at hsorted
  refine ⟨_, _, hsplit, List.length_take_of_le hlength.le, ?_, hsorted.2.1.1⟩
  intro m hm
  exact hsorted.2.2 m hm _ List.mem_cons_self

/-- With `k` margins before it, a margin is best if the bound counts up to one there. -/
theorem objectiveFromMargins_getD_le {bound : K} (hbound : 0 ≤ bound) {margins : Array K}
    {k : Nat} (hk : k < margins.size) (hbefore : bound * (k : K) ≤ 1)
    (hafter : 1 ≤ bound * ((k : K) + 1)) (threshold : K) :
    objectiveFromMargins bound ((rising margins).getD k 0) margins ≤
      objectiveFromMargins bound threshold margins := by
  rcases rising_split hk with ⟨front, back, hsplit, hlength, hfront, hback⟩
  generalize (rising margins).getD k 0 = best at *
  have hperm : ∀ v, shortfall v margins.toList =
      shortfall v front + shortfall v (best :: back) := fun v => by
    rw [← shortfall_append, ← hsplit, shortfall_perm (rising_perm margins)]
  rw [objectiveFromMargins_eq_shortfall, objectiveFromMargins_eq_shortfall, hperm, hperm]
  have hatBest : shortfall best (best :: back) = 0 :=
    shortfall_of_ge (List.forall_mem_cons.mpr ⟨le_rfl, hback⟩)
  rcases le_total threshold best with hbelow | habove
  · -- below it at most the margins before it fall short by less
    have hrest : shortfall threshold (best :: back) = 0 :=
      le_antisymm (hatBest ▸ shortfall_mono hbelow _) (List.sum_nonneg (by simp))
    have hslow := mul_le_mul_of_nonneg_left (shortfall_sub_le hbelow front) hbound
    rw [hlength] at hslow
    have hgain := mul_le_mul_of_nonneg_right hbefore (sub_nonneg.mpr hbelow)
    rw [hatBest, hrest]
    linarith
  · -- above it all of these and it itself fall short by more
    have hfast : shortfall threshold front - shortfall best front =
        (k : K) * (threshold - best) := by
      rw [shortfall_of_le hfront, shortfall_of_le fun m hm => (hfront m hm).trans habove, hlength]
      ring
    have hself : threshold - best ≤ shortfall threshold (best :: back) := by
      have hcons : shortfall threshold (best :: back) =
          max (threshold - best) 0 + shortfall threshold back := rfl
      have hnonneg : 0 ≤ shortfall threshold back := List.sum_nonneg (by simp)
      rw [hcons]
      exact (le_max_left _ _).trans (le_add_of_nonneg_right hnonneg)
    have hloss := mul_le_mul_of_nonneg_right hafter (sub_nonneg.mpr habove)
    have hcost := mul_le_mul_of_nonneg_left (add_le_add hfast.ge hself) hbound
    rw [hatBest]
    linarith

section Best

variable {bound : K} {margins : Array K}
  (hceil : ∀ n : Nat, ceilNat (1 / bound) ≤ n ↔ 1 / bound ≤ (n : K)) (hbound : 0 < bound)
  (hcount : 1 ≤ bound * (margins.size : K))

include hceil hbound

theorem ceilNat_pos : 0 < ceilNat (1 / bound) := by
  rw [← not_le, hceil, not_le, Nat.cast_zero]
  exact one_div_pos.mpr hbound

include hcount

theorem ceilNat_le_size : ceilNat (1 / bound) ≤ margins.size := by
  rw [hceil, div_le_iff₀ hbound, mul_comm]
  exact hcount

theorem bestThreshold_mem : bestThreshold bound margins ∈ margins := by
  have hpos := ceilNat_pos hceil hbound
  have hle := ceilNat_le_size hceil hbound hcount
  have hlength : ceilNat (1 / bound) - 1 < (rising margins).length := by
    rw [length_rising]
    omega
  unfold bestThreshold
  rw [List.getD_eq_getElem?_getD, List.getElem?_eq_getElem hlength, Option.getD_some,
    Array.mem_def]
  exact (rising_perm margins).mem_iff.mp (List.getElem_mem hlength)

theorem objectiveFromMargins_bestThreshold_le (threshold : K) :
    objectiveFromMargins bound (bestThreshold bound margins) margins ≤
      objectiveFromMargins bound threshold margins := by
  have hpos := ceilNat_pos hceil hbound
  have hle := ceilNat_le_size hceil hbound hcount
  obtain ⟨k, hk⟩ : ∃ k, ceilNat (1 / bound) = k + 1 := ⟨_, (Nat.sub_add_cancel hpos).symm⟩
  have hbefore : bound * (k : K) ≤ 1 := by
    have hnot : ¬ceilNat (1 / bound) ≤ k := by omega
    rw [hceil, not_le, lt_div_iff₀ hbound, mul_comm] at hnot
    exact hnot.le
  have hafter : 1 ≤ bound * ((k : K) + 1) := by
    have hreached := (hceil (k + 1)).mp hk.le
    rw [div_le_iff₀ hbound, mul_comm] at hreached
    exact_mod_cast hreached
  unfold bestThreshold
  rw [hk, Nat.add_sub_cancel]
  exact objectiveFromMargins_getD_le hbound.le (by omega) hbefore hafter threshold

end Best

end SoftMargin
