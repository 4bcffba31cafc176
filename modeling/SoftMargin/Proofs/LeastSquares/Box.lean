import SoftMargin.Proofs.Ldl.Access
import SoftMargin.LeastSquares.Bounded

/-!
# Staying within the bounds

Every variable starts on a bound. A variable moves to a minimizer strictly
within its bounds, onto a bound, or part of the way to a minimizer outside of
them, and never further than its own bound allows. So the search never leaves
the box, whatever the method for its subproblems answers.
-/

namespace SoftMargin
namespace BoundedLeastSquares
namespace Problem

open Scalar

variable {K : Type} [ExactScalar K] {P : Problem K} {s : State K}

/-!
## The box
-/

structure IsBox (P : Problem K) : Prop where
  size_target : P.target.size = P.matrix.rows
  size_lower : P.lower.size = P.size
  size_upper : P.upper.size = P.size
  le : ∀ k < P.size, P.lowerAt k ≤ P.upperAt k
  complete : P.matrix.Complete

theorem check_eq_ok (h : P.check = .ok ()) : P.IsBox := by
  unfold check at h
  by_cases hsize : P.target.size ≠ P.matrix.rows ∨ P.lower.size ≠ P.matrix.cols ∨
      P.upper.size ≠ P.matrix.cols
  · rw [if_pos hsize] at h
    cases h
  · rw [if_neg hsize] at h
    simp only [not_or, not_not] at hsize
    split_ifs at h with hbounds hcomplete
    refine ⟨hsize.left, hsize.2.1, hsize.2.2, ?_, hcomplete⟩
    intro k hk
    have hlower : k < P.lower.size := hsize.2.1 ▸ hk
    have hupper : k < P.upper.size := hsize.2.2 ▸ hk
    have hzip : k < (P.lower.zip P.upper).size := by
      rw [Array.size_zip]
      omega
    rw [Array.any_eq_true, not_exists] at hbounds
    have hentry : ¬P.upper[k] < P.lower[k] := by
      intro hlt
      apply hbounds k
      refine ⟨hzip, ?_⟩
      rw [Array.getElem_zip]
      dsimp only
      rw [decide_eq_true hlt, Bool.or_true]
    unfold lowerAt upperAt
    rw [getD_of_lt P.lower 0 hlower, getD_of_lt P.upper 0 hupper]
    exact not_lt.mp hentry

structure InBox (P : Problem K) (x : Array K) : Prop where
  size_eq : x.size = P.size
  lower_le : ∀ k < P.size, P.lowerAt k ≤ x.getD k 0
  le_upper : ∀ k < P.size, x.getD k 0 ≤ P.upperAt k

theorem IsBox.inBox_lower (h : P.IsBox) : P.InBox P.lower :=
  ⟨h.size_lower, fun _ _ => le_refl _, h.le⟩

theorem InBox.set {x : Array K} (h : P.InBox x) {k : Nat} {v : K} (hlower : P.lowerAt k ≤ v)
    (hupper : v ≤ P.upperAt k) : P.InBox (x.setIfInBounds k v) := by
  refine ⟨Array.size_setIfInBounds.trans h.size_eq, ?_, ?_⟩
  · intro j hj
    rw [Ldl.getD_setIfInBounds]
    by_cases hkj : k = j ∧ k < x.size
    · rw [if_pos hkj, ← hkj.left]
      exact hlower
    · rw [if_neg hkj]
      exact h.lower_le j hj
  · intro j hj
    rw [Ldl.getD_setIfInBounds]
    by_cases hkj : k = j ∧ k < x.size
    · rw [if_pos hkj, ← hkj.left]
      exact hupper
    · rw [if_neg hkj]
      exact h.le_upper j hj

/-!
## Moves
-/

omit [ExactScalar K] in
theorem nodup_freeVariables (P : Problem K) (s : State K) :
    (P.freeVariables s).toList.Nodup := by
  unfold freeVariables
  rw [Array.toList_filter, Array.toList_range]
  exact List.nodup_range.filter _

omit [ExactScalar K] in
theorem lt_of_mem_freeVariables {k : Nat} (h : k ∈ P.freeVariables s) : k < P.size := by
  unfold freeVariables at h
  exact Array.mem_range.mp (Array.mem_filter.mp h).left

omit [ExactScalar K] in
theorem map_fst_zip_sublist (ks : List Nat) (zs : List K) :
    ((ks.zip zs).map (·.1)).Sublist ks := by
  induction ks generalizing zs with
  | nil => exact List.Sublist.slnil
  | cons k rest ih =>
      cases zs with
      | nil => exact List.nil_sublist _
      | cons z zs => exact (ih zs).cons_cons k

structure AreMoves (P : Problem K) (moves : List (Nat × K)) : Prop where
  nodup : (moves.map (·.1)).Nodup
  lt : ∀ m ∈ moves, m.1 < P.size

omit [ExactScalar K] in
theorem areMoves_zip (s : State K) (z : Array K) :
    P.AreMoves ((P.freeVariables s).zip z).toList := by
  have hkeys : (((P.freeVariables s).zip z).toList.map (·.1)).Sublist
      (P.freeVariables s).toList := by
    rw [Array.toList_zip]
    exact map_fst_zip_sublist _ _
  refine ⟨(nodup_freeVariables P s).sublist hkeys, ?_⟩
  intro m hm
  exact lt_of_mem_freeVariables (Array.mem_toList_iff.mp (hkeys.subset (List.mem_map_of_mem hm)))

theorem foldl_set_inBox {moves : List (Nat × K)}
    (hinside : ∀ m ∈ moves, P.lowerAt m.1 < m.2 ∧ m.2 < P.upperAt m.1) {x : Array K}
    (h : P.InBox x) : P.InBox (moves.foldl (fun x m => x.setIfInBounds m.1 m.2) x) := by
  induction moves generalizing x with
  | nil => exact h
  | cons m rest ih =>
      have hm := hinside m List.mem_cons_self
      exact ih (fun m' hm' => hinside m' (List.mem_cons_of_mem m hm'))
        (h.set hm.left.le hm.right.le)

/-!
## Partial steps
-/

theorem ratio_nonneg (h : P.InBox s.x) {k : Nat} (hk : k < P.size) {z ratio : K}
    (hratio : ratio? P s k z = some ratio) : 0 ≤ ratio := by
  have hlower := h.lower_le k hk
  have hupper := h.le_upper k hk
  unfold ratio? at hratio
  dsimp only at hratio
  by_cases hlow : z ≤ P.lowerAt k
  · rw [if_pos hlow] at hratio
    rw [← Option.some.inj hratio]
    exact div_nonneg (sub_nonneg.mpr hlower) (sub_nonneg.mpr (hlow.trans hlower))
  · rw [if_neg hlow] at hratio
    by_cases hhigh : P.upperAt k ≤ z
    · rw [if_pos hhigh] at hratio
      rw [← Option.some.inj hratio]
      exact div_nonneg (sub_nonneg.mpr hupper) (sub_nonneg.mpr (hupper.trans hhigh))
    · rw [if_neg hhigh] at hratio
      cases hratio

def shareWith {α : Type} [Scalar α] (P : Problem α) (s : State α) (best : α × Nat)
    (m : Nat × α) : α × Nat :=
  (ratio? P s m.1 m.2).elim best fun ratio => if ratio < best.1 then (ratio, m.1) else best

theorem stepLength_eq_foldl {α : Type} [Scalar α] (P : Problem α) (s : State α)
    (moves : List (Nat × α)) :
    stepLength P s moves =
      moves.foldl (shareWith P s) (1, (moves.head?.map Prod.fst).getD 0) := by
  unfold stepLength
  congr 1
  funext best m
  rcases m with ⟨k, z⟩
  unfold shareWith
  dsimp only
  cases ratio? P s k z with
  | none => rfl
  | some ratio => rfl

theorem shareWith_spec (h : P.InBox s.x) {best : K × Nat} (hbest : 0 ≤ best.1) {m : Nat × K}
    (hm : m.1 < P.size) : 0 ≤ (shareWith P s best m).1 ∧ (shareWith P s best m).1 ≤ best.1 ∧
      ∀ ratio, ratio? P s m.1 m.2 = some ratio → (shareWith P s best m).1 ≤ ratio := by
  unfold shareWith
  cases hratio : ratio? P s m.1 m.2 with
  | none => exact ⟨hbest, le_refl _, fun _ hsome => by cases hsome⟩
  | some ratio =>
      rw [Option.elim_some]
      by_cases hless : ratio < best.1
      · rw [if_pos hless]
        refine ⟨ratio_nonneg h hm hratio, hless.le, ?_⟩
        intro ratio' hsome
        exact (Option.some.inj hsome).le
      · rw [if_neg hless]
        refine ⟨hbest, le_refl _, ?_⟩
        intro ratio' hsome
        rw [← Option.some.inj hsome]
        exact not_lt.mp hless

theorem foldl_shareWith (h : P.InBox s.x) {todo : List (Nat × K)} (hlt : ∀ m ∈ todo, m.1 < P.size)
    {best : K × Nat} (hbest : 0 ≤ best.1) :
    0 ≤ (todo.foldl (shareWith P s) best).1 ∧ (todo.foldl (shareWith P s) best).1 ≤ best.1 ∧
      ∀ m ∈ todo, ∀ ratio, ratio? P s m.1 m.2 = some ratio →
        (todo.foldl (shareWith P s) best).1 ≤ ratio := by
  induction todo generalizing best with
  | nil => exact ⟨hbest, le_refl _, fun m hm => absurd hm List.not_mem_nil⟩
  | cons m rest ih =>
      have hnext := shareWith_spec h hbest (hlt m List.mem_cons_self)
      rcases ih (fun m' hm' => hlt m' (List.mem_cons_of_mem m hm')) hnext.left with
        ⟨hnonneg, hle, hall⟩
      refine ⟨hnonneg, hle.trans hnext.2.1, ?_⟩
      intro m' hm' ratio hratio
      rcases List.mem_cons.mp hm' with rfl | hrest
      · exact hle.trans (hnext.2.2 ratio hratio)
      · exact hall m' hrest ratio hratio

theorem stepLength_spec (h : P.InBox s.x) {moves : List (Nat × K)} (hmoves : P.AreMoves moves) :
    0 ≤ (stepLength P s moves).1 ∧ (stepLength P s moves).1 ≤ 1 ∧
      ∀ m ∈ moves, ∀ ratio, ratio? P s m.1 m.2 = some ratio →
        (stepLength P s moves).1 ≤ ratio := by
  rw [stepLength_eq_foldl]
  exact foldl_shareWith h hmoves.lt zero_le_one

theorem interpolate_mem (h : P.InBox s.x) {k : Nat} (hk : k < P.size) {z step : K}
    (hnonneg : 0 ≤ step) (hle : step ≤ 1)
    (hratio : ∀ ratio, ratio? P s k z = some ratio → step ≤ ratio) :
    P.lowerAt k ≤ s.x.getD k 0 + step * (z - s.x.getD k 0) ∧
      s.x.getD k 0 + step * (z - s.x.getD k 0) ≤ P.upperAt k := by
  have hlower := h.lower_le k hk
  have hupper := h.le_upper k hk
  unfold ratio? at hratio
  dsimp only at hratio
  generalize s.x.getD k 0 = x at *
  by_cases hlow : z ≤ P.lowerAt k
  · -- the variable goes down, at most to its lower bound
    have hdown : 0 ≤ x - z := sub_nonneg.mpr (hlow.trans hlower)
    have hshare : step * (x - z) ≤ x - P.lowerAt k := by
      have hstep := hratio _ (if_pos hlow)
      rcases hdown.eq_or_lt with hzero | hpos
      · rw [← hzero, mul_zero]
        exact sub_nonneg.mpr hlower
      · exact (le_div_iff₀ hpos).mp hstep
    have hmove := mul_nonneg hnonneg hdown
    constructor <;> linarith
  · by_cases hhigh : P.upperAt k ≤ z
    · have hup : 0 ≤ z - x := sub_nonneg.mpr (hupper.trans hhigh)
      have hshare : step * (z - x) ≤ P.upperAt k - x := by
        have hstep := hratio _ ((if_neg hlow).trans (if_pos hhigh))
        rcases hup.eq_or_lt with hzero | hpos
        · rw [← hzero, mul_zero]
          exact sub_nonneg.mpr hupper
        · exact (le_div_iff₀ hpos).mp hstep
      have hmove := mul_nonneg hnonneg hup
      constructor <;> linarith
    · -- between two points of the interval
      have hbetween : x + step * (z - x) = (1 - step) * x + step * z := by ring
      have hrest := sub_nonneg.mpr hle
      rw [hbetween]
      constructor
      · have hx := mul_le_mul_of_nonneg_left hlower hrest
        have hz := mul_le_mul_of_nonneg_left (not_le.mp hlow).le hnonneg
        linarith
      · have hx := mul_le_mul_of_nonneg_left hupper hrest
        have hz := mul_le_mul_of_nonneg_left (not_le.mp hhigh).le hnonneg
        linarith

/-- Where a move leads: onto a bound, or to the interpolated value. -/
theorem x_moveTowards (P : Problem K) (step : K) (hit : Nat) (s : State K) (k : Nat) (z : K) :
    ∃ v, (moveTowards P step hit s k z).x = s.x.setIfInBounds k v ∧
      (v = P.lowerAt k ∨ v = P.upperAt k ∨
        v = s.x.getD k 0 + step * (z - s.x.getD k 0)) := by
  unfold moveTowards
  dsimp only
  split_ifs
  · exact ⟨_, rfl, Or.inl rfl⟩
  · exact ⟨_, rfl, Or.inr (Or.inl rfl)⟩
  · exact ⟨_, rfl, Or.inr (Or.inr rfl)⟩

theorem partialStep_inBox (hbox : P.IsBox) (h : P.InBox s.x) {moves : List (Nat × K)}
    (hmoves : P.AreMoves moves) : P.InBox (partialStep P s moves).x := by
  rcases stepLength_spec h hmoves with ⟨hnonneg, hle, hratio⟩
  have hclip : clip (stepLength P s moves).1 0 1 = (stepLength P s moves).1 := by
    unfold clip
    rw [if_neg (not_lt.mpr hnonneg), if_neg (not_lt.mpr hle)]
  -- the variables still to be moved are where the step found them
  suffices hfold : ∀ (todo : List (Nat × K)) (t : State K), (∀ m ∈ todo, m ∈ moves) →
      (todo.map (·.1)).Nodup → P.InBox t.x →
      (∀ m ∈ todo, t.x.getD m.1 0 = s.x.getD m.1 0) →
      P.InBox (todo.foldl (fun t m => moveTowards P (stepLength P s moves).1
        (stepLength P s moves).2 t m.1 m.2) t).x by
    unfold partialStep
    dsimp only
    rw [hclip]
    exact hfold moves s (fun _ hm => hm) hmoves.nodup h fun _ _ => rfl
  intro todo
  induction todo with
  | nil =>
      intro t _ _ ht _
      exact ht
  | cons m rest ih =>
      intro t hmem hnodup ht hkept
      rw [List.map_cons, List.nodup_cons] at hnodup
      have hm := hmem m List.mem_cons_self
      have hlt := hmoves.lt m hm
      rcases x_moveTowards P (stepLength P s moves).1 (stepLength P s moves).2 t m.1 m.2 with
        ⟨v, hx, hv⟩
      have hin : P.lowerAt m.1 ≤ v ∧ v ≤ P.upperAt m.1 := by
        rcases hv with rfl | rfl | rfl
        · exact ⟨le_refl _, hbox.le _ hlt⟩
        · exact ⟨hbox.le _ hlt, le_refl _⟩
        · rw [hkept m List.mem_cons_self]
          exact interpolate_mem h hlt hnonneg hle (hratio m hm)
      apply ih _ (fun m' hm' => hmem m' (List.mem_cons_of_mem m hm')) hnodup.right
      · rw [hx]
        exact ht.set hin.left hin.right
      · intro m' hm'
        have hne : m.1 ≠ m'.1 := fun heq =>
          hnodup.left (heq ▸ List.mem_map_of_mem hm')
        rw [hx, Ldl.getD_setIfInBounds_ne _ _ _ hne]
        exact hkept m' (List.mem_cons_of_mem m hm')

/-!
## The search
-/

def Pass.state : Pass K → State K
  | .settled s => s
  | .unsettled s => s

theorem pass_inBox (hbox : P.IsBox) (h : P.InBox s.x) {solver : DefiniteSolver K}
    {entering : Option (Nat × BoundState)} {r : Pass K}
    (hpass : P.pass solver s entering = .ok r) : P.InBox r.state.x := by
  unfold pass at hpass
  rcases Ldl.bind_eq_ok.mp hpass with ⟨z, _, hpass⟩
  have hmoves := areMoves_zip (P := P) s z
  dsimp only at hpass
  generalize ((P.freeVariables s).zip z).toList = moves at hpass hmoves
  split at hpass
  · cases hpass
    exact h
  · by_cases hinside : (moves.all fun m => P.lowerAt m.1 < m.2 && m.2 < P.upperAt m.1) = true
    · rw [if_pos hinside] at hpass
      cases hpass
      apply foldl_set_inBox _ h
      intro m hm
      have hm' := List.all_eq_true.mp hinside m hm
      rwa [Bool.and_eq_true, decide_eq_true_eq, decide_eq_true_eq] at hm'
    · rw [if_neg hinside] at hpass
      have hstep := partialStep_inBox hbox h hmoves
      split_ifs at hpass
      · cases hpass
        exact hstep
      · cases hpass
        exact hstep

theorem x_release {α : Type} [Scalar α] (P : Problem α) (s : State α) :
    (P.release s).1.x = s.x := by
  unfold release
  dsimp only
  cases P.entering? (P.look s) with
  | none => rfl
  | some j => rfl

theorem search_inBox (hbox : P.IsBox) {solver : DefiniteSolver K} (left : Nat) {s : State K}
    (h : P.InBox s.x) {entering : Option (Nat × BoundState)} {x : Array K}
    (hsearch : P.search solver left s entering = .ok x) : P.InBox x := by
  induction left generalizing s entering with
  | zero => cases hsearch
  | succ left ih =>
      unfold search at hsearch
      rcases Ldl.bind_eq_ok.mp hsearch with ⟨r, hpass, hsearch⟩
      have hr := pass_inBox hbox h hpass
      cases r with
      | unsettled t => exact ih hr hsearch
      | settled t =>
          have hreleased : P.InBox (P.release t).1.x := by
            rw [x_release]
            exact hr
          dsimp only at hsearch
          rcases hrelease : P.release t with ⟨t', entering'⟩
          rw [hrelease] at hsearch hreleased
          cases entering' with
          | none =>
              cases hsearch
              exact hreleased
          | some e => exact ih hreleased hsearch

theorem solveBy_inBox {solver : DefiniteSolver K} {x : Array K}
    (h : P.solveBy solver = .ok x) : P.InBox x := by
  unfold solveBy at h
  rcases Ldl.bind_eq_ok.mp h with ⟨⟨⟩, hcheck, h⟩
  have hbox := check_eq_ok hcheck
  have hstart : P.InBox (P.release P.initial).1.x := by
    rw [x_release]
    exact hbox.inBox_lower
  rcases hrelease : P.release P.initial with ⟨s, entering⟩
  rw [hrelease] at h hstart
  cases entering with
  | none =>
      cases h
      exact hstart
  | some e => exact search_inBox hbox _ hstart h

end Problem
end BoundedLeastSquares
end SoftMargin
