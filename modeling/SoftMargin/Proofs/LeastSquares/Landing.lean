import SoftMargin.Proofs.Exact.Extended
import SoftMargin.Proofs.LeastSquares.Gradient
import SoftMargin.LeastSquares.Cholesky

/-!
# Where a step lands

A step towards a minimizer outside of the bounds goes as far as they allow. The
points on its way lie within the bounds and cost no more than its start. At the
end each variable stands where the step has brought it, or on a bound next to
that, with two exceptions. If no bound stops the step, the first variable is
taken for the one that was stopped and put on its upper bound, wherever it is.
And a variable that is brought next to its upper bound by a short step towards
a value below its lower bound is put on the lower one.
-/

namespace SoftMargin
namespace BoundedLeastSquares
namespace Problem

open Scalar Extended

variable {K : Type} [ExactScalar K] {P : Problem (Extended K)} {s : State (Extended K)}
  {z : Array (Extended K)}

/-!
## Bounds that may be infinite
-/

/-- What is checked of a problem: the shapes agree, and the bounds make a box that may be open
above. -/
structure IsFloored (P : Problem (Extended K)) : Prop where
  size_target : P.target.size = P.matrix.rows
  size_lower : P.lower.size = P.size
  size_upper : P.upper.size = P.size
  finite_lower : ∀ k < P.size, isFinite (P.lowerAt k) = true
  le : ∀ k < P.size, P.lowerAt k ≤ P.upperAt k
  complete : P.matrix.Complete

structure HasRoom (P : Problem (Extended K)) (k : Nat) (v : K) : Prop where
  lower_le : P.lowerAt k ≤ finite v
  le_upper : finite v ≤ P.upperAt k

/-- The vector has a finite entry for each variable, within its bounds. -/
structure IsWithin (P : Problem (Extended K)) (x : Array (Extended K)) : Prop where
  size_eq : x.size = P.size
  hasRoom : ∀ k < P.size, ∃ v, x.getD k 0 = finite v ∧ P.HasRoom k v

theorem isWithin_iff {x : Array (Extended K)} : P.IsWithin x ↔ x.size = P.size ∧
    ∀ k < P.size, isFinite (x.getD k 0) = true ∧ P.lowerAt k ≤ x.getD k 0 ∧
      x.getD k 0 ≤ P.upperAt k := by
  constructor
  · rintro ⟨hsize, hroom⟩
    refine ⟨hsize, ?_⟩
    intro k hk
    rcases hroom k hk with ⟨v, hv, hlower, hupper⟩
    rw [hv]
    exact ⟨rfl, hlower, hupper⟩
  · rintro ⟨hsize, h⟩
    refine ⟨hsize, ?_⟩
    intro k hk
    rcases h k hk with ⟨hfinite, hlower, hupper⟩
    rcases isFinite_iff.mp hfinite with ⟨v, hv⟩
    rw [hv] at hlower hupper
    exact ⟨v, hv, hlower, hupper⟩

instance (P : Problem (Extended K)) (x : Array (Extended K)) : Decidable (P.IsWithin x) :=
  decidable_of_iff' _ isWithin_iff

structure IsMove (P : Problem (Extended K)) (s : State (Extended K)) (m : Nat × Extended K)
    (low old goal : K) : Prop where
  lowerAt_eq : P.lowerAt m.1 = finite low
  x_eq : s.x.getD m.1 0 = finite old
  goal_eq : m.2 = finite goal
  low_le : low ≤ old
  le_upper : finite old ≤ P.upperAt m.1

theorem exists_isMove (hfloor : P.IsFloored) (hs : P.IsWithin s.x) (hz : allFinite z = true)
    {m : Nat × Extended K} (hm : m ∈ P.moves s z) : ∃ low old goal, P.IsMove s m low old goal := by
  have hk := (mem_moves hm).left
  rcases isFinite_iff.mp (hfloor.finite_lower m.1 hk) with ⟨low, hlow⟩
  rcases hs.hasRoom m.1 hk with ⟨old, hold, hroom⟩
  rcases isFinite_iff.mp (allFinite_iff.mp hz m.2 (of_mem_moves hm).right) with ⟨goal, hgoal⟩
  refine ⟨low, old, goal, hlow, hold, hgoal, ?_, hroom.le_upper⟩
  have hle := hroom.lower_le
  rw [hlow] at hle
  exact hle

/-!
## The share of a move
-/

theorem finite_div_cases {part whole : K} (hnonneg : 0 ≤ part) (hle : part ≤ whole) :
    (whole = 0 ∧ finite part / finite whole = undefined) ∨
      0 < whole ∧ finite part / finite whole = finite (part / whole) := by
  rcases (hnonneg.trans hle).eq_or_lt with hzero | hpos
  · left
    have hpart : part = 0 := le_antisymm (hle.trans hzero.ge) hnonneg
    refine ⟨hzero.symm, ?_⟩
    rw [← hzero, hpart]
    exact (if_pos rfl).trans ((if_neg (lt_irrefl 0)).trans (if_neg (lt_irrefl 0)))
  · exact Or.inr ⟨hpos, finite_div_finite part hpos.ne'⟩

theorem mul_le_of_not_lt {part whole step : K} (hnonneg : 0 ≤ part) (hle : part ≤ whole)
    (hstep : ¬finite part / finite whole < finite step) : step * whole ≤ part := by
  rcases finite_div_cases hnonneg hle with ⟨hzero, _⟩ | ⟨hpos, hshare⟩
  · rw [hzero, mul_zero]
    exact hnonneg
  · rw [hshare, finite_lt_finite, not_lt] at hstep
    exact (le_div_iff₀ hpos).mp hstep

theorem div_lt_one_cases {part whole : K} {share : Extended K} (hnonneg : 0 ≤ part)
    (hle : part ≤ whole) (hshare : finite part / finite whole = share) (hlt : share < 1) :
    ∃ step, share = finite step ∧ 0 ≤ step ∧ step < 1 ∧ step * whole = part := by
  rcases finite_div_cases hnonneg hle with ⟨_, hundefined⟩ | ⟨hpos, hfinite⟩
  · rw [← hshare, hundefined] at hlt
    cases hlt
  · rw [← hshare, hfinite] at hlt
    exact ⟨part / whole, hshare.symm.trans hfinite, div_nonneg hnonneg hpos.le, hlt,
      div_mul_cancel₀ part hpos.ne'⟩

section Move

variable {m : Nat × Extended K} {low old goal : K} (hm : P.IsMove s m low old goal)

include hm

theorem IsMove.ratio?_cases :
    (goal ≤ low ∧ ratio? P s m.1 m.2 = some (finite (old - low) / finite (old - goal))) ∨
      (∃ high, low < goal ∧ P.upperAt m.1 = finite high ∧ old ≤ high ∧ high ≤ goal ∧
        ratio? P s m.1 m.2 = some (finite (high - old) / finite (goal - old))) ∨
      low < goal ∧ finite goal ≤ P.upperAt m.1 ∧ ratio? P s m.1 m.2 = none := by
  unfold ratio?
  dsimp only
  rw [hm.lowerAt_eq, hm.x_eq, hm.goal_eq]
  by_cases hlow : goal ≤ low
  · left
    rw [if_pos ((finite_le_finite goal low).mpr hlow), finite_sub_finite, finite_sub_finite]
    exact ⟨hlow, rfl⟩
  · right
    rw [if_neg fun h => hlow ((finite_le_finite goal low).mp h)]
    rcases above_cases hm.le_upper with hhigh | ⟨high, hhigh, hold⟩
    · rw [hhigh]
      exact Or.inr ⟨not_le.mp hlow, trivial, if_neg id⟩
    · rw [hhigh]
      by_cases hle : high ≤ goal
      · left
        rw [if_pos ((finite_le_finite high goal).mpr hle), finite_sub_finite, finite_sub_finite]
        exact ⟨high, not_le.mp hlow, rfl, hold, hle, rfl⟩
      · right
        rw [if_neg fun h => hle ((finite_le_finite high goal).mp h)]
        exact ⟨not_le.mp hlow, (not_le.mp hle).le, rfl⟩

theorem IsMove.hasRoom {step : K} (hnonneg : 0 ≤ step) (hle : step ≤ 1)
    (hratio : ∀ ratio, ratio? P s m.1 m.2 = some ratio → ¬ratio < finite step) :
    P.HasRoom m.1 (old + step * (goal - old)) := by
  have hlow := hm.low_le
  suffices hroom : low ≤ old + step * (goal - old) ∧
      finite (old + step * (goal - old)) ≤ P.upperAt m.1 by
    refine ⟨?_, hroom.right⟩
    rw [hm.lowerAt_eq]
    exact hroom.left
  rcases hm.ratio?_cases with ⟨hdown, heq⟩ | ⟨high, hup, hhigh, hold, hreach, heq⟩ |
    ⟨habove, hbelow, _⟩
  · -- the variable goes down, at most to its lower bound
    have hshare := mul_le_of_not_lt (sub_nonneg.mpr hlow) (sub_le_sub_left hdown old)
      (hratio _ heq)
    have hmove := mul_nonneg hnonneg (sub_nonneg.mpr (hdown.trans hlow))
    exact ⟨by linarith, finite_le_of_le (by linarith) hm.le_upper⟩
  · -- it goes up, at most to its upper bound
    have hshare := mul_le_of_not_lt (sub_nonneg.mpr hold) (sub_le_sub_right hreach old)
      (hratio _ heq)
    have hmove := mul_nonneg hnonneg (sub_nonneg.mpr (hold.trans hreach))
    rw [hhigh]
    exact ⟨by linarith, by rw [finite_le_finite]; linarith⟩
  · -- it stays between two values that are within its bounds
    have hbetween : old + step * (goal - old) = (1 - step) * old + step * goal := by ring
    have hrest := sub_nonneg.mpr hle
    rw [hbetween]
    constructor
    · have hold := mul_le_mul_of_nonneg_left hlow hrest
      have hgoal := mul_le_mul_of_nonneg_left habove.le hnonneg
      linarith
    · have hmax : finite (max old goal) ≤ P.upperAt m.1 := by
        rcases max_choice old goal with h | h
        · rw [h]
          exact hm.le_upper
        · rw [h]
          exact hbelow
      refine finite_le_of_le ?_ hmax
      have hold := mul_le_mul_of_nonneg_left (le_max_left old goal) hrest
      have hgoal := mul_le_mul_of_nonneg_left (le_max_right old goal) hnonneg
      linarith

theorem IsMove.limited {share : Extended K} (hratio : ratio? P s m.1 m.2 = some share)
    (hlt : share < 1) : ∃ step, share = finite step ∧ 0 ≤ step ∧ step < 1 ∧
      (goal ≤ low ∧ old + step * (goal - old) = low ∨
        low < goal ∧ P.upperAt m.1 = finite (old + step * (goal - old))) := by
  rcases hm.ratio?_cases with ⟨hdown, heq⟩ | ⟨high, hup, hhigh, hold, hreach, heq⟩ | ⟨_, _, heq⟩
  · rcases div_lt_one_cases (sub_nonneg.mpr hm.low_le) (sub_le_sub_left hdown old)
      (Option.some.inj (heq.symm.trans hratio)) hlt with ⟨step, hshare, hnonneg, hone, hpart⟩
    exact ⟨step, hshare, hnonneg, hone, Or.inl ⟨hdown, by linarith⟩⟩
  · rcases div_lt_one_cases (sub_nonneg.mpr hold) (sub_le_sub_right hreach old)
      (Option.some.inj (heq.symm.trans hratio)) hlt with ⟨step, hshare, hnonneg, hone, hpart⟩
    refine ⟨step, hshare, hnonneg, hone, Or.inr ⟨hup, ?_⟩⟩
    rw [hhigh, hpart, add_sub_cancel]
  · cases heq.symm.trans hratio

end Move

/-!
## Steps
-/

/-- How a step ends: no bound stops it and the first move is taken for the one that was stopped, or
a bound stops move `hit`. -/
inductive IsStep (P : Problem (Extended K)) (s : State (Extended K))
    (moves : List (Nat × Extended K)) : K → Nat → Prop where
  | free (first : Nat × Extended K) (hhead : moves.head? = some first)
      (hfree : P.Unlimited s moves) : IsStep P s moves 1 first.1
  | limited (step : K) (hit : Nat × Extended K) (hmem : hit ∈ moves)
      (hratio : ratio? P s hit.1 hit.2 = some (finite step)) (hnonneg : 0 ≤ step)
      (hlt : step < 1) (hleast : ∀ m ∈ moves, ∀ ratio, ratio? P s m.1 m.2 = some ratio →
        ¬ratio < finite step) : IsStep P s moves step hit.1

theorem exists_isStep (hfloor : P.IsFloored) (hs : P.IsWithin s.x) (hz : allFinite z = true)
    (hmoves : P.moves s z ≠ []) : ∃ step hit, P.IsStep s (P.moves s z) step hit ∧
      stepLength P s (P.moves s z) = (finite step, hit) := by
  rcases P.stepLength_cases s (P.moves s z) with ⟨heq, hfree⟩ | hlimited
  · rcases List.exists_cons_of_ne_nil hmoves with ⟨first, rest, hcons⟩
    have hhead : (P.moves s z).head? = some first := by
      rw [hcons]
      rfl
    refine ⟨1, first.1, .free first hhead hfree, ?_⟩
    rw [heq, hhead]
    rfl
  · rcases hlimited.exists_move with ⟨m, hm, hkey, hratio⟩
    rcases exists_isMove hfloor hs hz hm with ⟨low, old, goal, hmove⟩
    rcases hmove.limited hratio hlimited.lt_one with ⟨step, hshare, hnonneg, hlt, _⟩
    rw [hshare] at hratio
    refine ⟨step, m.1, .limited step m hm hratio hnonneg hlt ?_, ?_⟩
    · rw [← hshare]
      exact hlimited.least
    · exact Prod.ext hshare hkey.symm

theorem IsStep.bounds {moves : List (Nat × Extended K)} {step : K} {hit : Nat}
    (h : P.IsStep s moves step hit) : 0 ≤ step ∧ step ≤ 1 ∧
      ∀ m ∈ moves, ∀ ratio, ratio? P s m.1 m.2 = some ratio → ¬ratio < finite step := by
  cases h with
  | free first _ hfree => exact ⟨zero_le_one, le_refl 1, hfree⟩
  | limited _ _ _ _ hnonneg hlt hleast => exact ⟨hnonneg, hlt.le, hleast⟩

theorem clip_step {step : K} (hnonneg : 0 ≤ step) (hle : step ≤ 1) :
    clip (finite step) 0 1 = finite step := by
  unfold clip
  rw [zero_eq, one_eq, if_neg fun h => hnonneg.not_gt ((finite_lt_finite step 0).mp h),
    if_neg fun h => hle.not_gt ((finite_lt_finite 1 step).mp h)]

theorem slack_eq (hepsilon : 0 ≤ (epsilon : K)) {k : Nat} {low : K}
    (hlow : P.lowerAt k = finite low) : ∃ slack, P.slack k = finite slack ∧ 0 ≤ slack := by
  have hten : (0 : K) ≤ 10.0 := by
    show (0 : K) ≤ ((OfScientific.ofScientific 100 true 1 : ℚ≥0) : K)
    exact NNRat.cast_nonneg _
  have hmagnitude : 0 ≤ magnitude low := by
    rw [magnitude_eq_abs]
    exact abs_nonneg low
  unfold slack
  rw [hlow, magnitude_finite, epsilon_eq, one_eq, finite_add_finite]
  exact ⟨_, rfl, mul_nonneg (mul_nonneg hepsilon hten) (by linarith)⟩

/-!
## Landing
-/

section Move

variable {m : Nat × Extended K} {low old goal slack : K} (hm : P.IsMove s m low old goal)
  (hslack : P.slack m.1 = finite slack) (step : K) (hit : Nat)

include hm hslack

theorem IsMove.landing_cases :
    ((old + step * (goal - old) ≤ low + slack ∨ goal ≤ low ∧
        (m.1 = hit ∨ P.upperAt m.1 - finite slack ≤ finite (old + step * (goal - old)))) ∧
      landing P (finite step) hit m.1 (s.x.getD m.1 0) m.2 = (finite low, .lower)) ∨
    (low + slack < old + step * (goal - old) ∧ low < goal ∧
        (m.1 = hit ∨ P.upperAt m.1 - finite slack ≤ finite (old + step * (goal - old))) ∧
      landing P (finite step) hit m.1 (s.x.getD m.1 0) m.2 = (P.upperAt m.1, .upper)) ∨
    (low + slack < old + step * (goal - old) ∧ m.1 ≠ hit ∧
        ¬P.upperAt m.1 - finite slack ≤ finite (old + step * (goal - old)) ∧
      landing P (finite step) hit m.1 (s.x.getD m.1 0) m.2 =
        (finite (old + step * (goal - old)), .free)) := by
  unfold landing
  dsimp only
  rw [hm.lowerAt_eq, hm.x_eq, hm.goal_eq, hslack, finite_sub_finite, finite_mul_finite,
    finite_add_finite, finite_add_finite]
  generalize old + step * (goal - old) = place
  split_ifs with hends hlow
  · refine Or.inl ⟨?_, rfl⟩
    rcases hends with hhit | hnear | hhigh
    · exact hlow.symm.imp id fun hdown => ⟨hdown, Or.inl hhit⟩
    · exact Or.inl hnear
    · exact hlow.symm.imp id fun hdown => ⟨hdown, Or.inr hhigh⟩
  · rw [not_or] at hlow
    have hfar : low + slack < place := not_le.mp hlow.right
    refine Or.inr (Or.inl ⟨hfar, not_le.mp hlow.left, ?_, rfl⟩)
    exact hends.imp_right fun h => h.resolve_left hlow.right
  · rw [not_or, not_or] at hends
    exact Or.inr (Or.inr ⟨not_le.mp hends.2.1, hends.1, hends.2.2, rfl⟩)

end Move

/-- The value is the one interpolated, or that of a bound which the slack does not tell from it. -/
def LandsNear (P : Problem (Extended K)) (k : Nat) (v place : Extended K) : Prop :=
  v = place ∨ (v = P.lowerAt k ∨ v = P.upperAt k) ∧ magnitude (v - place) ≤ P.slack k

/-- No bound stops the step, and the first move ends strictly within its bounds. -/
structure Overshoots (P : Problem (Extended K)) (s : State (Extended K))
    (moves : List (Nat × Extended K)) (m : Nat × Extended K) : Prop where
  unlimited : P.Unlimited s moves
  first : moves.head? = some m
  above : P.lowerAt m.1 + P.slack m.1 < m.2
  below : m.2 < P.upperAt m.1 - P.slack m.1

/-- The move is to below the lower bound, and it stops next to the upper one. -/
structure FallsBack (P : Problem (Extended K)) (m : Nat × Extended K) (place : Extended K) :
    Prop where
  down : m.2 ≤ P.lowerAt m.1
  above : P.lowerAt m.1 + P.slack m.1 < place
  stops : P.upperAt m.1 - P.slack m.1 ≤ place

theorem IsStep.of_overshoots {moves : List (Nat × Extended K)} {m : Nat × Extended K} {step : K}
    {hit : Nat} (hstep : P.IsStep s moves step hit) (old goal : K) (h : P.Overshoots s moves m) :
    hit = m.1 ∧ old + step * (goal - old) = goal := by
  cases hstep with
  | free first hhead _ =>
      exact ⟨congrArg Prod.fst (Option.some.inj (hhead.symm.trans h.first)), by ring⟩
  | limited _ hit hmem hratio _ hlt _ => exact absurd hlt (h.unlimited hit hmem _ hratio)

theorem IsStep.at_hit {moves : List (Nat × Extended K)} {m : Nat × Extended K}
    {low old goal step : K} (hstep : P.IsStep s moves step m.1) (hm : P.IsMove s m low old goal)
    (hmem : m ∈ moves) (hnodup : (moves.map (·.1)).Nodup) :
    (P.Unlimited s moves ∧ moves.head? = some m ∧ old + step * (goal - old) = goal) ∨
      (goal ≤ low ∧ old + step * (goal - old) = low) ∨
      (low < goal ∧ P.upperAt m.1 = finite (old + step * (goal - old))) := by
  generalize hhit : m.1 = hit at hstep
  cases hstep with
  | free first hhead hfree =>
      have hfirst := List.inj_on_of_nodup_map hnodup hmem (List.mem_of_mem_head? hhead) hhit
      rw [one_mul, add_sub_cancel, hfirst]
      exact Or.inl ⟨hfree, hhead, rfl⟩
  | limited _ hit hmem' hratio _ hlt _ =>
      cases List.inj_on_of_nodup_map hnodup hmem hmem' hhit
      rcases hm.limited hratio hlt with ⟨step', hshare, _, _, hends⟩
      cases hshare
      exact Or.inr hends

theorem lt_of_not_le_sub {x slack : K} {a : Extended K} (habove : finite x ≤ a)
    (h : ¬a - finite slack ≤ finite x) : finite x < a - finite slack := by
  rcases above_cases habove with rfl | ⟨y, rfl, _⟩
  · trivial
  · rw [finite_sub_finite] at h ⊢
    exact not_le.mp h

section Near

variable {k : Nat} {low place slack : K} (hslack : P.slack k = finite slack)
  (hnonneg : 0 ≤ slack) (hroom : P.HasRoom k place)

include hslack hnonneg hroom

theorem landsNear_lower_iff (hlow : P.lowerAt k = finite low) :
    P.LandsNear k (finite low) (finite place) ↔ place ≤ low + slack := by
  have hle := hroom.lower_le
  rw [hlow, finite_le_finite] at hle
  unfold LandsNear
  rw [hslack, finite_sub_finite, magnitude_finite, finite_le_finite, magnitude_eq_abs,
    abs_of_nonpos (sub_nonpos.mpr hle), neg_sub, sub_le_iff_le_add']
  constructor
  · rintro (heq | ⟨_, hnear⟩)
    · cases heq
      exact le_add_of_nonneg_right hnonneg
    · exact hnear
  · exact fun hnear => Or.inr ⟨Or.inl hlow.symm, hnear⟩

theorem landsNear_upper_iff :
    P.LandsNear k (P.upperAt k) (finite place) ↔
      P.upperAt k - finite slack ≤ finite place := by
  unfold LandsNear
  rcases above_cases hroom.le_upper with hhigh | ⟨high, hhigh, hle⟩
  · rw [hhigh, hslack]
    constructor
    · rintro (heq | ⟨_, hnear⟩)
      · cases heq
      · cases hnear
    · exact fun h => by cases h
  · rw [hhigh, hslack, finite_sub_finite, finite_sub_finite, magnitude_finite, finite_le_finite,
      finite_le_finite, magnitude_eq_abs, abs_of_nonneg (sub_nonneg.mpr hle), sub_le_comm]
    constructor
    · rintro (heq | ⟨_, hnear⟩)
      · cases heq
        exact sub_le_self _ hnonneg
      · exact hnear
    · exact fun hnear => Or.inr ⟨Or.inr rfl, hnear⟩

end Near

/-- A step leaves every variable where it has brought it, or on a bound next to that, but for two
exceptions. -/
theorem IsMove.landsNear_iff {moves : List (Nat × Extended K)} {m : Nat × Extended K}
    {low old goal slack step : K} {hit : Nat} (hm : P.IsMove s m low old goal)
    (hslack : P.slack m.1 = finite slack) (hnonneg : 0 ≤ slack) (hmem : m ∈ moves)
    (hnodup : (moves.map (·.1)).Nodup) (hstep : P.IsStep s moves step hit) :
    P.LandsNear m.1 (landing P (finite step) hit m.1 (s.x.getD m.1 0) m.2).1
        (finite (old + step * (goal - old))) ↔
      ¬P.Overshoots s moves m ∧ ¬P.FallsBack m (finite (old + step * (goal - old))) := by
  have hroom := hm.hasRoom hstep.bounds.1 hstep.bounds.2.1 (hstep.bounds.2.2 m hmem)
  have hover := hstep.of_overshoots (m := m) old goal
  have hhit : m.1 = hit → _ := fun h => (h ▸ hstep).at_hit hm hmem hnodup
  have hcases := hm.landing_cases hslack step hit
  generalize old + step * (goal - old) = place at *
  rcases hcases with ⟨hends, heq⟩ | ⟨hfar, hup, hends, heq⟩ | ⟨hfar, hother, hhigh, heq⟩
  · rw [heq, landsNear_lower_iff hslack hnonneg hroom hm.lowerAt_eq]
    constructor
    · refine fun hnear => ⟨fun h => ?_, fun h => ?_⟩
      · have habove := h.above
        rw [hm.lowerAt_eq, hslack, hm.goal_eq, ← (hover h).2] at habove
        exact hnear.not_gt habove
      · have habove := h.above
        rw [hm.lowerAt_eq, hslack] at habove
        exact hnear.not_gt habove
    · rintro ⟨_, hfalls⟩
      by_contra hfar
      rcases hends.resolve_left hfar with ⟨hdown, hmet | hstops⟩
      · have hnear : place ≤ low := by
          rcases hhit hmet with ⟨_, _, hgoal⟩ | ⟨_, hplace⟩ | ⟨hup, _⟩
          · exact hgoal.trans_le hdown
          · exact hplace.le
          · exact absurd hdown hup.not_ge
        exact hfar (hnear.trans (le_add_of_nonneg_right hnonneg))
      · apply hfalls
        refine ⟨?_, ?_, ?_⟩
        · rw [hm.goal_eq, hm.lowerAt_eq]
          exact hdown
        · rw [hm.lowerAt_eq, hslack]
          exact not_le.mp hfar
        · rw [hslack]
          exact hstops
  · rw [heq, landsNear_upper_iff hslack hnonneg hroom]
    constructor
    · refine fun hnear => ⟨fun h => ?_, fun h => ?_⟩
      · have hbelow := h.below
        rw [hslack, hm.goal_eq, ← (hover h).2] at hbelow
        exact not_lt_of_le hnear hbelow
      · have hdown := h.down
        rw [hm.goal_eq, hm.lowerAt_eq] at hdown
        exact hup.not_ge hdown
    · rintro ⟨hover, _⟩
      by_contra hfar'
      rcases hhit (hends.resolve_right hfar') with ⟨hfree, hhead, hplace⟩ | ⟨hdown, _⟩ | ⟨_, hhigh⟩
      · apply hover
        refine ⟨hfree, hhead, ?_, ?_⟩
        · rw [hm.lowerAt_eq, hslack, hm.goal_eq, ← hplace]
          exact hfar
        · rw [hslack, hm.goal_eq, ← hplace]
          exact lt_of_not_le_sub hroom.le_upper hfar'
      · exact hup.not_ge hdown
      · rw [hhigh, finite_sub_finite] at hfar'
        exact hfar' (sub_le_self place hnonneg)
  · rw [heq]
    refine ⟨fun _ => ⟨fun h => hother (hover h).1.symm, fun h => ?_⟩, fun _ => Or.inl rfl⟩
    have hstops := h.stops
    rw [hslack] at hstops
    exact hhigh hstops

/-!
## A whole step
-/

def interpolated (s : State (Extended K)) (step : Extended K) (moves : List (Nat × Extended K)) :
    Array (Extended K) :=
  (moves.map fun m => (m.1, s.x.getD m.1 0 + step * (m.2 - s.x.getD m.1 0))).foldl
    (fun x m => x.setIfInBounds m.1 m.2) s.x

/-- The problem over the field, with zero for what is not finite. -/
def values (P : Problem (Extended K)) : Problem K where
  matrix := ⟨P.matrix.rows, P.matrix.cols, P.matrix.data.map value⟩
  target := P.target.map value
  lower := P.lower.map value
  upper := P.upper.map value

theorem getD_interpolated_of_mem (hsized : P.IsSized s) (step : Extended K)
    {m : Nat × Extended K} (hm : m ∈ P.moves s z) :
    (interpolated s step (P.moves s z)).getD m.1 0 =
      s.x.getD m.1 0 + step * (m.2 - s.x.getD m.1 0) := by
  have hkeys : ((P.moves s z).map fun m =>
      (m.1, s.x.getD m.1 0 + step * (m.2 - s.x.getD m.1 0))).map (·.1) =
        (P.moves s z).map (·.1) := by
    rw [List.map_map]
    rfl
  exact Ldl.getD_foldl_set_of_mem 0 (hkeys ▸ (areMoves_zip s z).nodup)
    (List.mem_map_of_mem hm) (hsized.x.symm ▸ (mem_moves hm).left)

theorem getD_interpolated_of_not_mem (step : Extended K) {k : Nat}
    (hk : k ∉ (P.moves s z).map (·.1)) :
    (interpolated s step (P.moves s z)).getD k 0 = s.x.getD k 0 := by
  refine Ldl.getD_foldl_set_of_not_mem 0 ?_ s.x
  rw [List.map_map]
  exact hk

theorem IsMove.getD_interpolated (hsized : P.IsSized s) {m : Nat × Extended K}
    {low old goal : K} (hm : P.IsMove s m low old goal) (hmem : m ∈ P.moves s z) (step : K) :
    (interpolated s (finite step) (P.moves s z)).getD m.1 0 =
      finite (old + step * (goal - old)) := by
  rw [getD_interpolated_of_mem hsized _ hmem, hm.x_eq, hm.goal_eq, finite_sub_finite,
    finite_mul_finite, finite_add_finite]

section Step

variable (hfloor : P.IsFloored) (hsized : P.IsSized s) (hs : P.IsWithin s.x)
  (hz : allFinite z = true) {step : K} {hit : Nat} (hstep : P.IsStep s (P.moves s z) step hit)

include hfloor hsized hs hz hstep

theorem IsStep.isWithin_interpolated :
    P.IsWithin (interpolated s (finite step) (P.moves s z)) := by
  refine ⟨(Ldl.size_foldl_set _ _).trans hs.size_eq, ?_⟩
  intro k hk
  by_cases hmoved : k ∈ (P.moves s z).map (·.1)
  · rcases List.mem_map.mp hmoved with ⟨m, hmem, rfl⟩
    rcases exists_isMove hfloor hs hz hmem with ⟨low, old, goal, hm⟩
    exact ⟨_, hm.getD_interpolated hsized hmem step,
      hm.hasRoom hstep.bounds.1 hstep.bounds.2.1 (hstep.bounds.2.2 m hmem)⟩
  · rw [getD_interpolated_of_not_mem _ hmoved]
    exact hs.hasRoom k hk

theorem IsStep.cost_interpolated
    (hcost : P.values.cost ((arrived s (P.moves s z)).x.map value) ≤
      P.values.cost (s.x.map value)) :
    P.values.cost ((interpolated s (finite step) (P.moves s z)).map value) ≤
      P.values.cost (s.x.map value) := by
  have hvalue : ∀ (x : Array (Extended K)) (k : Nat), (x.map value).getD k 0 =
      (x.getD k 0).value := by
    intro x k
    rcases Nat.lt_or_ge k x.size with hk | hk
    · exact getD_map value x 0 0 hk
    · rw [getD_of_size_le x 0 hk, getD_of_size_le _ 0 (Array.size_map.symm ▸ hk)]
      rfl
  refine P.values.cost_interpolate hstep.bounds.1 hstep.bounds.2.1 ?_ hcost
  intro k _
  rw [hvalue, hvalue, hvalue]
  by_cases hmoved : k ∈ (P.moves s z).map (·.1)
  · rcases List.mem_map.mp hmoved with ⟨m, hmem, rfl⟩
    rcases exists_isMove hfloor hs hz hmem with ⟨low, old, goal, hm⟩
    rw [hm.getD_interpolated hsized hmem, getD_arrived_of_mem hsized hmem, hm.x_eq, hm.goal_eq]
    rfl
  · rw [getD_interpolated_of_not_mem _ hmoved, getD_arrived_of_not_mem hmoved, sub_self, mul_zero,
      add_zero]

theorem IsStep.exists_on_bound (hepsilon : 0 ≤ (epsilon : K))
    (hlength : stepLength P s (P.moves s z) = (finite step, hit)) :
    ∃ m ∈ P.moves s z, (P.partialStep s (P.moves s z)).bound[m.1]? = some .lower ∨
      (P.partialStep s (P.moves s z)).bound[m.1]? = some .upper := by
  have hhit : ∃ m ∈ P.moves s z, m.1 = hit := by
    cases hstep with
    | free first hhead _ => exact ⟨first, List.mem_of_mem_head? hhead, rfl⟩
    | limited _ hit hmem _ _ _ _ => exact ⟨hit, hmem, rfl⟩
  rcases hhit with ⟨m, hmem, hkey⟩
  rcases exists_isMove hfloor hs hz hmem with ⟨low, old, goal, hm⟩
  rcases slack_eq hepsilon hm.lowerAt_eq with ⟨slack, hslack, _⟩
  have hlands := partialStep_lands hsized z
  rw [hlength, clip_step hstep.bounds.1 hstep.bounds.2.1] at hlands
  refine ⟨m, hmem, ?_⟩
  rw [hlands.bound_moved m hmem]
  rcases hm.landing_cases hslack step hit with ⟨_, heq⟩ | ⟨_, _, _, heq⟩ | ⟨_, hother, _⟩
  · rw [heq]
    exact Or.inl rfl
  · rw [heq]
    exact Or.inr rfl
  · exact absurd hkey hother

end Step

/-- A step towards a minimizer outside of the bounds goes a share of the way. The place it comes to
is within the bounds and costs no more than its start, and some variable is put on a bound. Every
variable is left at that place or put on a bound next to it, but for one that overshoots or falls
back. -/
theorem partialStep_landsNear_iff (hepsilon : 0 ≤ (epsilon : K)) (hfloor : P.IsFloored)
    (hsized : P.IsSized s) (hs : P.IsWithin s.x) (hz : allFinite z = true)
    (houtside : P.isInside (P.moves s z) = false) :
    ∃ step : K, 0 ≤ step ∧ step ≤ 1 ∧ (stepLength P s (P.moves s z)).1 = finite step ∧
      P.IsWithin (interpolated s (finite step) (P.moves s z)) ∧
      (P.values.cost ((arrived s (P.moves s z)).x.map value) ≤ P.values.cost (s.x.map value) →
        P.values.cost ((interpolated s (finite step) (P.moves s z)).map value) ≤
          P.values.cost (s.x.map value)) ∧
      (∃ m ∈ P.moves s z, (P.partialStep s (P.moves s z)).bound[m.1]? = some .lower ∨
        (P.partialStep s (P.moves s z)).bound[m.1]? = some .upper) ∧
      ∀ m ∈ P.moves s z,
        P.LandsNear m.1 ((P.partialStep s (P.moves s z)).x.getD m.1 0)
            ((interpolated s (finite step) (P.moves s z)).getD m.1 0) ↔
          ¬P.Overshoots s (P.moves s z) m ∧
            ¬P.FallsBack m ((interpolated s (finite step) (P.moves s z)).getD m.1 0) := by
  have hmoves : P.moves s z ≠ [] := by
    intro hnil
    rw [hnil] at houtside
    cases houtside
  rcases exists_isStep hfloor hs hz hmoves with ⟨step, hit, hstep, hlength⟩
  refine ⟨step, hstep.bounds.1, hstep.bounds.2.1, congrArg Prod.fst hlength,
    hstep.isWithin_interpolated hfloor hsized hs hz,
    hstep.cost_interpolated hfloor hsized hs hz,
    hstep.exists_on_bound hfloor hsized hs hz hepsilon hlength, ?_⟩
  intro m hmem
  rcases exists_isMove hfloor hs hz hmem with ⟨low, old, goal, hm⟩
  rcases slack_eq hepsilon hm.lowerAt_eq with ⟨slack, hslack, hnonneg⟩
  have hlands := partialStep_lands hsized z
  rw [hlength, clip_step hstep.bounds.1 hstep.bounds.2.1] at hlands
  rw [hlands.x_moved m hmem, hm.getD_interpolated hsized hmem step]
  exact hm.landsNear_iff hslack hnonneg hmem (areMoves_zip s z).nodup hstep

instance (P : Problem (Extended K)) (k : Nat) (v place : Extended K) :
    Decidable (P.LandsNear k v place) :=
  inferInstanceAs (Decidable (_ ∨ _))

/-- The point `(1, 0)`, on the boundary of the quadrant, leaves nothing of the target. -/
def quadrant : Problem (Extended ℚ) :=
  ⟨⟨2, 2, #[1, 0, 3, 4]⟩, #[1, 0], #[0, 0], #[Extended.infinity, Extended.infinity]⟩

/-- The second variable has been freed and settled, and then the first one was freed. -/
def quadrantState : State (Extended ℚ) where
  x := #[0, finite (3 / 25)]
  bound := #[.free, .free]
  blocked := #[false, false]
  gradient := #[finite (16 / 25), 0]

theorem partialStep_landsNear_iff_quadrant :
    quadrant.isInside (quadrant.moves quadrantState #[1, 0]) = false ∧
      ∃ step : ℚ, (stepLength quadrant quadrantState
          (quadrant.moves quadrantState #[1, 0])).1 = finite step ∧
        ∀ m ∈ quadrant.moves quadrantState #[1, 0],
          quadrant.LandsNear m.1
              ((quadrant.partialStep quadrantState
                (quadrant.moves quadrantState #[1, 0])).x.getD m.1 0)
              ((interpolated quadrantState (finite step)
                (quadrant.moves quadrantState #[1, 0])).getD m.1 0) ↔
            ¬quadrant.Overshoots quadrantState (quadrant.moves quadrantState #[1, 0]) m ∧
              ¬quadrant.FallsBack m ((interpolated quadrantState (finite step)
                (quadrant.moves quadrantState #[1, 0])).getD m.1 0) := by
  have hfloor : quadrant.IsFloored :=
    ⟨rfl, rfl, rfl, by decide +kernel, by decide +kernel, by decide +kernel⟩
  have hwithin : quadrant.IsWithin quadrantState.x := by decide +kernel
  have houtside : quadrant.isInside (quadrant.moves quadrantState #[1, 0]) = false := by
    decide +kernel
  rcases partialStep_landsNear_iff (by decide +kernel) hfloor ⟨rfl, rfl, rfl, rfl⟩ hwithin
    (by decide +kernel) houtside with ⟨step, _, _, hlength, _, _, _, hmoves⟩
  exact ⟨houtside, step, hlength, hmoves⟩

/-- The second variable stops exactly on its lower bound, so nothing limits the step, and the first
one is put on its upper bound although it has come to its minimizer. -/
theorem quadrant_overshoots :
    quadrant.Reaches Cholesky.solve? 1 (.inner quadrantState (some (0, .lower))) ∧
      quadrant.freeMinimizer Cholesky.solve? quadrantState.x
        (quadrant.freeVariables quadrantState) = .ok #[1, 0] ∧
      quadrant.isInside (quadrant.moves quadrantState #[1, 0]) = false ∧
      ¬quadrant.LandsNear 0
        ((quadrant.partialStep quadrantState
          (quadrant.moves quadrantState #[1, 0])).x.getD 0 0)
        ((interpolated quadrantState (stepLength quadrant quadrantState
          (quadrant.moves quadrantState #[1, 0])).1
            (quadrant.moves quadrantState #[1, 0])).getD 0 0) :=
  ⟨reaches_of_mem_rounds 6 (by decide +kernel), by decide +kernel, by decide +kernel,
    by decide +kernel⟩

end Problem
end BoundedLeastSquares
end SoftMargin
