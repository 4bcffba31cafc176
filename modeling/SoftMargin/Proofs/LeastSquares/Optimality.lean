import SoftMargin.Proofs.LeastSquares.Gradient
import SoftMargin.LeastSquares.Cholesky

/-!
# The minimizer within the bounds

Whenever the outer loop looks for a variable, the gradient vanishes on the free
ones. So a variable that is freed moves away from its bound, none is ever sent
back and blocked, and where no release promises a gain every bound variable is
held on its bound by the gradient. Over a convex cost that is the minimizer, up
to the gains that are not pursued.
-/

namespace SoftMargin
namespace BoundedLeastSquares
namespace Problem

open Scalar Finset

variable {K : Type} [ExactScalar K] {P : Problem K} {solver : DefiniteSolver K} {s t : State K}
  {x z : Array K} {j : Nat} {source : BoundState}

/-!
## States of the search
-/

omit [ExactScalar K] in
theorem IsSized.mem_freeVariables (h : P.IsSized s) {k : Nat} :
    k ∈ P.freeVariables s ↔ s.bound[k]? = some .free := by
  unfold freeVariables
  rw [Array.mem_filter, Array.mem_range, decide_eq_true_eq, ← h.bound]
  constructor
  · rintro ⟨hk, hfree⟩
    rw [getD_of_lt _ _ hk] at hfree
    rw [Array.getElem?_eq_getElem hk, hfree]
  · intro hfree
    rcases Array.getElem?_eq_some_iff.mp hfree with ⟨hk, hget⟩
    exact ⟨hk, (getD_of_lt _ _ hk).trans hget⟩

def IsOn (P : Problem K) (k : Nat) (v : K) : BoundState → Prop
  | .lower => v = P.lowerAt k
  | .upper => v = P.upperAt k
  | .free => True

/-- The bound variables have the values of their bounds, the others are within theirs, and none is
blocked. -/
structure IsPlaced (P : Problem K) (s : State K) : Prop where
  sized : P.IsSized s
  inBox : P.InBox s.x
  isOn : ∀ k b, s.bound[k]? = some b → P.IsOn k (s.x.getD k 0) b
  unblocked : ∀ k, s.blocked.getD k false = false

structure IsSettled (P : Problem K) (s : State K) : Prop extends IsPlaced P s where
  stationary : ∀ k ∈ P.freeVariables s, P.gradientAt s.x k = 0

/-- The free variables were at their minimizer before `j` was freed, which the gradient draws away
from its bound. -/
structure IsEntering (P : Problem K) (s : State K) (j : Nat) (source : BoundState) : Prop where
  free : j ∈ P.freeVariables s
  stationary : ∀ k ∈ P.freeVariables s, k ≠ j → P.gradientAt s.x k = 0
  drawn : source = .lower ∧ 0 < P.gradientAt s.x j ∨ source = .upper ∧ P.gradientAt s.x j < 0

def Keeps (P : Problem K) : Head K → Prop
  | .outer s => P.IsSettled s
  | .inner s entering => P.IsPlaced s ∧ ∀ j source, entering = some (j, source) →
      P.IsEntering s j source

theorem getD_map_false (blocked : Array Bool) (k : Nat) :
    (blocked.map fun _ => false).getD k false = false := by
  rcases Nat.lt_or_ge k blocked.size with hk | hk
  · rw [getD_of_lt _ _ (by simpa using hk), Array.getElem_map]
  · exact getD_of_size_le _ _ (by simpa using hk)

/-!
## Freeing a variable
-/

theorem isSettled_initial (hbox : P.IsBox) : P.IsSettled P.initial := by
  have hsized := isSized_initial hbox.size_lower
  have hlower : ∀ (k : Nat) (b : BoundState), P.initial.bound[k]? = some b → b = .lower := by
    intro k b hk
    rcases Array.getElem?_eq_some_iff.mp hk with ⟨_, hget⟩
    exact hget.symm.trans (Array.getElem_replicate _)
  refine ⟨⟨hsized, hbox.inBox_lower, ?_, ?_⟩, ?_⟩
  · intro k b hk
    rw [hlower k b hk]
    rfl
  · intro k
    rcases Nat.lt_or_ge k P.size with hlt | hge
    · exact (getD_of_lt _ _ (by simpa [initial] using hlt)).trans (Array.getElem_replicate _)
    · exact getD_of_size_le _ _ (by simpa [initial] using hge)
  · intro k hk
    cases hlower k _ (hsized.mem_freeVariables.mp hk)

theorem tolerance_pos (P : Problem K) : 0 < P.tolerance := by
  have hnorm := maxNorm_nonneg (P.matrix.transposeMul P.target)
  exact mul_pos toleranceScale_pos (by linarith)

theorem IsPlaced.gain?_look_lower (hbox : P.IsBox) (hs : P.IsPlaced s) (hj : j < P.size)
    (hbound : s.bound[j]? = some .lower) :
    gain? (P.look s) j = some (P.gradientAt s.x j) := by
  rw [← P.getD_gradient_look hbox hs.sized hj]
  exact gain?_lower (s := P.look s) (hs.unblocked j) hbound

theorem IsPlaced.gain?_look_upper (hbox : P.IsBox) (hs : P.IsPlaced s) (hj : j < P.size)
    (hbound : s.bound[j]? = some .upper) :
    gain? (P.look s) j = some (-P.gradientAt s.x j) := by
  rw [← P.getD_gradient_look hbox hs.sized hj]
  exact gain?_upper (s := P.look s) (hs.unblocked j) hbound

theorem IsPlaced.drawn (hbox : P.IsBox) (hs : P.IsPlaced s)
    (hentering : P.entering? (P.look s) = some j) :
    s.bound[j]? = some .lower ∧ 0 < P.gradientAt s.x j ∨
      s.bound[j]? = some .upper ∧ P.gradientAt s.x j < 0 := by
  rcases P.entering?_cases (P.look s) with ⟨hnone, _⟩ | ⟨j', hj, hsome, gain, hgain, hlt⟩
  · cases hentering.symm.trans hnone
  · cases hentering.symm.trans hsome
    have hpos := (P.tolerance_pos).trans hlt
    have hbound : j < s.bound.size := hs.sized.bound.symm ▸ hj
    rcases hb : s.bound[j] with _ | _ | _
    · have hlower : s.bound[j]? = some .lower := Array.getElem?_eq_some_iff.mpr ⟨hbound, hb⟩
      cases hgain.symm.trans (hs.gain?_look_lower hbox hj hlower)
      exact Or.inl ⟨hlower, hpos⟩
    · have hupper : s.bound[j]? = some .upper := Array.getElem?_eq_some_iff.mpr ⟨hbound, hb⟩
      cases hgain.symm.trans (hs.gain?_look_upper hbox hj hupper)
      exact Or.inr ⟨hupper, neg_pos.mp hpos⟩
    · have hfree : s.bound[j]? = some .free := Array.getElem?_eq_some_iff.mpr ⟨hbound, hb⟩
      cases hgain.symm.trans (gain?_free (s := P.look s) (hs.unblocked j) hfree)

theorem IsSettled.release (hbox : P.IsBox) (hs : P.IsSettled s)
    (hrelease : P.release s = (t, some (j, source))) :
    P.IsPlaced t ∧ P.IsEntering t j source := by
  have hsized := hs.sized.release hrelease
  rcases release_cases P s with ⟨_, heq⟩ | ⟨j', hentering, heq⟩
  · cases hrelease.symm.trans heq
  · cases hrelease.symm.trans heq
    have hdrawn := hs.drawn hbox hentering
    have hbound : j < s.bound.size := by
      rcases hdrawn with ⟨hb, _⟩ | ⟨hb, _⟩
      · exact (Array.getElem?_eq_some_iff.mp hb).1
      · exact (Array.getElem?_eq_some_iff.mp hb).1
    have hself : (s.bound.setIfInBounds j BoundState.free)[j]? = some .free :=
      Array.getElem?_setIfInBounds_self_of_lt hbound
    have hother : ∀ k, k ≠ j →
        (s.bound.setIfInBounds j BoundState.free)[k]? = s.bound[k]? := fun k hkj =>
      Array.getElem?_setIfInBounds_ne (Ne.symm hkj)
    refine ⟨⟨hsized, hs.inBox, ?_, hs.unblocked⟩, ?_, ?_, ?_⟩
    · intro k b hk
      by_cases hkj : k = j
      · rw [hkj] at hk
        cases hself.symm.trans hk
        trivial
      · exact hs.isOn k b ((hother k hkj).symm.trans hk)
    · exact hsized.mem_freeVariables.mpr hself
    · intro k hk hkj
      refine hs.stationary k (hs.sized.mem_freeVariables.mpr ?_)
      exact (hother k hkj).symm.trans (hsized.mem_freeVariables.mp hk)
    · rw [s.bound.getD_eq_getD_getElem?]
      rcases hdrawn with ⟨hb, hsign⟩ | ⟨hb, hsign⟩
      · rw [hb]
        exact Or.inl ⟨rfl, hsign⟩
      · rw [hb]
        exact Or.inr ⟨rfl, hsign⟩

/-!
## Passes
-/

/-- The minimizer lies where the gradient draws the variable that has been freed. -/
theorem IsEntering.gradientAt_mul_pos (hsolver : IsExactSolver solver) (hbox : P.IsBox)
    (hs : P.IsPlaced s) (hentering : P.IsEntering s j source) (hplain : P.IsPlain solver s)
    (hz : P.freeMinimizer solver s.x (P.freeVariables s) = .ok z) :
    0 < P.gradientAt s.x j * ((arrived s (P.moves s z)).x.getD j 0 - s.x.getD j 0) := by
  have hvanish : ∀ k ∈ P.freeVariables s, P.gradientAt (arrived s (P.moves s z)).x k = 0 :=
    fun k hk => gradientAt_arrived hsolver hbox hs.sized hplain hz hk
  have hkept : ∀ k ∉ P.freeVariables s,
      (arrived s (P.moves s z)).x.getD k 0 = s.x.getD k 0 := fun k hk => getD_arrived_of_bound hk
  generalize (arrived s (P.moves s z)).x = y at hvanish hkept
  -- of the free variables only the one that has been freed has a gradient to follow
  have hsquare : ∑ r ∈ range P.matrix.rows, P.changeAt s.x y r ^ 2 =
      P.gradientAt s.x j * (y.getD j 0 - s.x.getD j 0) := by
    rw [P.sum_changeAt_sq, sum_eq_single_of_mem j
      (mem_range.mpr (lt_of_mem_freeVariables hentering.free))]
    · rw [hvanish j hentering.free, sub_zero]
    · intro c _ hcj
      by_cases hc : c ∈ P.freeVariables s
      · rw [hentering.stationary c hc hcj, hvanish c hc, sub_zero, zero_mul]
      · rw [hkept c hc, sub_self, mul_zero]
  have hnonneg : 0 ≤ ∑ r ∈ range P.matrix.rows, P.changeAt s.x y r ^ 2 :=
    sum_nonneg fun r _ => sq_nonneg _
  rw [← hsquare]
  refine hnonneg.lt_of_ne' ?_
  intro hzero
  -- without a change the gradient would have vanished before
  have hgradient := P.gradientAt_sub s.x y j
  rw [hvanish j hentering.free, sub_zero, sum_eq_zero] at hgradient
  · rcases hentering.drawn with ⟨_, hsign⟩ | ⟨_, hsign⟩
    · exact hsign.ne' hgradient
    · exact hsign.ne hgradient
  · intro r hr
    rw [eq_zero_of_sum_sq hzero (mem_range.mp hr), mul_zero]

theorem getD_find_moves (hs : P.IsSized s) (hz : z.size = (P.freeVariables s).size)
    (hj : j ∈ P.freeVariables s) (d : K) :
    (((P.moves s z).find? fun m => m.1 == j).map (·.2)).getD d =
      (arrived s (P.moves s z)).x.getD j 0 := by
  cases hfind : (P.moves s z).find? fun m => m.1 == j with
  | none =>
      rcases Array.mem_iff_getElem.mp hj with ⟨i, hi, rfl⟩
      have hmem := mem_moves_getD hz hi
      rw [getD_of_lt _ _ hi] at hmem
      exact absurd (beq_self_eq_true _) (List.find?_eq_none.mp hfind _ hmem)
  | some m =>
      have hkey := List.find?_some hfind
      rw [beq_iff_eq] at hkey
      rw [← hkey, getD_arrived_of_mem hs (List.mem_of_find?_eq_some hfind)]
      rfl

theorem IsEntering.goingBack?_eq_none (hsolver : IsExactSolver solver) (hbox : P.IsBox)
    (hs : P.IsPlaced s) (hentering : P.IsEntering s j source) (hplain : P.IsPlain solver s)
    (hz : P.freeMinimizer solver s.x (P.freeVariables s) = .ok z) :
    P.goingBack? s z (some (j, source)) = none := by
  have hmoves := hentering.gradientAt_mul_pos hsolver hbox hs hplain hz
  have hsize := (freeMinimizer_spec hsolver hbox hplain hz).left
  unfold goingBack?
  rw [Option.filter_some]
  refine if_neg ?_
  dsimp only
  rw [getD_find_moves hs.sized hsize hentering.free]
  rcases hentering.drawn with ⟨rfl, hsign⟩ | ⟨rfl, hsign⟩
  · have hup := sub_pos.mp ((pos_iff_pos_of_mul_pos hmoves).mp hsign)
    simp only [goesBack, decide_eq_true_eq, not_le]
    exact hup
  · have hdown := sub_neg.mp ((neg_iff_neg_of_mul_pos hmoves).mp hsign)
    simp only [goesBack, decide_eq_true_eq, not_le]
    exact hdown

theorem isOn_landing (P : Problem K) (step : K) (hit k : Nat) (old z : K) :
    P.IsOn k (landing P step hit k old z).1 (landing P step hit k old z).2 := by
  unfold landing
  dsimp only
  split_ifs
  · rfl
  · rfl
  · trivial

theorem IsPlaced.partialStep (hbox : P.IsBox) (hs : P.IsPlaced s) (z : Array K) :
    P.IsPlaced (partialStep P s (P.moves s z)) := by
  have hlands := partialStep_lands hs.sized z
  refine ⟨hlands.isSized hs.sized, partialStep_inBox hbox hs.inBox (areMoves_zip s z), ?_, ?_⟩
  · intro k b hk
    by_cases hmoved : k ∈ (P.moves s z).map (·.1)
    · rcases List.mem_map.mp hmoved with ⟨m, hm, rfl⟩
      cases (hlands.bound_moved m hm).symm.trans hk
      rw [hlands.x_moved m hm]
      exact P.isOn_landing _ _ m.1 _ m.2
    · rw [hlands.x_kept k hmoved]
      exact hs.isOn k b ((hlands.bound_kept k hmoved).symm.trans hk)
  · intro k
    rw [hlands.blocked_eq]
    exact hs.unblocked k

theorem IsPlaced.arrived (hsolver : IsExactSolver solver) (hbox : P.IsBox) (hs : P.IsPlaced s)
    (hplain : P.IsPlain solver s) (hz : P.freeMinimizer solver s.x (P.freeVariables s) = .ok z)
    (hinside : P.isInside (P.moves s z) = true) : P.IsSettled (arrived s (P.moves s z)) := by
  have hsized : P.IsSized (Problem.arrived s (P.moves s z)) :=
    ⟨(Ldl.size_foldl_set _ _).trans hs.sized.x, hs.sized.bound,
      Array.size_map.trans hs.sized.blocked, hs.sized.gradient⟩
  refine ⟨⟨hsized, foldl_set_inBox (isInside_iff.mp hinside) hs.inBox, ?_, getD_map_false _⟩, ?_⟩
  · intro k b hk
    by_cases hfree : k ∈ P.freeVariables s
    · cases (hs.sized.mem_freeVariables.mp hfree).symm.trans hk
      trivial
    · rw [getD_arrived_of_bound hfree]
      exact hs.isOn k b hk
  · intro k hk
    exact gradientAt_arrived hsolver hbox hs.sized hplain hz hk

/-- A pass that sends no variable back settles the free variables or leaves them within their
bounds. -/
theorem IsPlaced.passTo (hsolver : IsExactSolver solver) (hbox : P.IsBox) (hs : P.IsPlaced s)
    (hplain : P.IsPlain solver s) (hz : P.freeMinimizer solver s.x (P.freeVariables s) = .ok z)
    {entering : Option (Nat × BoundState)} (hback : P.goingBack? s z entering = none) :
    P.Keeps (P.passTo s entering z).head := by
  unfold Problem.passTo
  rw [hback]
  dsimp only
  by_cases hinside : P.isInside (P.moves s z) = true
  · rw [if_pos hinside]
    exact hs.arrived hsolver hbox hplain hz hinside
  · rw [if_neg hinside]
    have hstep := hs.partialStep hbox z
    unfold stepped
    dsimp only
    split_ifs with hnone
    · refine ⟨⟨hstep.sized.unblock, hstep.inBox, hstep.isOn, getD_map_false _⟩, ?_⟩
      intro k hk
      have hfree := hstep.sized.mem_freeVariables.mp hk
      rcases Array.getElem?_eq_some_iff.mp hfree with ⟨hlt, hget⟩
      have hbound := Array.all_eq_true.mp hnone k hlt
      rw [hget] at hbound
      cases hbound
    · exact ⟨hstep, fun _ _ h => by cases h⟩

def NeedsNoRidge (P : Problem K) (solver : DefiniteSolver K) : Prop :=
  ∀ n s entering, P.Reaches solver n (.inner s entering) → n < P.passLimit → P.IsPlain solver s

theorem Reaches.keeps (hsolver : IsExactSolver solver) (hbox : P.IsBox)
    (hplain : P.NeedsNoRidge solver) {n : Nat} {head : Head K} (h : P.Reaches solver n head) :
    P.Keeps head := by
  induction h with
  | start => exact isSettled_initial hbox
  | @release n s t e hreach hrelease ih =>
      rcases e with ⟨j, source⟩
      have hrelease := IsSettled.release hbox ih hrelease
      refine ⟨hrelease.left, ?_⟩
      intro j' source' hentering
      cases hentering
      exact hrelease.right
  | @pass n s entering r hreach hleft hpass ih =>
      have hanswered := hplain n s entering hreach hleft
      rcases pass_eq_ok hpass with ⟨z, hz, rfl⟩
      apply ih.left.passTo hsolver hbox hanswered hz
      rcases entering with _ | ⟨j, source⟩
      · rfl
      · exact (ih.right j source rfl).goingBack?_eq_none hsolver hbox ih.left hanswered hz

/-!
## What is found
-/

/-- Within the bounds, and no variable that a bound leaves room gains more than the tolerance. -/
structure IsNearlyOptimal (P : Problem K) (x : Array K) : Prop where
  inBox : P.InBox x
  gradient_le : ∀ k < P.size, x.getD k 0 < P.upperAt k → P.gradientAt x k ≤ P.tolerance
  neg_le_gradient : ∀ k < P.size, P.lowerAt k < x.getD k 0 → -P.tolerance ≤ P.gradientAt x k

theorem IsNearlyOptimal.cost_le (h : P.IsNearlyOptimal x) {y : Array K} (hy : P.InBox y) :
    P.cost x / 2 ≤ P.cost y / 2 +
      P.tolerance * ∑ k ∈ range P.size, |x.getD k 0 - y.getD k 0| := by
  have htangent := P.cost_le x y
  have hterms : ∑ k ∈ range P.size, P.gradientAt x k * (y.getD k 0 - x.getD k 0) ≤
      P.tolerance * ∑ k ∈ range P.size, |x.getD k 0 - y.getD k 0| := by
    rw [mul_sum]
    apply sum_le_sum
    intro k hk
    have hk' := mem_range.mp hk
    rcases lt_trichotomy (y.getD k 0) (x.getD k 0) with hlt | heq | hlt
    · have hgradient := h.neg_le_gradient k hk' ((hy.lower_le k hk').trans_lt hlt)
      rw [abs_of_pos (sub_pos.mpr hlt)]
      have hproduct := mul_le_mul_of_nonneg_right hgradient (sub_pos.mpr hlt).le
      linarith
    · rw [heq, sub_self, abs_zero, mul_zero, mul_zero]
    · have hgradient := h.gradient_le k hk' (hlt.trans_le (hy.le_upper k hk'))
      rw [abs_of_neg (sub_neg.mpr hlt), neg_sub]
      exact mul_le_mul_of_nonneg_right hgradient (sub_pos.mpr hlt).le
  linarith

/-- Where no release promises a gain, the bounds hold every variable that has a gradient. -/
theorem IsSettled.isNearlyOptimal (hbox : P.IsBox) (hs : P.IsSettled s)
    (hnone : P.entering? (P.look s) = none) : P.IsNearlyOptimal s.x := by
  rcases P.entering?_cases (P.look s) with ⟨_, hgain⟩ | ⟨j, _, hsome, _⟩
  · have hcases : ∀ k < P.size, P.gradientAt s.x k = 0 ∨
        (s.x.getD k 0 = P.lowerAt k ∧ P.gradientAt s.x k ≤ P.tolerance) ∨
          (s.x.getD k 0 = P.upperAt k ∧ -P.gradientAt s.x k ≤ P.tolerance) := by
      intro k hk
      have hbound : k < s.bound.size := hs.sized.bound.symm ▸ hk
      rcases hb : s.bound[k] with _ | _ | _
      · have hlower : s.bound[k]? = some .lower := Array.getElem?_eq_some_iff.mpr ⟨hbound, hb⟩
        exact Or.inr (Or.inl ⟨hs.isOn k _ hlower,
          not_lt.mp (hgain k hk _ (hs.gain?_look_lower hbox hk hlower))⟩)
      · have hupper : s.bound[k]? = some .upper := Array.getElem?_eq_some_iff.mpr ⟨hbound, hb⟩
        exact Or.inr (Or.inr ⟨hs.isOn k _ hupper,
          not_lt.mp (hgain k hk _ (hs.gain?_look_upper hbox hk hupper))⟩)
      · have hfree : s.bound[k]? = some .free := Array.getElem?_eq_some_iff.mpr ⟨hbound, hb⟩
        exact Or.inl (hs.stationary k (hs.sized.mem_freeVariables.mpr hfree))
    have htolerance := P.tolerance_pos
    refine ⟨hs.inBox, ?_, ?_⟩
    · intro k hk hlt
      rcases hcases k hk with h | ⟨_, h⟩ | ⟨h, _⟩
      · linarith
      · exact h
      · exact absurd h hlt.ne
    · intro k hk hlt
      rcases hcases k hk with h | ⟨h, _⟩ | ⟨_, h⟩
      · linarith
      · exact absurd h hlt.ne'
      · linarith
  · cases hnone.symm.trans hsome

/-- What is found is the minimizer within the bounds, up to gains that are not pursued, if every
system of the search is answered without a ridge. Nothing is ever blocked on the way. -/
theorem solveBy_isNearlyOptimal (hsolver : IsExactSolver solver)
    (hplain : P.NeedsNoRidge solver) (h : P.solveBy solver = .ok x) :
    P.IsNearlyOptimal x ∧
      (∀ y, P.InBox y → P.cost x / 2 ≤ P.cost y / 2 +
        P.tolerance * ∑ k ∈ range P.size, |x.getD k 0 - y.getD k 0|) ∧
      ∀ n head, P.Reaches solver n head → ∀ k, head.state.blocked.getD k false = false := by
  have hbox : P.IsBox := by
    rcases Ldl.bind_eq_ok.mp h with ⟨⟨⟩, hcheck, _⟩
    exact check_eq_ok hcheck
  rcases solveBy_eq_ok h with ⟨n, s, hreach, hnone, rfl⟩
  have hsettled : P.IsSettled s := hreach.keeps hsolver hbox hplain
  have hoptimal := hsettled.isNearlyOptimal hbox hnone
  refine ⟨hoptimal, fun y hy => hoptimal.cost_le hy, ?_⟩
  intro n head hreach k
  have hkeeps := hreach.keeps hsolver hbox hplain
  cases head with
  | outer s => exact hkeeps.unblocked k
  | inner s entering => exact hkeeps.left.unblocked k

def isPlainRound (P : Problem K) (solver : DefiniteSolver K) : Nat × Head K → Bool
  | (_, .outer _) => true
  | (_, .inner s _) => P.IsPlain solver s

theorem needsNoRidge_of_rounds (left : Nat)
    (hended : (P.rounds solver left (0, .outer P.initial)).length < left)
    (h : (P.rounds solver left (0, .outer P.initial)).all (P.isPlainRound solver) = true) :
    P.NeedsNoRidge solver := by
  intro n s entering hreach _
  exact of_decide_eq_true (List.all_eq_true.mp h _ (hreach.mem_rounds hended))

/-- The first variable ends on its upper bound, the second within its bounds after it was on
both. -/
def twoColumns : Problem ℚ :=
  ⟨⟨2, 2, #[3, 4, 12, 5]⟩, #[4, 25], #[0, 0], #[3, 1]⟩

theorem solveBy_isNearlyOptimal_twoColumns :
    twoColumns.solveBy (exactly Cholesky.solve?) = .ok #[3, 5 / 169] ∧
      twoColumns.IsNearlyOptimal #[3, 5 / 169] ∧
      ∀ y, twoColumns.InBox y → twoColumns.cost #[3, 5 / 169] / 2 ≤ twoColumns.cost y / 2 +
        twoColumns.tolerance *
          ∑ k ∈ range 2, |(#[3, 5 / 169] : Array ℚ).getD k 0 - y.getD k 0| := by
  have hsolved : twoColumns.solveBy (exactly Cholesky.solve?) = .ok #[3, 5 / 169] := by
    decide +kernel
  have hfound := solveBy_isNearlyOptimal (isExactSolver_exactly Cholesky.solve?)
    (needsNoRidge_of_rounds 20 (by decide +kernel) (by decide +kernel)) hsolved
  exact ⟨hsolved, hfound.left, hfound.2.1⟩

end Problem
end BoundedLeastSquares
end SoftMargin
