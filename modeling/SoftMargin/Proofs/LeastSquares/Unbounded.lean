import SoftMargin.Proofs.LeastSquares.Landing

/-!
# Variables without an upper bound

An infinite value can come into the search only as the upper bound of a variable
that has none. A variable is put there by a step that no bound stops, and by no
other; as long as no such step is made, all rounds are at finite points within
the bounds. Data that is not finite does no harm, since it lets no variable be
freed.
-/

namespace SoftMargin
namespace BoundedLeastSquares

open Scalar Extended

variable {K : Type} [ExactScalar K]

def KeepsFinite (solver : DefiniteSolver (Extended K)) : Prop :=
  ∀ G g z, allFinite G.data = true → allFinite g = true → solver G g = some z →
    allFinite z = true

def finitely (solver : DefiniteSolver (Extended K)) : DefiniteSolver (Extended K) := fun G g =>
  (solver G g).filter fun z => allFinite z

theorem keepsFinite_finitely (solver : DefiniteSolver (Extended K)) :
    KeepsFinite (finitely solver) :=
  fun _ _ _ _ _ hz => (Option.filter_eq_some_iff.mp hz).right

namespace Problem

variable {P : Problem (Extended K)} {solver : DefiniteSolver (Extended K)}
  {s t : State (Extended K)} {entering : Option (Nat × BoundState)} {x z : Array (Extended K)}

theorem isFloored_of_check (hcheck : P.check = .ok ())
    (hle : ∀ k < P.size, P.lowerAt k ≤ P.upperAt k) : P.IsFloored := by
  unfold check at hcheck
  split_ifs at hcheck with hsize hbounds hcomplete
  simp only [not_or, not_not] at hsize
  refine ⟨hsize.left, hsize.2.1, hsize.2.2, ?_, hle, hcomplete⟩
  intro k hk
  have hlower : k < P.lower.size := hsize.2.1 ▸ hk
  have hzip : k < (P.lower.zip P.upper).size := by
    rw [Array.size_zip, hsize.2.1, hsize.2.2, min_self]
    exact hk
  rw [Bool.not_eq_true, Array.any_eq_false] at hbounds
  have hentry := hbounds k hzip
  rw [Array.getElem_zip, Bool.or_eq_true, not_or, Bool.not_eq_true', Bool.not_eq_false] at hentry
  unfold lowerAt
  rw [getD_of_lt P.lower 0 hlower]
  exact hentry.left

/-!
## Finite data
-/

structure IsFinite (P : Problem (Extended K)) : Prop where
  columns : ∀ c < P.size, allFinite (P.matrix.col c) = true
  target : allFinite P.target = true

theorem isFinite_of_entering (hfloor : P.IsFloored) {j : Nat}
    (hentering : P.entering? s = some j) : P.IsFinite := by
  rcases P.entering?_cases s with ⟨hnone, _⟩ | ⟨j, hj, _, gain, _, hlt⟩
  · cases hentering.symm.trans hnone
  · have htolerance : P.tolerance = finite 1e-10 *
        (finite 1 + maxNorm (P.matrix.transposeMul P.target)) := rfl
    rcases maxNorm_cases (P.matrix.transposeMul P.target) with ⟨hfinite, _⟩ | hnorm | hnorm
    · have hcolumn : ∀ c < P.size, allFinite (P.matrix.col c) = true ∧
          allFinite P.target = true := by
        intro c hc
        have hentry := isFinite_getD hfinite c
        unfold Matrix.transposeMul Matrix.transposeMulAdd at hentry
        have hindex : c < (Array.zipWith (fun c v => 1 * dot (P.matrix.col c) P.target + 0 * v)
            (Array.range P.matrix.cols) (zeros P.matrix.cols)).size := by
          rw [Array.size_zipWith, Array.size_range, zeros, Array.size_replicate, min_self]
          exact hc
        rw [getD_of_lt _ 0 hindex, Array.getElem_zipWith, Array.getElem_range, isFinite_add,
          Bool.and_eq_true, isFinite_mul, Bool.and_eq_true] at hentry
        exact allFinite_of_dot
          ((Matrix.size_col hfloor.complete hc).trans hfloor.size_target.symm) hentry.1.2
      exact ⟨fun c hc => (hcolumn c hc).left, (hcolumn j hj).right⟩
    · have hinfinite : P.tolerance = infinity := by
        rw [htolerance, hnorm]
        exact if_pos toleranceScale_pos
      rw [hinfinite] at hlt
      cases hlt
    · rw [htolerance, hnorm] at hlt
      cases hlt

theorem allFinite_ofFn (rows cols : Nat) {f : Nat → Nat → Extended K}
    (hf : ∀ r < rows, ∀ c < cols, isFinite (f r c) = true) :
    allFinite (Matrix.ofFn rows cols f).data = true := by
  rw [allFinite_iff]
  intro a ha
  rcases List.mem_flatMap.mp (List.mem_toArray.mp ha) with ⟨c, hc, hrow⟩
  rcases List.mem_map.mp hrow with ⟨r, hr, rfl⟩
  exact hf r (List.mem_range.mp hr) c (List.mem_range.mp hc)

theorem allFinite_gram {F : Matrix (Extended K)}
    (hF : ∀ c < F.cols, allFinite (F.col c) = true) : allFinite (gram F).data = true :=
  allFinite_ofFn _ _ fun r hr c hc => isFinite_dot (hF r hr) (hF c hc)

theorem allFinite_withRidge {G : Matrix (Extended K)} (hG : allFinite G.data = true) :
    allFinite (withRidge G).data = true := by
  have hentry : ∀ r c, isFinite (G.entry r c) = true := fun r c => isFinite_getD hG _
  have hscale : isFinite ((List.range G.rows).foldl
      (fun acc i => larger acc (magnitude (G.entry i i))) 0) = true := by
    refine foldl_range_induction (fun _ (acc : Extended K) => isFinite acc = true) _ _ 0 rfl ?_
    intro i _ acc hacc
    have hmagnitude := (isFinite_magnitude (G.entry i i)).trans (hentry i i)
    unfold larger
    split_ifs
    · exact hmagnitude
    · exact hacc
    · exact hmagnitude
  refine allFinite_ofFn _ _ fun r _ c _ => ?_
  split_ifs
  · rw [isFinite_add, isFinite_mul, isFinite_add, hentry, hscale]
    rfl
  · exact hentry r c

theorem allFinite_transposeMul {F : Matrix (Extended K)} {x : Array (Extended K)}
    (hF : ∀ c < F.cols, allFinite (F.col c) = true) (hx : allFinite x = true) :
    allFinite (F.transposeMul x) = true := by
  refine allFinite_zipWith ?_ ?_
  · intro c hc v hv
    rw [isFinite_add, isFinite_mul, isFinite_mul,
      isFinite_dot (hF c (Array.mem_range.mp hc)) hx, hv]
    rfl
  · rw [allFinite_iff]
    intro v hv
    rw [(Array.mem_replicate.mp hv).right]
    rfl

theorem allFinite_freeTarget (hP : P.IsFinite) (hx : allFinite x = true) (free : Array Nat) :
    allFinite (P.freeTarget x free) = true := by
  refine foldl_range_induction (fun _ (rhs : Array (Extended K)) => allFinite rhs = true) _ _ _
    hP.target ?_
  intro k hk rhs hrhs
  dsimp only
  split_ifs
  · exact hrhs
  · refine allFinite_zipWith ?_ hrhs
    intro u hu v hv
    rw [isFinite_add, isFinite_mul, isFinite_mul, isFinite_neg, isFinite_getD hx,
      allFinite_iff.mp (hP.columns k hk) u hu, hv]
    rfl

theorem allFinite_of_freeMinimizer (hsolver : KeepsFinite solver) (hfloor : P.IsFloored)
    (hP : P.IsFinite) (hx : allFinite x = true) {free : Array Nat}
    (hfree : ∀ c ∈ free, c < P.matrix.cols) (hz : P.freeMinimizer solver x free = .ok z) :
    allFinite z = true := by
  have hF : ∀ c < (P.matrix.select free).cols,
      allFinite ((P.matrix.select free).col c) = true := by
    intro j hj
    have hlt : j < free.size := hj
    rw [Matrix.col_select hfloor.complete hfree hj, getD_of_lt free 0 hlt]
    exact hP.columns _ (hfree _ (Array.getElem_mem hlt))
  have hG := allFinite_gram hF
  have hg := allFinite_transposeMul hF (allFinite_freeTarget hP hx free)
  unfold freeMinimizer at hz
  dsimp only at hz
  cases hfirst : solver (gram (P.matrix.select free))
      ((P.matrix.select free).transposeMul (P.freeTarget x free)) with
  | some z' =>
      rw [hfirst] at hz
      cases hz
      exact hsolver _ _ _ hG hg hfirst
  | none =>
      rw [hfirst] at hz
      dsimp only at hz
      cases hsecond : solver (withRidge (gram (P.matrix.select free)))
          ((P.matrix.select free).transposeMul (P.freeTarget x free)) with
      | some z' =>
          rw [hsecond] at hz
          cases hz
          exact hsolver _ _ _ (allFinite_withRidge hG) hg hsecond
      | none =>
          rw [hsecond] at hz
          cases hz

/-!
## Steps
-/

/-- The step that a pass takes overshoots towards a bound that is infinite. -/
structure Overruns (P : Problem (Extended K)) (s : State (Extended K))
    (entering : Option (Nat × BoundState)) (z : Array (Extended K)) : Prop where
  stays : P.goingBack? s z entering = none
  outside : P.isInside (P.moves s z) = false
  overshoots : ∃ m, P.Overshoots s (P.moves s z) m ∧ P.upperAt m.1 = infinity

theorem IsWithin.allFinite (h : P.IsWithin x) : allFinite x = true := by
  rw [allFinite_iff]
  intro a ha
  rcases Array.mem_iff_getElem.mp ha with ⟨k, hk, rfl⟩
  rcases h.hasRoom k (h.size_eq ▸ hk) with ⟨v, hv, _⟩
  rw [← getD_of_lt x 0 hk, hv]
  rfl

theorem IsMove.hasRoom_landing_iff {moves : List (Nat × Extended K)} {m : Nat × Extended K}
    {low old goal slack step : K} {hit : Nat} (hm : P.IsMove s m low old goal)
    (hslack : P.slack m.1 = finite slack) (hnonneg : 0 ≤ slack) (hmem : m ∈ moves)
    (hnodup : (moves.map (·.1)).Nodup) (hstep : P.IsStep s moves step hit) :
    (∃ v, (landing P (finite step) hit m.1 (s.x.getD m.1 0) m.2).1 = finite v ∧
        P.HasRoom m.1 v) ↔ ¬(P.Overshoots s moves m ∧ P.upperAt m.1 = infinity) := by
  have hroom := hm.hasRoom hstep.bounds.1 hstep.bounds.2.1 (hstep.bounds.2.2 m hmem)
  have hover := hstep.of_overshoots (m := m) old goal
  have hhit : m.1 = hit → _ := fun h => (h ▸ hstep).at_hit hm hmem hnodup
  have hcases := hm.landing_cases hslack step hit
  generalize old + step * (goal - old) = place at *
  rcases hcases with ⟨hends, heq⟩ | ⟨hfar, hup, hends, heq⟩ | ⟨hfar, hother, hhigh, heq⟩
  · rw [heq]
    have hlower : P.HasRoom m.1 low := by
      refine ⟨?_, finite_le_of_le hm.low_le hm.le_upper⟩
      rw [hm.lowerAt_eq]
      exact le_refl low
    refine ⟨fun _ h => ?_, fun _ => ⟨low, rfl, hlower⟩⟩
    have habove := h.1.above
    rw [hm.lowerAt_eq, hslack, hm.goal_eq, finite_add_finite, finite_lt_finite] at habove
    rcases hends with hnear | ⟨hdown, _⟩
    · rw [(hover h.1).2] at hnear
      exact hnear.not_gt habove
    · exact (hdown.trans (le_add_of_nonneg_right hnonneg)).not_gt habove
  · rw [heq]
    rcases above_cases hroom.le_upper with hhigh | ⟨high, hhigh, hle⟩
    · rw [hhigh]
      constructor
      · rintro ⟨v, hv, _⟩
        cases hv
      · intro hnot
        exfalso
        have hmet : m.1 = hit := by
          rcases hends with hmet | hnear
          · exact hmet
          · rw [hhigh] at hnear
            cases hnear
        rcases hhit hmet with ⟨hfree, hhead, hplace⟩ | ⟨hdown, _⟩ | ⟨_, hupper⟩
        · apply hnot
          refine ⟨⟨hfree, hhead, ?_, ?_⟩, rfl⟩
          · rw [hm.lowerAt_eq, hslack, hm.goal_eq, ← hplace]
            exact hfar
          · rw [hhigh, hslack, hm.goal_eq]
            trivial
        · exact hup.not_ge hdown
        · rw [hhigh] at hupper
          cases hupper
    · rw [hhigh]
      refine ⟨?_, fun _ => ⟨high, rfl, ?_, ?_⟩⟩
      · rintro _ ⟨_, hinfinite⟩
        cases hinfinite
      · have hlower := hroom.lower_le
        rw [hm.lowerAt_eq] at hlower ⊢
        exact le_trans hlower hle
      · rw [hhigh]
        exact le_refl high
  · rw [heq]
    exact ⟨fun _ h => hother (hover h.1).1.symm, fun _ => ⟨place, rfl, hroom⟩⟩

theorem partialStep_isWithin_iff (hepsilon : 0 ≤ (epsilon : K)) (hfloor : P.IsFloored)
    (hsized : P.IsSized s) (hs : P.IsWithin s.x) (hz : allFinite z = true)
    (houtside : P.isInside (P.moves s z) = false) :
    P.IsWithin (P.partialStep s (P.moves s z)).x ↔
      ¬∃ m, P.Overshoots s (P.moves s z) m ∧ P.upperAt m.1 = infinity := by
  have hmoves : P.moves s z ≠ [] := by
    intro hnil
    rw [hnil] at houtside
    cases houtside
  rcases exists_isStep hfloor hs hz hmoves with ⟨step, hit, hstep, hlength⟩
  have hlands := partialStep_lands hsized z
  rw [hlength, clip_step hstep.bounds.1 hstep.bounds.2.1] at hlands
  have hroom : ∀ m ∈ P.moves s z,
      ((∃ v, (P.partialStep s (P.moves s z)).x.getD m.1 0 = finite v ∧ P.HasRoom m.1 v) ↔
        ¬(P.Overshoots s (P.moves s z) m ∧ P.upperAt m.1 = infinity)) := by
    intro m hmem
    rcases exists_isMove hfloor hs hz hmem with ⟨low, old, goal, hm⟩
    rcases slack_eq hepsilon hm.lowerAt_eq with ⟨slack, hslack, hnonneg⟩
    rw [hlands.x_moved m hmem]
    exact hm.hasRoom_landing_iff hslack hnonneg hmem (areMoves_zip s z).nodup hstep
  constructor
  · rintro hwithin ⟨m, hover, hinfinite⟩
    have hmem := List.mem_of_mem_head? hover.first
    exact (hroom m hmem).mp (hwithin.hasRoom m.1 (mem_moves hmem).left) ⟨hover, hinfinite⟩
  · intro hnone
    refine ⟨hlands.size_x.trans hs.size_eq, ?_⟩
    intro k hk
    by_cases hmoved : k ∈ (P.moves s z).map (·.1)
    · rcases List.mem_map.mp hmoved with ⟨m, hmem, rfl⟩
      exact (hroom m hmem).mpr fun h => hnone ⟨m, h⟩
    · rw [hlands.x_kept k hmoved]
      exact hs.hasRoom k hk

theorem arrived_isWithin (hsized : P.IsSized s) (hs : P.IsWithin s.x) (hz : allFinite z = true)
    (hinside : P.isInside (P.moves s z) = true) :
    P.IsWithin (arrived s (P.moves s z)).x := by
  refine ⟨(Ldl.size_foldl_set _ _).trans hs.size_eq, ?_⟩
  intro k hk
  by_cases hmoved : k ∈ (P.moves s z).map (·.1)
  · rcases List.mem_map.mp hmoved with ⟨m, hmem, rfl⟩
    rcases isFinite_iff.mp (allFinite_iff.mp hz m.2 (of_mem_moves hmem).right) with ⟨goal, hgoal⟩
    have hbetween := isInside_iff.mp hinside m hmem
    rw [hgoal] at hbetween
    rw [getD_arrived_of_mem hsized hmem]
    exact ⟨goal, hgoal, le_of_lt hbetween.left, le_of_lt hbetween.right⟩
  · rw [getD_arrived_of_not_mem hmoved]
    exact hs.hasRoom k hk

theorem passTo_isWithin_iff (hepsilon : 0 ≤ (epsilon : K)) (hfloor : P.IsFloored)
    (hsized : P.IsSized s) (hs : P.IsWithin s.x) (hz : allFinite z = true) :
    P.IsWithin (P.passTo s entering z).state.x ↔ ¬P.Overruns s entering z := by
  unfold passTo
  cases hback : P.goingBack? s z entering with
  | some e =>
      refine iff_of_true hs fun h => ?_
      cases hback.symm.trans h.stays
  | none =>
      cases hinside : P.isInside (P.moves s z) with
      | true =>
          refine iff_of_true ?_ fun h => ?_
          · exact arrived_isWithin hsized hs hz hinside
          · cases hinside.symm.trans h.outside
      | false =>
          have hx : (P.stepped s (P.moves s z)).state.x =
              (P.partialStep s (P.moves s z)).x := by
            unfold stepped
            dsimp only
            split_ifs <;> rfl
          change P.IsWithin (P.stepped s (P.moves s z)).state.x ↔ _
          rw [hx, partialStep_isWithin_iff hepsilon hfloor hsized hs hz hinside]
          exact ⟨fun hnone h => hnone h.overshoots, fun hnot h => hnot ⟨hback, hinside, h⟩⟩

/-!
## Rounds
-/

theorem Reaches.isFinite (hfloor : P.IsFloored) {n : Nat}
    (h : P.Reaches solver n (.inner s entering)) : P.IsFinite := by
  generalize hhead : Head.inner s entering = head at h
  induction h generalizing s entering with
  | start => cases hhead
  | @release n s' t e _ hrelease _ =>
      rcases release_cases P s' with ⟨_, heq⟩ | ⟨j, hentering, _⟩
      · cases hrelease.symm.trans heq
      · exact isFinite_of_entering hfloor hentering
  | pass _ _ _ ih => exact ih rfl

def NeverOverruns (P : Problem (Extended K)) (solver : DefiniteSolver (Extended K)) : Prop :=
  ∀ n s entering z, P.Reaches solver n (.inner s entering) → n < P.passLimit →
    P.freeMinimizer solver s.x (P.freeVariables s) = .ok z → ¬P.Overruns s entering z

theorem Reaches.finite_minimizer (hsolver : KeepsFinite solver) (hfloor : P.IsFloored) {n : Nat}
    (h : P.Reaches solver n (.inner s entering)) (hs : P.IsWithin s.x)
    (hz : P.freeMinimizer solver s.x (P.freeVariables s) = .ok z) : allFinite z = true :=
  allFinite_of_freeMinimizer hsolver hfloor (h.isFinite hfloor) hs.allFinite
    (fun _ hc => lt_of_mem_freeVariables hc) hz

theorem Reaches.isWithin (hepsilon : 0 ≤ (epsilon : K)) (hfloor : P.IsFloored)
    (hsolver : KeepsFinite solver) (hnever : P.NeverOverruns solver) {n : Nat}
    {head : Head (Extended K)} (h : P.Reaches solver n head) : P.IsWithin head.state.x := by
  induction h with
  | start =>
      refine ⟨hfloor.size_lower, ?_⟩
      intro k hk
      rcases isFinite_iff.mp (hfloor.finite_lower k hk) with ⟨low, hlow⟩
      refine ⟨low, hlow, ?_, ?_⟩
      · rw [hlow]
        exact le_refl low
      · rw [← hlow]
        exact hfloor.le k hk
  | @release n s t e _ hrelease ih =>
      have hx : t.x = s.x := by
        rw [← P.x_release s, hrelease]
      change P.IsWithin t.x
      rw [hx]
      exact ih
  | @pass n s entering r hreach hleft hpass ih =>
      rcases pass_eq_ok hpass with ⟨z, hz, rfl⟩
      have hs : P.IsWithin s.x := ih
      rw [Pass.state_head]
      exact (passTo_isWithin_iff hepsilon hfloor (hreach.isSized hfloor.size_lower) hs
        (hreach.finite_minimizer hsolver hfloor hs hz)).mpr (hnever n s entering z hreach hleft hz)

/-- All rounds are at finite points within the bounds, and so is what is found, exactly if no pass
overruns. -/
theorem reached_isWithin_iff (hepsilon : 0 ≤ (epsilon : K)) (hcheck : P.check = .ok ())
    (hle : ∀ k < P.size, P.lowerAt k ≤ P.upperAt k) (hsolver : KeepsFinite solver) :
    ((∀ n head, P.Reaches solver n head → P.IsWithin head.state.x) ↔ P.NeverOverruns solver) ∧
      (P.NeverOverruns solver → ∀ x, P.solveBy solver = .ok x → P.IsWithin x) := by
  have hfloor := isFloored_of_check hcheck hle
  have hreached := fun hnever n head (h : P.Reaches solver n head) =>
    h.isWithin hepsilon hfloor hsolver hnever
  refine ⟨⟨?_, hreached⟩, ?_⟩
  · intro hwithin n s entering z hreach hleft hz
    have hs := hwithin n _ hreach
    have hnext := hwithin _ _ (hreach.pass hleft (pass_eq hz))
    rw [Pass.state_head] at hnext
    exact (passTo_isWithin_iff hepsilon hfloor (hreach.isSized hfloor.size_lower) hs
      (hreach.finite_minimizer hsolver hfloor hs hz)).mp hnext
  · intro hnever x hx
    rcases solveBy_eq_ok hx with ⟨n, s, hreach, _, rfl⟩
    exact hreached hnever n _ hreach

/-- The first variable has no upper bound; the second one leaves its upper bound again. -/
def strip : Problem (Extended ℚ) :=
  ⟨⟨2, 2, #[finite 3, finite 4, finite 12, finite 5]⟩, #[finite 4, finite 25], #[0, 0],
    #[Extended.infinity, 1]⟩

theorem reached_isWithin_iff_strip :
    (∀ n head, strip.Reaches (finitely Cholesky.solve?) n head → strip.IsWithin head.state.x) ∧
      strip.NeverOverruns (finitely Cholesky.solve?) := by
  have hiff := (reached_isWithin_iff (by decide +kernel) (P := strip) (by decide +kernel)
    (by decide +kernel) (keepsFinite_finitely Cholesky.solve?)).left
  have hrounds : ((strip.rounds (finitely Cholesky.solve?) 20 (0, .outer strip.initial)).all
      fun round => strip.IsWithin round.2.state.x) = true := by
    decide +kernel
  have hwithin : ∀ n head, strip.Reaches (finitely Cholesky.solve?) n head →
      strip.IsWithin head.state.x := fun n head h =>
    of_decide_eq_true (List.all_eq_true.mp hrounds _ (h.mem_rounds (by decide +kernel)))
  exact ⟨hwithin, hiff.mp hwithin⟩

/-- A variable without an upper bound is set to infinity, over exact scalars and over doubles. -/
theorem quadrant_escapes :
    quadrant.check = .ok () ∧
      quadrant.solveBy Cholesky.solve? = .ok #[Extended.infinity, 0] ∧
      boundedLeastSquares Cholesky.solve? (⟨2, 2, #[1, 0, 3, 4]⟩ : Matrix Float) #[1, 0] #[0, 0]
        #[1 / 0, 1 / 0] = .ok #[1 / 0, 0] :=
  ⟨by decide +kernel, by decide +kernel, by decide +kernel⟩

end Problem
end BoundedLeastSquares
end SoftMargin
