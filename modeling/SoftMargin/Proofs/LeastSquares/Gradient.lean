import SoftMargin.Proofs.LeastSquares.Passes

/-!
# The gradient of the bounded least squares

The cost of a point is the square of its distance `‖A x - b‖`. The free variables
are at the minimizer of their subproblem where the gradient vanishes on them, and
that is what its normal equations say. From such a point a variable that is freed
moves to the side that the gradient points to.
-/

namespace SoftMargin
namespace BoundedLeastSquares

open Scalar Finset

variable {K : Type} [ExactScalar K]

def IsExactSolver (solver : DefiniteSolver K) : Prop :=
  ∀ G g z, G.cols = G.rows → (∀ i < G.rows, ∀ j < G.rows, G.entry i j = G.entry j i) →
    solver G g = some z →
    z.size = G.rows ∧ ∀ i < G.rows, ∑ j ∈ range G.rows, G.entry i j * z.getD j 0 = g.getD i 0

/-- The method with its answers withheld that do not solve their system. -/
def exactly (solver : DefiniteSolver K) : DefiniteSolver K := fun G g =>
  (solver G g).filter fun z => z.size = G.rows ∧
    ∀ i < G.rows, ∑ j ∈ range G.rows, G.entry i j * z.getD j 0 = g.getD i 0

theorem isExactSolver_exactly (solver : DefiniteSolver K) : IsExactSolver (exactly solver) := by
  intro G g z _ _ hz
  exact of_decide_eq_true (Option.filter_eq_some_iff.mp hz).right

namespace Problem

variable {P : Problem K} {s : State K} {x y z : Array K}

/-!
## The cost of a point
-/

def residualAt (P : Problem K) (x : Array K) (r : Nat) : K :=
  P.target.getD r 0 - ∑ c ∈ range P.size, P.matrix.entry r c * x.getD c 0

/-- The negative gradient of half the cost. -/
def gradientAt (P : Problem K) (x : Array K) (k : Nat) : K :=
  ∑ r ∈ range P.matrix.rows, P.matrix.entry r k * P.residualAt x r

/-- The square of the distance between `A x` and the target. -/
def cost (P : Problem K) (x : Array K) : K :=
  ∑ r ∈ range P.matrix.rows, P.residualAt x r ^ 2

def changeAt (P : Problem K) (x y : Array K) (r : Nat) : K :=
  ∑ c ∈ range P.size, P.matrix.entry r c * (y.getD c 0 - x.getD c 0)

theorem residualAt_eq (P : Problem K) (x y : Array K) (r : Nat) :
    P.residualAt y r = P.residualAt x r - P.changeAt x y r := by
  unfold residualAt changeAt
  simp only [mul_sub, sum_sub_distrib]
  ring

theorem gradientAt_sub (P : Problem K) (x y : Array K) (k : Nat) :
    P.gradientAt x k - P.gradientAt y k =
      ∑ r ∈ range P.matrix.rows, P.matrix.entry r k * P.changeAt x y r := by
  unfold gradientAt
  rw [← sum_sub_distrib]
  apply sum_congr rfl
  intro r _
  rw [P.residualAt_eq x y]
  ring

theorem sum_mul_changeAt (P : Problem K) (x y : Array K) (f : Nat → K) :
    ∑ r ∈ range P.matrix.rows, f r * P.changeAt x y r =
      ∑ c ∈ range P.size,
        (∑ r ∈ range P.matrix.rows, P.matrix.entry r c * f r) * (y.getD c 0 - x.getD c 0) := by
  unfold changeAt
  simp only [mul_sum, sum_mul]
  rw [sum_comm]
  apply sum_congr rfl
  intro c _
  apply sum_congr rfl
  intro r _
  ring

theorem sum_changeAt_sq (P : Problem K) (x y : Array K) :
    ∑ r ∈ range P.matrix.rows, P.changeAt x y r ^ 2 =
      ∑ c ∈ range P.size, (P.gradientAt x c - P.gradientAt y c) * (y.getD c 0 - x.getD c 0) := by
  simp only [pow_two]
  rw [P.sum_mul_changeAt x y fun r => P.changeAt x y r]
  simp only [P.gradientAt_sub x y]

theorem cost_eq (P : Problem K) (x y : Array K) :
    P.cost y = P.cost x - 2 * ∑ c ∈ range P.size, P.gradientAt x c * (y.getD c 0 - x.getD c 0) +
      ∑ r ∈ range P.matrix.rows, P.changeAt x y r ^ 2 := by
  have hlinear := P.sum_mul_changeAt x y (P.residualAt x)
  change _ = ∑ c ∈ range P.size, P.gradientAt x c * (y.getD c 0 - x.getD c 0) at hlinear
  rw [← hlinear, mul_sum, cost, cost, ← sum_sub_distrib, ← sum_add_distrib]
  apply sum_congr rfl
  intro r _
  rw [P.residualAt_eq x y]
  ring

theorem cost_le (P : Problem K) (x y : Array K) :
    P.cost x ≤ P.cost y + 2 * ∑ c ∈ range P.size, P.gradientAt x c * (y.getD c 0 - x.getD c 0) := by
  have hsquare : 0 ≤ ∑ r ∈ range P.matrix.rows, P.changeAt x y r ^ 2 :=
    sum_nonneg fun r _ => sq_nonneg _
  have hcost := P.cost_eq x y
  linarith

/-- On the way to a point that costs no more, no point costs more. -/
theorem cost_interpolate (P : Problem K) {x y w : Array K} {step : K} (hnonneg : 0 ≤ step)
    (hle : step ≤ 1)
    (hw : ∀ k < P.size, w.getD k 0 = x.getD k 0 + step * (y.getD k 0 - x.getD k 0))
    (hcost : P.cost y ≤ P.cost x) : P.cost w ≤ P.cost x := by
  have hmove : ∀ k ∈ range P.size, w.getD k 0 - x.getD k 0 =
      step * (y.getD k 0 - x.getD k 0) := by
    intro k hk
    rw [hw k (mem_range.mp hk), add_sub_cancel_left]
  have hlinear : ∑ c ∈ range P.size, P.gradientAt x c * (w.getD c 0 - x.getD c 0) =
      step * ∑ c ∈ range P.size, P.gradientAt x c * (y.getD c 0 - x.getD c 0) := by
    rw [mul_sum]
    apply sum_congr rfl
    intro c hc
    rw [hmove c hc]
    ring
  have hsquare : ∑ r ∈ range P.matrix.rows, P.changeAt x w r ^ 2 =
      step ^ 2 * ∑ r ∈ range P.matrix.rows, P.changeAt x y r ^ 2 := by
    rw [mul_sum]
    apply sum_congr rfl
    intro r _
    rw [← mul_pow, changeAt, changeAt, mul_sum]
    congr 1
    apply sum_congr rfl
    intro c hc
    rw [hmove c hc]
    ring
  have hsquares : 0 ≤ ∑ r ∈ range P.matrix.rows, P.changeAt x y r ^ 2 :=
    sum_nonneg fun r _ => sq_nonneg _
  have hy := P.cost_eq x y
  have hstep := P.cost_eq x w
  rw [hlinear, hsquare] at hstep
  generalize ∑ r ∈ range P.matrix.rows, P.changeAt x y r ^ 2 = square at *
  generalize ∑ c ∈ range P.size, P.gradientAt x c * (y.getD c 0 - x.getD c 0) = descent at *
  have hdescent : square ≤ 2 * descent := by linarith
  have hshare : step ^ 2 * square ≤ step * square := by
    apply mul_le_mul_of_nonneg_right _ hsquares
    nlinarith
  have hbound := mul_le_mul_of_nonneg_left hdescent hnonneg
  linarith

/-!
## The gradient that is looked at
-/

theorem toleranceScale_pos : (0 : K) < 1e-10 := by
  show (0 : K) < ((OfScientific.ofScientific 1 true 10 : ℚ≥0) : K)
  exact NNRat.cast_pos.mpr (by norm_num)

theorem getD_gradient_look (hbox : P.IsBox) (hs : P.IsSized s) {k : Nat} (hk : k < P.size) :
    (P.look s).gradient.getD k 0 = P.gradientAt s.x k := by
  rcases Matrix.mulAdd_spec hbox.complete (-1) s.x 1 hbox.size_target with ⟨hsize, hrows⟩
  unfold look gradientAt
  dsimp only
  rw [Matrix.getD_transposeMulAdd hbox.complete 1 0 hsize hs.gradient hk, one_mul, zero_mul,
    add_zero]
  apply sum_congr rfl
  intro r hr
  rw [hrows r (mem_range.mp hr)]
  unfold residualAt size
  ring

/-!
## Normal equations
-/

theorem sum_free_eq (s : State K) (f : Nat → K) :
    ∑ c ∈ range P.size, f c = ∑ c ∈ range P.size, (if c ∈ P.freeVariables s then 0 else f c) +
      ∑ i ∈ range (P.freeVariables s).size, f ((P.freeVariables s).getD i 0) := by
  have hsubset : (P.freeVariables s).toList.toFinset ⊆ range P.size := by
    intro c hc
    exact mem_range.mpr (lt_of_mem_freeVariables
      (Array.mem_toList_iff.mp (List.mem_toFinset.mp hc)))
  have hfree : ∑ i ∈ range (P.freeVariables s).size, f ((P.freeVariables s).getD i 0) =
      ∑ c ∈ range P.size, if c ∈ P.freeVariables s then f c else 0 := by
    have hlist := list_sum_map_eq_sum_range (P.freeVariables s).toList 0 f
    simp only [Array.length_toList, List.getD_eq_getElem?_getD, Array.getElem?_toList,
      ← Array.getD_eq_getD_getElem?] at hlist
    rw [← hlist, ← List.sum_toFinset _ (nodup_freeVariables P s)]
    refine Eq.trans ?_ (sum_subset hsubset ?_)
    · apply sum_congr rfl
      intro c hc
      rw [if_pos (Array.mem_toList_iff.mp (List.mem_toFinset.mp hc))]
    · intro c _ hc
      exact if_neg fun hmem => hc (List.mem_toFinset.mpr (Array.mem_toList_iff.mpr hmem))
  rw [hfree, ← sum_add_distrib]
  apply sum_congr rfl
  intro c _
  split_ifs
  · rw [zero_add]
  · rw [add_zero]

theorem freeTarget_spec (hbox : P.IsBox) (x : Array K) (free : Array Nat) :
    (P.freeTarget x free).size = P.matrix.rows ∧ ∀ r < P.matrix.rows,
      (P.freeTarget x free).getD r 0 = P.target.getD r 0 -
        ∑ c ∈ range P.size, if c ∈ free then 0 else P.matrix.entry r c * x.getD c 0 := by
  refine foldl_range_induction
    (fun n (rhs : Array K) => rhs.size = P.matrix.rows ∧ ∀ r < P.matrix.rows,
      rhs.getD r 0 = P.target.getD r 0 -
        ∑ c ∈ range n, if c ∈ free then 0 else P.matrix.entry r c * x.getD c 0)
    _ P.size P.target ⟨hbox.size_target, fun r _ => by rw [sum_range_zero, sub_zero]⟩ ?_
  intro c hc rhs hinv
  rcases hinv with ⟨hsize, hvals⟩
  dsimp only
  by_cases hskip : (same (x.getD c 0) 0 || free.contains c) = true
  · rw [if_pos hskip]
    refine ⟨hsize, ?_⟩
    intro r hr
    have hzero : (if c ∈ free then 0 else P.matrix.entry r c * x.getD c 0) = 0 := by
      rw [Bool.or_eq_true, same_iff, Array.contains_iff_mem] at hskip
      rcases hskip with hx | hmem
      · rw [hx, mul_zero, ite_self]
      · exact if_pos hmem
    rw [sum_range_succ, hzero, add_zero]
    exact hvals r hr
  · rw [if_neg hskip]
    rw [Bool.or_eq_true, Array.contains_iff_mem, not_or] at hskip
    have hcol := Matrix.size_col hbox.complete hc
    refine ⟨by rw [size_combine, hcol, hsize, min_self], ?_⟩
    intro r hr
    rw [getD_combine _ _ (hcol.trans hsize.symm), Matrix.getD_col _ _ hr, hvals r hr,
      sum_range_succ, if_neg hskip.right]
    ring

/-- The system of the free variables is answered without a ridge. -/
def IsPlain (P : Problem K) (solver : DefiniteSolver K) (s : State K) : Prop :=
  (solver (gram (P.matrix.select (P.freeVariables s)))
    ((P.matrix.select (P.freeVariables s)).transposeMul
      (P.freeTarget s.x (P.freeVariables s)))).isSome

instance (P : Problem K) (solver : DefiniteSolver K) (s : State K) :
    Decidable (P.IsPlain solver s) :=
  inferInstanceAs (Decidable (_ = true))

theorem entry_gram {F : Matrix K} (hF : F.Complete) {i j : Nat} (hi : i < F.cols)
    (hj : j < F.cols) :
    (gram F).entry i j = ∑ r ∈ range F.rows, F.entry r i * F.entry r j := by
  unfold gram
  rw [Matrix.entry_ofFn _ _ _ hi hj,
    dot_eq_sum _ _ (Matrix.size_col hF hi) (Matrix.size_col hF hj)]
  apply sum_congr rfl
  intro r hr
  rw [Matrix.getD_col F i (mem_range.mp hr), Matrix.getD_col F j (mem_range.mp hr)]

theorem freeMinimizer_spec {solver : DefiniteSolver K} (hsolver : IsExactSolver solver)
    (hbox : P.IsBox) (hplain : P.IsPlain solver s)
    (hz : P.freeMinimizer solver s.x (P.freeVariables s) = .ok z) :
    z.size = (P.freeVariables s).size ∧ ∀ i < (P.freeVariables s).size,
      ∑ j ∈ range (P.freeVariables s).size,
        (∑ r ∈ range P.matrix.rows, P.matrix.entry r ((P.freeVariables s).getD i 0) *
          P.matrix.entry r ((P.freeVariables s).getD j 0)) * z.getD j 0 =
      ∑ r ∈ range P.matrix.rows, P.matrix.entry r ((P.freeVariables s).getD i 0) *
        (P.freeTarget s.x (P.freeVariables s)).getD r 0 := by
  have hcols : ∀ c ∈ P.freeVariables s, c < P.matrix.cols := fun c hc => lt_of_mem_freeVariables hc
  unfold IsPlain at hplain
  unfold freeMinimizer at hz
  generalize hfree : P.freeVariables s = free at *
  have hF := Matrix.complete_select hbox.complete hcols
  have htarget := P.freeTarget_spec hbox s.x free
  rcases Option.isSome_iff_exists.mp hplain with ⟨z', hz'⟩
  dsimp only at hz
  rw [hz'] at hz
  cases hz
  rcases hsolver _ _ _ rfl (by
    intro i hi j hj
    rw [entry_gram hF hi hj, entry_gram hF hj hi]
    apply sum_congr rfl
    intro r _
    exact mul_comm _ _) hz' with ⟨hsize, hrows⟩
  refine ⟨hsize, ?_⟩
  intro i hi
  have hrow := hrows i hi
  unfold Matrix.transposeMul at hrow
  rw [Matrix.getD_transposeMulAdd hF 1 0 htarget.left (size_zeros _) (by exact hi), one_mul,
    zero_mul, add_zero] at hrow
  calc _ = ∑ j ∈ range free.size, (gram (P.matrix.select free)).entry i j * z.getD j 0 := by
        apply sum_congr rfl
        intro j hj
        rw [entry_gram hF (by exact hi) (by exact mem_range.mp hj)]
        congr 1
        apply sum_congr rfl
        intro r hr
        rw [Matrix.entry_select hbox.complete hcols (mem_range.mp hr) hi,
          Matrix.entry_select hbox.complete hcols (mem_range.mp hr) (mem_range.mp hj)]
    _ = _ := hrow
    _ = _ := by
        apply sum_congr rfl
        intro r hr
        rw [Matrix.entry_select hbox.complete hcols (mem_range.mp hr) hi]

/-!
## Arriving at the minimizer
-/

theorem gradientAt_arrived {solver : DefiniteSolver K} (hsolver : IsExactSolver solver)
    (hbox : P.IsBox) (hs : P.IsSized s) (hplain : P.IsPlain solver s)
    (hz : P.freeMinimizer solver s.x (P.freeVariables s) = .ok z) {k : Nat}
    (hk : k ∈ P.freeVariables s) :
    P.gradientAt (arrived s (P.moves s z)).x k = 0 := by
  rcases freeMinimizer_spec hsolver hbox hplain hz with ⟨hsize, hnormal⟩
  rcases Array.mem_iff_getElem.mp hk with ⟨i, hi, rfl⟩
  rw [← getD_of_lt _ 0 hi]
  have hresidual : ∀ r ∈ range P.matrix.rows,
      P.residualAt (arrived s (P.moves s z)).x r =
        (P.freeTarget s.x (P.freeVariables s)).getD r 0 -
          ∑ j ∈ range (P.freeVariables s).size,
            P.matrix.entry r ((P.freeVariables s).getD j 0) * z.getD j 0 := by
    intro r hr
    unfold residualAt
    rw [sum_free_eq s, (P.freeTarget_spec hbox s.x _).right r (mem_range.mp hr), ← sub_sub]
    congr 1
    · congr 1
      apply sum_congr rfl
      intro c _
      by_cases hc : c ∈ P.freeVariables s
      · rw [if_pos hc, if_pos hc]
      · rw [if_neg hc, if_neg hc, getD_arrived_of_bound hc]
    · apply sum_congr rfl
      intro j hj
      exact congrArg _ (getD_arrived_of_mem hs (mem_moves_getD hsize (mem_range.mp hj)))
  unfold gradientAt
  rw [sum_congr rfl fun r hr => by rw [hresidual r hr, mul_sub], sum_sub_distrib,
    ← hnormal i hi, sub_eq_zero]
  simp only [mul_sum, sum_mul]
  rw [sum_comm]
  apply sum_congr rfl
  intro j _
  apply sum_congr rfl
  intro r _
  ring

end Problem
end BoundedLeastSquares
end SoftMargin
