import Mathlib.LinearAlgebra.Matrix.ToLinearEquiv
import SoftMargin.Proofs.Kkt.Blocks
import SoftMargin.Proofs.Partition.Built
import SoftMargin.Proofs.Partition.Solvable

/-!
# What a local solution minimizes

A partition has costs and a penalty on the distance from what its state asks
for. The gradient of the two at a local solution is a combination of the
constraints, so a step to another point that satisfies them costs exactly its
squared length on the scale of the penalty.
-/

namespace SoftMargin

open Scalar Finset

variable {K : Type} [ExactScalar K]

/-!
## The system
-/

namespace Kkt

theorem Shape.index_injective (s : Shape) : Function.Injective s.index := by
  intro r c h
  cases r with
  | inl i =>
      cases c with
      | inl i' => exact congrArg Sum.inl (Fin.ext h)
      | inr j =>
          have hlt : (i : Nat) < s.equationIndex j := Nat.lt_add_right _ i.isLt
          exact absurd h hlt.ne
  | inr j =>
      cases c with
      | inl i =>
          have hlt : (i : Nat) < s.equationIndex j := Nat.lt_add_right _ i.isLt
          exact absurd h hlt.ne'
      | inr j' => exact congrArg Sum.inr (Fin.ext (Nat.add_left_cancel h))

theorem Shape.exists_index {s : Shape} {i : Nat} (hi : i < s.dimension) : ∃ r, s.index r = i := by
  by_cases hvar : i < s.variableCount
  · exact ⟨.inl ⟨i, hvar⟩, rfl⟩
  · obtain ⟨j, hj, rfl⟩ := Shape.exists_equationIndex hi hvar
    exact ⟨.inr ⟨j, hj⟩, rfl⟩

def systemMatrix (H : Matrix K) (rho : K) :=
  Matrix.of fun r c : (Shape.of H).Row =>
    (assemble H rho 0).symmetricEntry ((Shape.of H).index r) ((Shape.of H).index c)

theorem det_systemMatrix_ne_zero {H : Matrix K} {rho : K} (hrows : 0 < H.rows) (hrho : 0 < rho) :
    (systemMatrix H rho).det ≠ 0 := by
  intro hdet
  obtain ⟨v, hv, hzero⟩ := Matrix.exists_mulVec_eq_zero_iff.mpr hdet
  let w : Nat → K := Function.extend (Shape.of H).index v 0
  have hw : ∀ r, w ((Shape.of H).index r) = v r := fun r =>
    (Shape.index_injective _).extend_apply v 0 r
  have hnone := eq_zero_of_symmetricTimes hrows hrho (w := w) (by
    intro i hi
    obtain ⟨r, rfl⟩ := Shape.exists_index hi
    rw [symmetricTimes_assemble H rho w hi, Shape.sum_rows]
    refine Eq.trans ?_ (congrFun hzero r)
    apply sum_congr rfl
    intro c _
    rw [hw]
    rfl)
  apply hv
  funext r
  rw [← hw r, hnone _ (Shape.index_lt r)]
  rfl

end Kkt

namespace Partition

variable {P : Problem K} {settings : Settings K} {p : Partition K} {s : LocalState K}

/-!
## The local problem
-/

structure IsAdmissible (P : Problem K) (p : Partition K) (x : Array K) : Prop where
  size_eq : x.size = p.variableCount
  point : ∀ j < p.points,
    x.getD j 0 - x.getD (p.points + j) 0 - x.getD (2 * p.points) 0 +
      ∑ k ∈ range P.features,
        P.data.entry k (p.columns.getD j 0) * x.getD (2 * p.points + 1 + k) 0 = 0
  normalization : ∑ k ∈ range P.features, x.getD (2 * p.points + 1 + k) 0 = 1

/-- The costs of the slacks and of the threshold, and the penalty on the distance from the
projection less the multiplier. -/
def penalizedCost (P : Problem K) (p : Partition K) (rho : K) (s : LocalState K) (x : Array K) :
    K :=
  (P.points : K) * P.bound * ∑ j ∈ range p.points, x.getD j 0 -
    (p.points : K) * x.getD (2 * p.points) 0 +
    rho / 2.0 * ∑ v ∈ range p.variableCount, (x.getD v 0 - s.z.getD v 0 + s.u.getD v 0) ^ 2

/-- What the partition answers to a right hand side leaves no residual in the system without
regularization. -/
structure AnswersExactly (P : Problem K) (rho : K) (p : Partition K) (b : Array K) : Prop where
  size_eq : (p.solve b).2.size = p.shape.dimension
  residual : (Kkt.assemble (P.data.select p.columns) rho 0).symmetricMulAdd (-1) (p.solve b).2 1 b =
    zeros p.shape.dimension

/-- One exact answer is the answer of a partition that gives no others. -/
theorem IsPart.exists_isExact (hp : p.IsPart P) (hP : P.IsProper) (hrho : 0 < settings.rho)
    {b : Array K} (hb : p.AnswersExactly P settings.rho b) :
    ∃ solve, ({ p with solve } : Partition K).IsExact P settings ∧
      (solve b).2 = (p.solve b).2 := by
  classical
  obtain ⟨q, hcolumns, hq⟩ := Partition.exists_isExact hP hrho p.columns hp.columns_lt
  have hshape : q.shape = p.shape := by
    unfold shape
    rw [hq.features_eq, hp.features_eq, show q.points = p.points from congrArg Array.size hcolumns]
  have hsystem : q.system P settings = p.system P settings := by
    unfold system
    rw [hshape, hcolumns]
  let answer (c : Array K) : Array K := if c = b then (p.solve b).2 else (q.solve c).2
  refine ⟨fun c => (true, answer c),
    ⟨hp.features_eq, hp.costs_eq, hp.columns_lt, fun _ _ => rfl, ?_, ?_⟩, if_pos rfl⟩
  · intro c hc
    show (answer c).size = p.shape.dimension
    cases eq_or_ne c b with
    | inl heq => exact (congrArg Array.size (if_pos heq)).trans hb.size_eq
    | inr hne =>
        have hsize := hq.size_answer c (hshape ▸ hc)
        exact (congrArg Array.size (if_neg hne)).trans (hsize.trans (by rw [hshape]))
  · intro c hc
    show (p.system P settings).symmetricMulAdd (-1) (answer c) 1 c = zeros p.shape.dimension
    cases eq_or_ne c b with
    | inl heq =>
        rw [show answer c = (p.solve b).2 from if_pos heq, heq, hp.system_eq]
        exact hb.residual
    | inr hne =>
        rw [show answer c = (q.solve c).2 from if_neg hne, ← hsystem, ← hshape]
        exact hq.residual c (hshape ▸ hc)

/-!
## The minimizer
-/

/-- From a local solution to another point of its equations the penalized cost rises by the squared
length of the step. -/
theorem IsSolution.cost_eq {rho : K} {x y x' : Nat → K} (h : IsSolution P rho p s x y)
    (hx' : ∀ j < p.points + 1,
      ∑ i ∈ range p.variableCount, Kkt.equationEntry (P.data.select p.columns) j i * x' i =
        if j = p.points then 1 else 0) :
    ∑ i ∈ range p.variableCount, p.costs.getD i 0 * x' i +
        rho / 2 * ∑ i ∈ range p.variableCount, (x' i - s.z.getD i 0 + s.u.getD i 0) ^ 2 =
      ∑ i ∈ range p.variableCount, p.costs.getD i 0 * x i +
        rho / 2 * ∑ i ∈ range p.variableCount, (x i - s.z.getD i 0 + s.u.getD i 0) ^ 2 +
        rho / 2 * ∑ i ∈ range p.variableCount, (x' i - x i) ^ 2 := by
  let gradient i := p.costs.getD i 0 + rho * (x i - s.z.getD i 0 + s.u.getD i 0)
  -- the gradient is a combination of the constraints, along which a step does not move
  have hstep : ∑ i ∈ range p.variableCount, gradient i * (x' i - x i) = 0 := by
    have hgradient : ∀ i ∈ range p.variableCount, gradient i * (x' i - x i) =
        ∑ j ∈ range (p.points + 1),
          -y j * (Kkt.equationEntry (P.data.select p.columns) j i * (x' i - x i)) := by
      intro i hi
      have hrow := h.variable_eq i (mem_range.mp hi)
      have hcombination : gradient i = ∑ j ∈ range (p.points + 1),
          -(Kkt.equationEntry (P.data.select p.columns) j i * y j) := by
        rw [sum_neg_distrib]
        linear_combination hrow
      rw [hcombination, sum_mul]
      apply sum_congr rfl
      intro j _
      ring
    rw [sum_congr rfl hgradient, sum_comm]
    apply sum_eq_zero
    intro j hj
    simp only [mul_sub]
    rw [sum_sub_distrib, ← mul_sum, ← mul_sum, hx' j (mem_range.mp hj),
      h.equation_eq j (mem_range.mp hj), sub_self]
  have hterm : ∀ i ∈ range p.variableCount,
      p.costs.getD i 0 * x' i + rho / 2 * (x' i - s.z.getD i 0 + s.u.getD i 0) ^ 2 =
        p.costs.getD i 0 * x i + rho / 2 * (x i - s.z.getD i 0 + s.u.getD i 0) ^ 2 +
          rho / 2 * (x' i - x i) ^ 2 + gradient i * (x' i - x i) := by
    intro i _
    ring
  simp only [mul_sum]
  rw [← sum_add_distrib, ← sum_add_distrib, ← sum_add_distrib, sum_congr rfl hterm,
    sum_add_distrib, hstep, add_zero]

theorem IsExact.penalizedCost_eq (h : p.IsExact P settings) (rho : K) (s : LocalState K)
    (x : Array K) : penalizedCost P p rho s x =
      ∑ v ∈ range p.variableCount, p.costs.getD v 0 * x.getD v 0 +
        rho / 2 * ∑ v ∈ range p.variableCount,
          (x.getD v 0 - s.z.getD v 0 + s.u.getD v 0) ^ 2 := by
  have htwo : (2.0 : K) = 2 := by norm_num
  unfold penalizedCost
  rw [h.isPart.sum_costs fun v => x.getD v 0, htwo]

theorem IsExact.isAdmissible_iff (h : p.IsExact P settings) (hP : P.IsProper) (x : Array K) :
    p.IsAdmissible P x ↔ x.size = p.variableCount ∧ ∀ j < p.points + 1,
      ∑ i ∈ range p.variableCount,
        Kkt.equationEntry (P.data.select p.columns) j i * x.getD i 0 =
          if j = p.points then 1 else 0 := by
  constructor
  · intro hx
    refine ⟨hx.size_eq, ?_⟩
    intro j hj
    cases Nat.lt_succ_iff_lt_or_eq.mp hj with
    | inl hlt =>
        rw [h.sum_variables_point hP _ hlt, if_neg hlt.ne]
        exact hx.point j hlt
    | inr heq =>
        rw [heq, h.sum_variables_normalization, if_pos rfl]
        exact hx.normalization
  · intro hx
    constructor
    · exact hx.left
    · intro j hj
      have hequation := hx.right j (Nat.lt_succ_of_lt hj)
      rw [h.sum_variables_point hP _ hj, if_neg hj.ne] at hequation
      exact hequation
    · have hequation := hx.right p.points (Nat.lt_succ_self _)
      rw [h.sum_variables_normalization, if_pos rfl] at hequation
      exact hequation

theorem sum_sq_sub_pos {x x' : Array K} (hsize : x'.size = x.size) (hne : x' ≠ x) :
    0 < ∑ i ∈ range x.size, (x'.getD i 0 - x.getD i 0) ^ 2 := by
  refine lt_of_le_of_ne (sum_nonneg fun i _ => sq_nonneg _) ?_
  rw [← hsize]
  exact fun hzero => hne (eq_of_sum_sq_sub hsize hzero.symm)

theorem IsExact.updateX_minimizes (h : p.IsExact P settings) (hP : P.IsProper)
    (hrho : 0 < settings.rho) (hs : p.IsSized s) :
    p.IsAdmissible P (p.updateX settings.rho s).2.x ∧
      ∀ x', p.IsAdmissible P x' → x' ≠ (p.updateX settings.rho s).2.x →
        penalizedCost P p settings.rho s (p.updateX settings.rho s).2.x <
          penalizedCost P p settings.rho s x' := by
  obtain ⟨-, hsized, y, hsolution⟩ := h.updateX_spec hs
  refine ⟨(h.isAdmissible_iff hP _).mpr ⟨hsized.x, hsolution.equation_eq⟩, ?_⟩
  intro x' hx' hne
  have hcost := hsolution.cost_eq ((h.isAdmissible_iff hP x').mp hx').right
  have hpos := sum_sq_sub_pos (hx'.size_eq.trans hsized.x.symm) hne
  rw [hsized.x] at hpos
  rw [h.penalizedCost_eq, h.penalizedCost_eq, hcost]
  exact lt_add_of_pos_right _ (mul_pos (half_pos hrho) hpos)

/-- The system of a partition is regular. If the answer to the right hand side of a state is exact,
then the local solution is the only point of the equations with the least penalized cost. -/
theorem updateX_unique_minimizer {rho : K} (hP : P.IsProper) (hrho : 0 < rho)
    (hp : p.IsPart P) :
    (Kkt.systemMatrix (P.data.select p.columns) rho).det ≠ 0 ∧
      ∀ s, p.IsSized s → p.AnswersExactly P rho (p.rightHandSide rho s) →
        p.IsAdmissible P (p.updateX rho s).2.x ∧
          ∀ x', p.IsAdmissible P x' → x' ≠ (p.updateX rho s).2.x →
            penalizedCost P p rho s (p.updateX rho s).2.x < penalizedCost P p rho s x' := by
  refine ⟨Kkt.det_systemMatrix_ne_zero hP.features_pos hrho, ?_⟩
  intro s hs hexact
  let settings : Settings K := { Settings.default with rho }
  have hpenalty : 0 < settings.rho := hrho
  obtain ⟨solve, hq, hsolve⟩ := hp.exists_isExact hP hpenalty hexact
  let q : Partition K := { p with solve }
  have hx : (q.updateX rho s).2.x = (p.updateX rho s).2.x :=
    congrArg (·.extract 0 p.variableCount) hsolve
  have hminimizes := hq.updateX_minimizes hP hrho (s := s) ⟨hs.x, hs.z, hs.u, hs.zPrevious⟩
  rw [← hx]
  exact ⟨⟨hminimizes.left.size_eq, hminimizes.left.point, hminimizes.left.normalization⟩,
    fun x' hx' => hminimizes.right x' ⟨hx'.size_eq, hx'.point, hx'.normalization⟩⟩

/-- The state of a partition with two points and two features, away from the start. -/
def movedState : LocalState ℚ :=
  ⟨zeros 7, #[1, 0, 2, 0, 1, 1, 0], #[0, -1, 0, 3, 1, 0, 1], zeros 7⟩

theorem updateX_unique_minimizer_threePoints : ∃ p : Partition ℚ,
    newBy Ldl.naturalOrder threePoints plainSettings #[2, 0] = .ok p ∧
      p.IsPart threePoints ∧ (Kkt.systemMatrix (threePoints.data.select p.columns) 1).det ≠ 0 ∧
      p.AnswersExactly threePoints 1 (p.rightHandSide 1 movedState) ∧
      p.IsAdmissible threePoints (p.updateX 1 movedState).2.x := by
  obtain ⟨p, hnew, hcolumns, hexact⟩ :=
    threePoints_isExact #[2, 0] (by decide) (by decide +kernel)
  have hpart := isPart_of_newBy hnew (by decide)
  have hcount : p.variableCount = 7 := by
    rw [hexact.variableCount_eq, points, hcolumns]
    rfl
  have hsized : p.IsSized movedState := by
    constructor
    all_goals exact hcount.symm
  have hsize := hexact.size_rightHandSide hsized 1
  have hanswers : p.AnswersExactly threePoints 1 (p.rightHandSide 1 movedState) := by
    constructor
    · exact hexact.size_answer _ hsize
    · rw [← hexact.residual _ hsize, hexact.system_eq]
      rfl
  have hminimizer := updateX_unique_minimizer (Problem.new_eq_ok threePoints_new)
    zero_lt_one hpart
  exact ⟨p, hnew, hpart, hminimizer.left, hanswers,
    (hminimizer.right movedState hsized hanswers).left⟩

end Partition
end SoftMargin
