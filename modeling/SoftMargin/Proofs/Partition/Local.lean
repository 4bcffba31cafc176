import SoftMargin.Proofs.Kkt.Assembly
import SoftMargin.Proofs.Program.Duality
import SoftMargin.Partition.Basic

/-!
# Local solutions

An exact answer to the system of a partition satisfies one equation for each
variable, with multipliers of the points in it, and one for each point. Two
solutions for different states differ in a direction that is orthogonal to what
their states ask for. In particular a state has only one solution.
-/

namespace SoftMargin

open Scalar Finset

variable {K : Type} [ExactScalar K]

/-!
## Proper programs
-/

structure Problem.IsProper (P : Problem K) : Prop where
  bound_pos : 0 < P.bound
  features_pos : 0 < P.features
  points_pos : 0 < P.points
  complete : P.data.Complete

theorem Problem.IsProper.points_cast_pos {P : Problem K} (h : P.IsProper) :
    (0 : K) < (P.points : K) :=
  Nat.cast_pos.mpr h.points_pos

theorem Problem.new_eq_ok {data : Matrix K} {bound : K} {P : Problem K}
    (h : Problem.new data bound = .ok P) : P.IsProper := by
  unfold Problem.new at h
  by_cases hbound : (!(isFinite bound && 0 < bound && bound ≤ 1)) = true
  · rw [if_pos hbound] at h
    cases h
  · rw [if_neg hbound] at h
    by_cases hsize : data.rows = 0 ∨ data.cols = 0 ∨ data.data.size ≠ data.rows * data.cols
    · rw [if_pos hsize] at h
      cases h
    · rw [if_neg hsize] at h
      by_cases hfinite : (!data.allFinite) = true
      · rw [if_pos hfinite] at h
        cases h
      · rw [if_neg hfinite] at h
        cases h
        simp only [not_or, not_not] at hsize
        simp only [isFinite_exact, Bool.true_and, Bool.not_eq_true', Bool.and_eq_false_iff,
          not_or, decide_eq_false_iff_not, not_not] at hbound
        exact ⟨hbound.left, Nat.pos_of_ne_zero hsize.left, Nat.pos_of_ne_zero hsize.2.1,
          hsize.2.2.ge⟩

theorem Problem.new_of_exact {data : Matrix K} {bound : K} (hpos : 0 < bound) (hle : bound ≤ 1)
    (hrows : data.rows ≠ 0) (hcols : data.cols ≠ 0)
    (hsize : data.data.size = data.rows * data.cols) :
    Problem.new data bound = .ok ⟨data, bound⟩ := by
  have hbound : (isFinite bound && decide (0 < bound) && decide (bound ≤ 1)) = true := by
    simp [hpos, hle]
  have hfinite : data.allFinite = true :=
    Array.all_eq_true_iff_forall_mem.mpr fun a _ => isFinite_exact a
  unfold Problem.new
  rw [hbound, hfinite, Bool.not_true, if_neg Bool.false_ne_true,
    if_neg (by simp [hrows, hcols, hsize]), if_neg Bool.false_ne_true]

theorem Problem.eq_of_new {data : Matrix K} {bound : K} {P : Problem K}
    (h : Problem.new data bound = .ok P) : P = ⟨data, bound⟩ := by
  unfold Problem.new at h
  split_ifs at h
  cases h
  rfl

/-!
## Exact partitions
-/

namespace Partition

def system (P : Problem K) (settings : Settings K) (p : Partition K) : Csc K :=
  Kkt.clearEquationBlock p.shape
    (Kkt.assemble (P.data.select p.columns) settings.rho (-settings.staticReg))

/-- A partition of some points of a program, whatever it answers. -/
structure IsPart (P : Problem K) (p : Partition K) : Prop where
  features_eq : p.features = P.features
  costs_eq : p.costs = costsFor P p.points
  columns_lt : ∀ c ∈ p.columns, c < P.points

/-- The partition has some points of the program, with their costs, and what it answers leaves no
residual in its system. -/
structure IsExact (P : Problem K) (settings : Settings K) (p : Partition K) : Prop where
  features_eq : p.features = P.features
  costs_eq : p.costs = costsFor P p.points
  columns_lt : ∀ c ∈ p.columns, c < P.points
  finite : ∀ b : Array K, b.size = p.shape.dimension → (p.solve b).1 = true
  size_answer : ∀ b : Array K, b.size = p.shape.dimension → (p.solve b).2.size = p.shape.dimension
  residual : ∀ b : Array K, b.size = p.shape.dimension →
    (p.system P settings).symmetricMulAdd (-1) (p.solve b).2 1 b = zeros p.shape.dimension

variable {P : Problem K} {settings : Settings K} {p : Partition K}

theorem IsPart.shape_eq (h : p.IsPart P) : Kkt.Shape.of (P.data.select p.columns) = p.shape := by
  unfold Kkt.Shape.of shape
  rw [h.features_eq]
  rfl

theorem IsPart.system_eq (h : p.IsPart P) :
    p.system P settings = Kkt.assemble (P.data.select p.columns) settings.rho 0 := by
  unfold system
  rw [← h.shape_eq, Kkt.clearEquationBlock_assemble]

theorem IsExact.isPart (h : p.IsExact P settings) : p.IsPart P :=
  ⟨h.features_eq, h.costs_eq, h.columns_lt⟩

theorem IsExact.shape_eq (h : p.IsExact P settings) :
    Kkt.Shape.of (P.data.select p.columns) = p.shape :=
  h.isPart.shape_eq

theorem IsExact.system_eq (h : p.IsExact P settings) :
    p.system P settings = Kkt.assemble (P.data.select p.columns) settings.rho 0 :=
  h.isPart.system_eq

theorem IsExact.symmetricTimes_answer (h : p.IsExact P settings) {b : Array K}
    (hb : b.size = p.shape.dimension) {i : Nat} (hi : i < p.shape.dimension) :
    (Kkt.assemble (P.data.select p.columns) settings.rho 0).symmetricTimes
      (fun r => (p.solve b).2.getD r 0) i = b.getD i 0 := by
  rw [← h.shape_eq] at hb hi
  have hspec := Kkt.symmetricMulAdd_assemble (P.data.select p.columns) settings.rho 0 (-1)
    (p.solve b).2 1 hb
  have hvalue := hspec.right i hi
  have hzero := h.residual b (hb.trans (by rw [h.shape_eq]))
  rw [h.system_eq] at hzero
  rw [hzero, getD_zeros] at hvalue
  linarith

/-- What the optimality conditions of a partition say of its variables and of the multipliers of its
equations. -/
structure IsSolution (P : Problem K) (rho : K) (p : Partition K) (s : LocalState K)
    (x y : Nat → K) : Prop where
  variable_eq : ∀ i < p.variableCount,
    rho * x i + ∑ j ∈ range (p.points + 1),
      Kkt.equationEntry (P.data.select p.columns) j i * y j =
    rho * (s.z.getD i 0 - s.u.getD i 0) - p.costs.getD i 0
  equation_eq : ∀ j < p.points + 1,
    ∑ i ∈ range p.variableCount, Kkt.equationEntry (P.data.select p.columns) j i * x i =
      if j = p.points then 1 else 0

theorem size_costsFor (P : Problem K) (points : Nat) :
    (costsFor P points).size = 2 * points + P.features + 1 := by
  simp [costsFor]
  omega

theorem IsPart.size_costs (h : p.IsPart P) : p.costs.size = p.variableCount := by
  rw [h.costs_eq, size_costsFor, ← h.features_eq]
  rfl

theorem IsExact.size_costs (h : p.IsExact P settings) : p.costs.size = p.variableCount :=
  h.isPart.size_costs

structure IsSized (p : Partition K) (s : LocalState K) : Prop where
  x : s.x.size = p.variableCount
  z : s.z.size = p.variableCount
  u : s.u.size = p.variableCount
  zPrevious : s.zPrevious.size = p.variableCount

theorem size_rightHandSide {s : LocalState K} (hs : p.IsSized s)
    (hcosts : p.costs.size = p.variableCount) (rho : K) :
    (p.rightHandSide rho s).size = p.shape.dimension := by
  unfold rightHandSide
  dsimp only
  rw [Array.size_append, size_combine, size_combine, Array.size_push, size_zeros, hcosts, hs.z,
    hs.u, min_self, min_self]
  rfl

section UpdateX

variable {s : LocalState K} (h : p.IsExact P settings) (hs : p.IsSized s)

include h hs

theorem IsExact.size_rightHandSide (rho : K) :
    (p.rightHandSide rho s).size = p.shape.dimension :=
  Partition.size_rightHandSide hs h.size_costs rho

theorem IsExact.getD_rightHandSide_variable (rho : K) {i : Nat} (hi : i < p.variableCount) :
    (p.rightHandSide rho s).getD i 0 =
      rho * (s.z.getD i 0 - s.u.getD i 0) - p.costs.getD i 0 := by
  have hcosts := h.size_costs
  have hzu : s.z.size = s.u.size := hs.z.trans hs.u.symm
  have hinner : (combine rho s.z (-rho) s.u).size = p.variableCount := by
    rw [size_combine, ← hzu, min_self, hs.z]
  unfold rightHandSide
  dsimp only
  rw [getD_append_left _ _ _ (by rw [size_combine, hinner, hcosts, min_self]; exact hi),
    getD_combine _ _ (hcosts.trans hinner.symm), getD_combine _ _ hzu]
  ring

theorem IsExact.getD_rightHandSide_equation (rho : K) (j : Nat) :
    (p.rightHandSide rho s).getD (p.variableCount + j) 0 = if j = p.points then 1 else 0 := by
  have hcosts := h.size_costs
  have hzu : s.z.size = s.u.size := hs.z.trans hs.u.symm
  have hinner : (combine rho s.z (-rho) s.u).size = p.variableCount := by
    rw [size_combine, ← hzu, min_self, hs.z]
  have houter : (combine (-1) p.costs 1 (combine rho s.z (-rho) s.u)).size = p.variableCount := by
    rw [size_combine, hinner, hcosts, min_self]
  unfold rightHandSide
  dsimp only
  rw [getD_append_right _ _ _ (by omega), houter, Nat.add_sub_cancel_left,
    Array.getD_eq_getD_getElem?, Array.getElem?_push, size_zeros]
  by_cases hlast : j = p.points
  · rw [if_pos hlast, if_pos hlast, Option.getD_some]
  · rw [if_neg hlast, if_neg hlast, ← Array.getD_eq_getD_getElem?, getD_zeros]

theorem IsExact.updateX_spec : (p.updateX settings.rho s).1 = true ∧
    p.IsSized (p.updateX settings.rho s).2 ∧
    ∃ y, IsSolution P settings.rho p s
      (fun i => (p.updateX settings.rho s).2.x.getD i 0) y := by
  have hb := h.size_rightHandSide hs settings.rho
  have hvariables : p.shape.dimension = p.variableCount + (p.points + 1) := rfl
  have hanswer := h.size_answer _ hb
  have hx : (p.updateX settings.rho s).2.x =
      (p.solve (p.rightHandSide settings.rho s)).2.extract 0 p.variableCount := rfl
  have hshape := h.shape_eq
  have hget : ∀ i < p.variableCount, (p.updateX settings.rho s).2.x.getD i 0 =
      (p.solve (p.rightHandSide settings.rho s)).2.getD i 0 := by
    intro i hi
    rw [hx, getD_extract _ _ (by omega), Nat.zero_add]
  refine ⟨h.finite _ hb, ⟨?_, hs.z, hs.u, hs.zPrevious⟩, ?_⟩
  · rw [hx, Array.size_extract, hanswer]
    omega
  · refine ⟨fun j => (p.solve (p.rightHandSide settings.rho s)).2.getD (p.variableCount + j) 0,
      ?_, ?_⟩
    · intro i hi
      rw [hget i hi, ← h.getD_rightHandSide_variable hs settings.rho hi,
        ← h.symmetricTimes_answer hb (by omega), Kkt.symmetricTimes_variable]
      · rw [hshape]
        rfl
      · rw [hshape]
        exact hi
    · intro j hj
      rw [← h.getD_rightHandSide_equation hs settings.rho j,
        ← h.symmetricTimes_answer hb (by omega)]
      have hrow := Kkt.symmetricTimes_equation (P.data.select p.columns) settings.rho
        (fun r => (p.solve (p.rightHandSide settings.rho s)).2.getD r 0) (j := j)
        (by rw [hshape]; exact hj)
      rw [hshape] at hrow
      refine Eq.trans ?_ hrow.symm
      apply sum_congr rfl
      intro i hi
      rw [hget i (mem_range.mp hi)]

end UpdateX

/-!
## Kind by kind
-/

section Costs

variable (P : Problem K) (n : Nat)

theorem costsFor_eq_arrange : costsFor P n = (Kkt.Shape.mk P.features n).arrange
    (fun _ => (P.points : K) * P.bound) (fun _ => 0) (-(n : K)) fun _ => 0 := by
  have hconst : ∀ (m : Nat) (v : K), (Array.range m).map (fun _ => v) = Array.replicate m v := by
    intro m v
    apply Array.ext (by simp)
    intro i _ _
    simp
  unfold costsFor Kkt.Shape.arrange
  dsimp only
  rw [hconst, hconst, hconst]
  rfl

theorem getD_costsFor_slack {j : Nat} (hj : j < n) :
    (costsFor P n).getD j 0 = (P.points : K) * P.bound := by
  rw [costsFor_eq_arrange]
  exact Kkt.Shape.getD_arrange_slack _ _ _ _ _ hj

theorem getD_costsFor_surplus {j : Nat} (hj : j < n) : (costsFor P n).getD (n + j) 0 = 0 := by
  rw [costsFor_eq_arrange]
  exact Kkt.Shape.getD_arrange_surplus (Kkt.Shape.mk P.features n) _ _ _ _ hj

theorem getD_costsFor_threshold : (costsFor P n).getD (2 * n) 0 = -(n : K) := by
  rw [costsFor_eq_arrange]
  exact Kkt.Shape.getD_arrange_threshold (Kkt.Shape.mk P.features n) _ _ _ _

theorem getD_costsFor_weight {k : Nat} (hk : k < P.features) :
    (costsFor P n).getD (2 * n + 1 + k) 0 = 0 := by
  rw [costsFor_eq_arrange]
  exact Kkt.Shape.getD_arrange_weight (Kkt.Shape.mk P.features n) _ _ _ _ hk

end Costs

theorem IsPart.sum_costs (h : p.IsPart P) (w : Nat → K) :
    ∑ v ∈ range p.variableCount, p.costs.getD v 0 * w v =
      (P.points : K) * P.bound * ∑ j ∈ range p.points, w j - (p.points : K) * w (2 * p.points) := by
  have hslack : ∀ j ∈ range p.points, p.costs.getD j 0 * w j =
      (P.points : K) * P.bound * w j := by
    intro j hj
    rw [h.costs_eq, getD_costsFor_slack P _ (mem_range.mp hj)]
  have hsurplus : ∀ j ∈ range p.points,
      p.costs.getD (p.points + j) 0 * w (p.points + j) = 0 := by
    intro j hj
    rw [h.costs_eq, getD_costsFor_surplus P _ (mem_range.mp hj), zero_mul]
  have hweight : ∀ k ∈ range p.features,
      p.costs.getD (2 * p.points + 1 + k) 0 * w (2 * p.points + 1 + k) = 0 := by
    intro k hk
    rw [h.features_eq] at hk
    rw [h.costs_eq, getD_costsFor_weight P _ (mem_range.mp hk), zero_mul]
  have hthreshold : p.costs.getD (2 * p.points) 0 = -(p.points : K) := by
    rw [h.costs_eq, getD_costsFor_threshold]
  calc
    _ = ∑ j ∈ range p.points, p.costs.getD j 0 * w j +
        ∑ j ∈ range p.points, p.costs.getD (p.points + j) 0 * w (p.points + j) +
        p.costs.getD (2 * p.points) 0 * w (2 * p.points) +
        ∑ k ∈ range p.features,
          p.costs.getD (2 * p.points + 1 + k) 0 * w (2 * p.points + 1 + k) :=
      Kkt.sum_variables p.shape fun v => p.costs.getD v 0 * w v
    _ = _ := by
      rw [sum_congr rfl hslack, sum_congr rfl hsurplus, sum_congr rfl hweight, hthreshold,
        sum_const_zero, sum_const_zero, ← mul_sum]
      ring

structure Conditions (P : Problem K) (rho : K) (p : Partition K) (s : LocalState K)
    (x y : Nat → K) : Prop where
  slack : ∀ j < p.points,
    rho * x j + y j = rho * (s.z.getD j 0 - s.u.getD j 0) - (P.points : K) * P.bound
  surplus : ∀ j < p.points, rho * x (p.points + j) - y j =
    rho * (s.z.getD (p.points + j) 0 - s.u.getD (p.points + j) 0)
  threshold : rho * x (2 * p.points) - ∑ j ∈ range p.points, y j =
    rho * (s.z.getD (2 * p.points) 0 - s.u.getD (2 * p.points) 0) + (p.points : K)
  weight : ∀ k < P.features, rho * x (2 * p.points + 1 + k) +
    (∑ j ∈ range p.points, P.data.entry k (p.columns.getD j 0) * y j + y p.points) =
    rho * (s.z.getD (2 * p.points + 1 + k) 0 - s.u.getD (2 * p.points + 1 + k) 0)
  point : ∀ j < p.points, x j - x (p.points + j) - x (2 * p.points) +
    ∑ k ∈ range P.features, P.data.entry k (p.columns.getD j 0) * x (2 * p.points + 1 + k) = 0
  normalization : ∑ k ∈ range P.features, x (2 * p.points + 1 + k) = 1

theorem IsExact.variableCount_eq (h : p.IsExact P settings) :
    p.variableCount = 2 * p.points + P.features + 1 := by
  rw [← h.features_eq]
  rfl

theorem IsExact.variable_cases (h : p.IsExact P settings) {i : Nat} (hi : i < p.variableCount) :
    i < p.points ∨ (∃ j < p.points, i = p.points + j) ∨ i = 2 * p.points ∨
      ∃ k < P.features, i = 2 * p.points + 1 + k := by
  rw [← h.features_eq]
  exact Kkt.Shape.variable_cases hi

theorem IsExact.entry_eq (h : p.IsExact P settings) (hP : P.IsProper) {k j : Nat}
    (hk : k < P.features) (hj : j < p.points) :
    (P.data.select p.columns).entry k j = P.data.entry k (p.columns.getD j 0) :=
  Matrix.entry_select hP.complete h.columns_lt hk hj

section Rows

variable (h : p.IsExact P settings) (hP : P.IsProper) (w : Nat → K)

theorem sum_rows_slack (p : Partition K) {j : Nat} (hj : j < p.points) :
    ∑ i ∈ range (p.points + 1), Kkt.equationEntry (P.data.select p.columns) i j * w i = w j :=
  Kkt.sum_equations_slack (P.data.select p.columns) w hj

theorem sum_rows_surplus (p : Partition K) {j : Nat} (hj : j < p.points) :
    ∑ i ∈ range (p.points + 1),
      Kkt.equationEntry (P.data.select p.columns) i (p.points + j) * w i = -w j :=
  Kkt.sum_equations_surplus (P.data.select p.columns) w hj

theorem sum_rows_threshold (p : Partition K) :
    ∑ i ∈ range (p.points + 1),
      Kkt.equationEntry (P.data.select p.columns) i (2 * p.points) * w i =
      -∑ i ∈ range p.points, w i :=
  Kkt.sum_equations_threshold (P.data.select p.columns) w

include h hP in
theorem IsExact.sum_rows_weight {k : Nat} (hk : k < P.features) :
    ∑ i ∈ range (p.points + 1),
      Kkt.equationEntry (P.data.select p.columns) i (2 * p.points + 1 + k) * w i =
      ∑ j ∈ range p.points, P.data.entry k (p.columns.getD j 0) * w j + w p.points := by
  refine (Kkt.sum_equations_weight (P.data.select p.columns) w hk).trans ?_
  congr 1
  apply sum_congr rfl
  intro j hj
  rw [h.entry_eq hP hk (mem_range.mp hj)]

include h hP in
theorem IsExact.sum_variables_point {j : Nat} (hj : j < p.points) :
    ∑ i ∈ range p.variableCount, Kkt.equationEntry (P.data.select p.columns) j i * w i =
      w j - w (p.points + j) - w (2 * p.points) + ∑ k ∈ range P.features,
        P.data.entry k (p.columns.getD j 0) * w (2 * p.points + 1 + k) := by
  unfold variableCount
  rw [← h.shape_eq, Kkt.sum_variables_point (P.data.select p.columns) w hj]
  congr 1
  apply sum_congr rfl
  intro k hk
  rw [h.entry_eq hP (mem_range.mp hk) hj]
  rfl

include h in
theorem IsExact.sum_variables_normalization :
    ∑ i ∈ range p.variableCount,
      Kkt.equationEntry (P.data.select p.columns) p.points i * w i =
      ∑ k ∈ range P.features, w (2 * p.points + 1 + k) := by
  unfold variableCount
  rw [← h.shape_eq]
  exact Kkt.sum_variables_normalization (P.data.select p.columns) w

end Rows

section Kinds

variable {rho : K} {s : LocalState K} {x y : Nat → K}

/-- A solution depends on the difference of projections and multipliers alone. -/
theorem IsSolution.congr {s' : LocalState K} {x' : Nat → K} (h : IsSolution P rho p s x y)
    (hstate : ∀ v < p.variableCount,
      s'.z.getD v 0 - s'.u.getD v 0 = s.z.getD v 0 - s.u.getD v 0)
    (hx : ∀ v < p.variableCount, x' v = x v) : IsSolution P rho p s' x' y := by
  constructor
  · intro i hi
    rw [hx i hi, hstate i hi]
    exact h.variable_eq i hi
  · intro j hj
    rw [← h.equation_eq j hj]
    apply sum_congr rfl
    intro i hi
    rw [hx i (mem_range.mp hi)]

theorem IsSolution.conditions (hp : p.IsExact P settings) (hP : P.IsProper)
    (h : IsSolution P rho p s x y) : Conditions P rho p s x y := by
  have hcount := hp.variableCount_eq
  refine ⟨?_, ?_, ?_, ?_, ?_, ?_⟩
  · intro j hj
    have heq := h.variable_eq j (by omega)
    rw [sum_rows_slack y p hj, hp.costs_eq, getD_costsFor_slack P _ hj] at heq
    exact heq
  · intro j hj
    have heq := h.variable_eq (p.points + j) (by omega)
    rw [sum_rows_surplus y p hj, hp.costs_eq, getD_costsFor_surplus P _ hj] at heq
    linear_combination heq
  · have heq := h.variable_eq (2 * p.points) (by omega)
    rw [sum_rows_threshold y p, hp.costs_eq, getD_costsFor_threshold] at heq
    linear_combination heq
  · intro k hk
    have heq := h.variable_eq (2 * p.points + 1 + k) (by omega)
    rw [hp.sum_rows_weight hP y hk, hp.costs_eq, getD_costsFor_weight P _ hk, sub_zero] at heq
    exact heq
  · intro j hj
    have heq := h.equation_eq j (by omega)
    rw [hp.sum_variables_point hP x hj, if_neg hj.ne] at heq
    exact heq
  · have heq := h.equation_eq p.points (Nat.lt_succ_self _)
    rw [hp.sum_variables_normalization, if_pos rfl] at heq
    exact heq

theorem Conditions.isSolution (hp : p.IsExact P settings) (hP : P.IsProper)
    (h : Conditions P rho p s x y) : IsSolution P rho p s x y := by
  have hcount := hp.variableCount_eq
  constructor
  · intro i hi
    rw [hp.costs_eq]
    rcases hp.variable_cases hi with hslack | ⟨j, hj, rfl⟩ | rfl | ⟨k, hk, rfl⟩
    · rw [sum_rows_slack y p hslack, getD_costsFor_slack P _ hslack]
      exact h.slack i hslack
    · rw [sum_rows_surplus y p hj, getD_costsFor_surplus P _ hj]
      linear_combination h.surplus j hj
    · rw [sum_rows_threshold y p, getD_costsFor_threshold]
      linear_combination h.threshold
    · rw [hp.sum_rows_weight hP y hk, getD_costsFor_weight P _ hk, sub_zero]
      exact h.weight k hk
  · intro j hj
    rcases Nat.lt_succ_iff_lt_or_eq.mp hj with hlt | heq
    · rw [hp.sum_variables_point hP x hlt, if_neg hlt.ne]
      exact h.point j hlt
    · rw [heq, hp.sum_variables_normalization, if_pos rfl]
      exact h.normalization

end Kinds

/-!
## Two solutions
-/

section Two

variable {rho : K} {s s' : LocalState K} {x x' y y' : Nat → K}

/-- The difference of two solutions is orthogonal to the difference of what their states ask for:
it solves the homogeneous equations, and the multipliers act through these. -/
theorem IsSolution.orthogonal (h : IsSolution P rho p s x y) (h' : IsSolution P rho p s' x' y') :
    ∑ i ∈ range p.variableCount, (x i - x' i) *
      (rho * ((x i - s.z.getD i 0 + s.u.getD i 0) - (x' i - s'.z.getD i 0 + s'.u.getD i 0))) =
      0 := by
  have hterm : ∀ i ∈ range p.variableCount, (x i - x' i) *
      (rho * ((x i - s.z.getD i 0 + s.u.getD i 0) - (x' i - s'.z.getD i 0 + s'.u.getD i 0))) =
      ∑ j ∈ range (p.points + 1), (y' j - y j) *
        (Kkt.equationEntry (P.data.select p.columns) j i * (x i - x' i)) := by
    intro i hi
    have heq := h.variable_eq i (mem_range.mp hi)
    have heq' := h'.variable_eq i (mem_range.mp hi)
    have hdiff : rho * ((x i - s.z.getD i 0 + s.u.getD i 0) -
        (x' i - s'.z.getD i 0 + s'.u.getD i 0)) =
        ∑ j ∈ range (p.points + 1), Kkt.equationEntry (P.data.select p.columns) j i * y' j -
          ∑ j ∈ range (p.points + 1),
            Kkt.equationEntry (P.data.select p.columns) j i * y j := by
      linear_combination heq - heq'
    rw [hdiff, ← sum_sub_distrib, mul_sum]
    apply sum_congr rfl
    intro j _
    ring
  rw [sum_congr rfl hterm, sum_comm]
  apply sum_eq_zero
  intro j hj
  have hsame : ∑ i ∈ range p.variableCount,
      Kkt.equationEntry (P.data.select p.columns) j i * (x i - x' i) = 0 := by
    simp only [mul_sub]
    rw [sum_sub_distrib, h.equation_eq j (mem_range.mp hj), h'.equation_eq j (mem_range.mp hj),
      sub_self]
  rw [← mul_sum, hsame, mul_zero]

theorem IsSolution.unique (hrho : 0 < rho) (h : IsSolution P rho p s x y)
    (h' : IsSolution P rho p s x' y') {i : Nat} (hi : i < p.variableCount) : x i = x' i := by
  have hzero := h.orthogonal h'
  have hterm : ∀ i ∈ range p.variableCount, (x i - x' i) *
      (rho * ((x i - s.z.getD i 0 + s.u.getD i 0) - (x' i - s.z.getD i 0 + s.u.getD i 0))) =
      rho * (x i - x' i) ^ 2 := by
    intro i _
    ring
  rw [sum_congr rfl hterm, ← mul_sum] at hzero
  exact sub_eq_zero.mp (eq_zero_of_sum_sq ((mul_eq_zero.mp hzero).resolve_left hrho.ne') hi)

end Two

end Partition
end SoftMargin
