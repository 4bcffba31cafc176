import SoftMargin.Proofs.Kkt.Blocks
import SoftMargin.Proofs.Partition.Solvable
import SoftMargin.Proofs.Solver.Building

/-!
# What a correction does to the residual

Solves are made with a system whose lower right block is a small negative
multiple of the identity. An answer misses the system without that block in the
equations only. A correction answers what they miss, and it misses less: the
variables that it moves and the constraints that it meets take up a part of the
error, and they can take up nothing only if there was none.
-/

namespace SoftMargin

open Scalar Finset

/-!
## The candidates of a refinement
-/

namespace Refinement

/-- A refinement comes to the direct answer, and from a candidate to its correction if that has a
smaller residual. -/
inductive Reaches {α : Type} [Scalar α] (A : Csc α) (direct : Array α → Array α) (b : Array α) :
    State α → Prop where
  | start : Reaches A direct b (State.of A b (direct b))
  | accept {s : State α} : Reaches A direct b s → (s.correct A direct b).norm < s.norm →
      Reaches A direct b (s.correct A direct b)

variable {α : Type} [Scalar α] {A : Csc α} {direct : Array α → Array α} {b : Array α}

def Improves (A : Csc α) (direct : Array α → Array α) (b : Array α) (target : α) (s : State α) :
    Prop :=
  isFinite s.norm = true ∧ ¬s.norm ≤ target ∧ (s.correct A direct b).norm < s.norm

variable {target : α} {s : State α}

theorem Improves.refine_succ (h : Improves A direct b target s) (passes : Nat) :
    refine A direct b target (passes + 1) s =
      refine A direct b target passes (s.correct A direct b) := by
  obtain ⟨hfinite, habove, hbetter⟩ := h
  simp only [refine, hfinite, habove, hbetter, Bool.not_true, Bool.false_eq_true, if_false, if_true]

theorem refine_of_not_improves (h : ¬Improves A direct b target s) (passes : Nat) :
    refine A direct b target passes s = s := by
  cases passes with
  | zero => rfl
  | succ passes =>
      unfold refine
      dsimp only
      split_ifs with hfinite hsmall hbetter
      · rfl
      · rfl
      · rw [Bool.not_eq_true', Bool.not_eq_false] at hfinite
        exact absurd ⟨hfinite, hsmall, hbetter⟩ h
      · rfl

theorem refine_succ (target : α) (passes : Nat) (s : State α) :
    refine A direct b target (passes + 1) s =
      refine A direct b target 1 (refine A direct b target passes s) := by
  induction passes generalizing s with
  | zero => rfl
  | succ passes ih =>
      by_cases h : Improves A direct b target s
      · rw [h.refine_succ, h.refine_succ, ih]
      · rw [refine_of_not_improves h, refine_of_not_improves h, refine_of_not_improves h]

theorem Reaches.refine (h : Reaches A direct b s) (target : α) (passes : Nat) :
    Reaches A direct b (refine A direct b target passes s) := by
  induction passes generalizing s with
  | zero => exact h
  | succ passes ih =>
      by_cases himproves : Improves A direct b target s
      · rw [himproves.refine_succ]
        exact ih (.accept h himproves.right.right)
      · rw [refine_of_not_improves himproves]
        exact h

theorem exists_reaches_solve (A : Csc α) (direct : Array α → Array α) (b : Array α)
    (limits : Limits α) :
    ∃ s, Reaches A direct b s ∧ (solve A direct limits b).2 = s.x :=
  ⟨_, Reaches.start.refine (limits.target b) limits.maxIter, rfl⟩

end Refinement

variable {K : Type} [ExactScalar K]

theorem Refinement.reaches_iff {A : Csc K} {direct : Array K → Array K} {b : Array K}
    {s : State K} : Reaches A direct b s ↔
      ∃ target passes, refine A direct b target passes (State.of A b (direct b)) = s := by
  constructor
  · intro h
    refine ⟨0, ?_⟩
    induction h with
    | start => exact ⟨0, rfl⟩
    | @accept s _ hsmaller ih =>
        obtain ⟨passes, hpasses⟩ := ih
        have hnonneg : 0 ≤ (s.correct A direct b).norm := maxNorm_nonneg _
        refine ⟨passes + 1, ?_⟩
        have himproves : Improves A direct b 0 s :=
          ⟨rfl, not_le.mpr (hnonneg.trans_lt hsmaller), hsmaller⟩
        rw [refine_succ, hpasses, himproves.refine_succ, refine]
  · rintro ⟨target, passes, rfl⟩
    exact Reaches.start.refine target passes

/-!
## The regularized system
-/

namespace Kkt

theorem symmetricTimes_variable_block (H : Matrix K) (rho δ : K) (w : Nat → K) {i : Nat}
    (hi : i < (Shape.of H).variableCount) :
    (assemble H rho δ).symmetricTimes w i = (assemble H rho 0).symmetricTimes w i := by
  have hrow := fun δ' => symmetricTimes_index H rho δ' w (.inl ⟨i, hi⟩)
  simp only [blocks, Matrix.fromBlocks_mulVec, Sum.elim_inl] at hrow
  exact (hrow δ).trans (hrow 0).symm

theorem symmetricTimes_equation_block (H : Matrix K) (rho δ : K) (w : Nat → K) {j : Nat}
    (hj : j < (Shape.of H).equationCount) :
    (assemble H rho δ).symmetricTimes w ((Shape.of H).equationIndex j) =
      (assemble H rho 0).symmetricTimes w ((Shape.of H).equationIndex j) +
        δ * w ((Shape.of H).equationIndex j) := by
  have hrow := fun δ' => symmetricTimes_index H rho δ' w (.inr ⟨j, hj⟩)
  simp only [blocks, Matrix.fromBlocks_mulVec, Sum.elim_inr, Pi.add_apply,
    Matrix.mulVec_diagonal] at hrow
  refine (hrow δ).trans ?_
  rw [show (assemble H rho 0).symmetricTimes w ((Shape.of H).equationIndex j) = _ from hrow 0,
    zero_mul, add_zero]
  rfl

/-- The squared length of what a residual leaves in the equations. -/
def equationError (s : Shape) (residual : Array K) : K :=
  ∑ j ∈ range s.equationCount, residual.getD (s.equationIndex j) 0 ^ 2

section Correction

variable {H : Matrix K} {rho reg : K} {w e : Nat → K}

/-- The parts into which an error in the equations splits: what the constraints meet of it, what the
variables move, and what is left. -/
theorem sum_error_sq
    (hvariable : ∀ i < (Shape.of H).variableCount,
      (assemble H rho 0).symmetricTimes w i = 0)
    (hequation : ∀ j < (Shape.of H).equationCount,
      (assemble H rho 0).symmetricTimes w ((Shape.of H).equationIndex j) -
        reg * w ((Shape.of H).equationIndex j) = e j) :
    ∑ j ∈ range (Shape.of H).equationCount, e j ^ 2 =
      ∑ j ∈ range (Shape.of H).equationCount,
        (assemble H rho 0).symmetricTimes w ((Shape.of H).equationIndex j) ^ 2 +
      2 * reg * rho * ∑ i ∈ range (Shape.of H).variableCount, w i ^ 2 +
      ∑ j ∈ range (Shape.of H).equationCount,
        (reg * w ((Shape.of H).equationIndex j)) ^ 2 := by
  let met j := (assemble H rho 0).symmetricTimes w ((Shape.of H).equationIndex j)
  let y j := w ((Shape.of H).equationIndex j)
  -- the constraints and their transpose cancel, up to what the variables move
  have hcross : ∑ j ∈ range (Shape.of H).equationCount, met j * y j =
      -(rho * ∑ i ∈ range (Shape.of H).variableCount, w i ^ 2) := by
    have hmet : ∀ j ∈ range (Shape.of H).equationCount, met j * y j =
        ∑ i ∈ range (Shape.of H).variableCount, w i * (equationEntry H j i * y j) := by
      intro j hj
      simp only [met]
      rw [symmetricTimes_equation H rho w (mem_range.mp hj), sum_mul]
      apply sum_congr rfl
      intro i _
      ring
    have hmoved : ∀ i ∈ range (Shape.of H).variableCount,
        w i * ∑ j ∈ range (Shape.of H).equationCount, equationEntry H j i * y j =
          -(rho * w i ^ 2) := by
      intro i hi
      have hrow := hvariable i (mem_range.mp hi)
      rw [symmetricTimes_variable H rho w (mem_range.mp hi)] at hrow
      linear_combination w i * hrow
    calc
      _ = ∑ i ∈ range (Shape.of H).variableCount,
            w i * ∑ j ∈ range (Shape.of H).equationCount, equationEntry H j i * y j := by
        rw [sum_congr rfl hmet, sum_comm]
        simp only [mul_sum]
      _ = _ := by
        rw [sum_congr rfl hmoved, sum_neg_distrib, mul_sum]
  have hterm : ∀ j ∈ range (Shape.of H).equationCount,
      e j ^ 2 = met j ^ 2 - 2 * reg * (met j * y j) + (reg * y j) ^ 2 := by
    intro j hj
    rw [← hequation j (mem_range.mp hj)]
    ring
  rw [sum_congr rfl hterm, sum_add_distrib, sum_sub_distrib, ← mul_sum, hcross]
  ring

theorem sum_left_lt (hrows : 0 < H.rows) (hrho : 0 < rho) (hreg : 0 < reg)
    (hvariable : ∀ i < (Shape.of H).variableCount,
      (assemble H rho 0).symmetricTimes w i = 0)
    (hequation : ∀ j < (Shape.of H).equationCount,
      (assemble H rho 0).symmetricTimes w ((Shape.of H).equationIndex j) -
        reg * w ((Shape.of H).equationIndex j) = e j) :
    (∀ j < (Shape.of H).equationCount, e j = 0) ∨
      ∑ j ∈ range (Shape.of H).equationCount,
        (reg * w ((Shape.of H).equationIndex j)) ^ 2 <
      ∑ j ∈ range (Shape.of H).equationCount, e j ^ 2 := by
  have hsplit := sum_error_sq hvariable hequation
  have hmet : 0 ≤ ∑ j ∈ range (Shape.of H).equationCount,
      (assemble H rho 0).symmetricTimes w ((Shape.of H).equationIndex j) ^ 2 :=
    sum_nonneg fun _ _ => sq_nonneg _
  have hmoved : 0 ≤ ∑ i ∈ range (Shape.of H).variableCount, w i ^ 2 :=
    sum_nonneg fun _ _ => sq_nonneg _
  have hscale : 0 < 2 * reg * rho := mul_pos (mul_pos zero_lt_two hreg) hrho
  rcases hmoved.eq_or_lt with hnone | hsome
  · left
    have hzero : ∀ j < (Shape.of H).equationCount,
        (assemble H rho 0).symmetricTimes w ((Shape.of H).equationIndex j) = 0 := by
      intro j hj
      rw [symmetricTimes_equation H rho w hj]
      apply sum_eq_zero
      intro i hi
      rw [eq_zero_of_sum_sq hnone.symm (mem_range.mp hi), mul_zero]
    -- a correction that moves no variable has multipliers that act on none
    have hall := eq_zero_of_symmetricTimes hrows hrho (w := w) (by
      intro r hr
      by_cases hvar : r < (Shape.of H).variableCount
      · exact hvariable r hvar
      · obtain ⟨j, hj, rfl⟩ := Shape.exists_equationIndex hr hvar
        exact hzero j hj)
    intro j hj
    rw [← hequation j hj, hzero j hj, hall _ (Shape.equationIndex_lt hj), mul_zero, sub_zero]
  · right
    have hpositive := mul_pos hscale hsome
    linarith

end Correction

end Kkt

/-!
## The candidates of a solve
-/

namespace KktSolver

open Refinement

/-- Answers to the system with `-reg` in its lower right block. -/
structure AnswersRegularized (H : Matrix K) (rho reg : K) (direct : Array K → Array K) :
    Prop where
  size_eq : ∀ b : Array K, b.size = (Kkt.Shape.of H).dimension →
    (direct b).size = (Kkt.Shape.of H).dimension
  times_eq : ∀ b : Array K, b.size = (Kkt.Shape.of H).dimension →
    ∀ i < (Kkt.Shape.of H).dimension,
      (Kkt.assemble H rho (-reg)).symmetricTimes (fun c => (direct b).getD c 0) i = b.getD i 0

/-- A candidate whose residual is known and lies in the equations alone. -/
structure MeetsVariables (H : Matrix K) (rho : K) (b : Array K) (s : State K) : Prop where
  size_x : s.x.size = (Kkt.Shape.of H).dimension
  size_residual : s.residual.size = (Kkt.Shape.of H).dimension
  residual_eq : ∀ i < (Kkt.Shape.of H).dimension, s.residual.getD i 0 =
    b.getD i 0 - (Kkt.assemble H rho 0).symmetricTimes (fun c => s.x.getD c 0) i
  variable_eq : ∀ i < (Kkt.Shape.of H).variableCount, s.residual.getD i 0 = 0

section Candidates

variable {H : Matrix K} {rho reg : K} {direct : Array K → Array K} {b : Array K} {s : State K}

theorem residual_of (H : Matrix K) (rho : K) (hb : b.size = (Kkt.Shape.of H).dimension)
    (x : Array K) :
    (State.of (Kkt.assemble H rho 0) b x).residual.size = (Kkt.Shape.of H).dimension ∧
      ∀ i < (Kkt.Shape.of H).dimension,
        (State.of (Kkt.assemble H rho 0) b x).residual.getD i 0 =
          b.getD i 0 - (Kkt.assemble H rho 0).symmetricTimes (fun c => x.getD c 0) i := by
  have hproduct := Kkt.symmetricMulAdd_assemble H rho 0 (-1) x 1 hb
  constructor
  · exact hproduct.left
  · intro i hi
    refine (hproduct.right i hi).trans ?_
    ring

/-- The direct answer to `e` leaves of it the multiple of its multipliers that stands in the lower
right block. -/
theorem AnswersRegularized.left_eq (h : AnswersRegularized H rho reg direct) {e : Array K}
    (he : e.size = (Kkt.Shape.of H).dimension) :
    (∀ i < (Kkt.Shape.of H).variableCount,
      (Kkt.assemble H rho 0).symmetricTimes (fun c => (direct e).getD c 0) i = e.getD i 0) ∧
    ∀ j < (Kkt.Shape.of H).equationCount,
      (Kkt.assemble H rho 0).symmetricTimes (fun c => (direct e).getD c 0)
        ((Kkt.Shape.of H).equationIndex j) -
          reg * (direct e).getD ((Kkt.Shape.of H).equationIndex j) 0 =
        e.getD ((Kkt.Shape.of H).equationIndex j) 0 := by
  constructor
  · intro i hi
    rw [← h.times_eq e he i (Kkt.Shape.variable_lt hi),
      Kkt.symmetricTimes_variable_block H rho (-reg) _ hi]
  · intro j hj
    rw [← h.times_eq e he _ (Kkt.Shape.equationIndex_lt hj),
      Kkt.symmetricTimes_equation_block H rho (-reg) _ hj]
    ring

theorem AnswersRegularized.start (h : AnswersRegularized H rho reg direct)
    (hb : b.size = (Kkt.Shape.of H).dimension) :
    MeetsVariables H rho b (State.of (Kkt.assemble H rho 0) b (direct b)) := by
  have hresidual := residual_of H rho hb (direct b)
  refine ⟨h.size_eq b hb, hresidual.left, hresidual.right, ?_⟩
  intro i hi
  rw [hresidual.right i (Kkt.Shape.variable_lt hi), (h.left_eq hb).left i hi, sub_self]

section Correct

variable (h : AnswersRegularized H rho reg direct) (hb : b.size = (Kkt.Shape.of H).dimension)
  (hs : MeetsVariables H rho b s)

include h hb hs

/-- A correction takes from the residual what the answer to it makes of the system. -/
theorem AnswersRegularized.residual_correct {i : Nat} (hi : i < (Kkt.Shape.of H).dimension) :
    (s.correct (Kkt.assemble H rho 0) direct b).residual.getD i 0 = s.residual.getD i 0 -
      (Kkt.assemble H rho 0).symmetricTimes (fun c => (direct s.residual).getD c 0) i := by
  have hsize := hs.size_x.trans (h.size_eq s.residual hs.size_residual).symm
  have hsum : ∀ c, (combine 1 s.x 1 (direct s.residual)).getD c 0 =
      s.x.getD c 0 + (direct s.residual).getD c 0 := by
    intro c
    rw [getD_combine _ _ hsize, one_mul, one_mul]
  refine ((residual_of H rho hb _).right i hi).trans ?_
  rw [hs.residual_eq i hi, Kkt.symmetricTimes_assemble H rho _ hi,
    Kkt.symmetricTimes_assemble H rho _ hi, Kkt.symmetricTimes_assemble H rho _ hi]
  simp only [hsum, mul_add, sum_add_distrib]
  ring

theorem AnswersRegularized.correct :
    MeetsVariables H rho b (s.correct (Kkt.assemble H rho 0) direct b) := by
  have hresidual := residual_of H rho hb (combine 1 s.x 1 (direct s.residual))
  refine ⟨?_, hresidual.left, hresidual.right, ?_⟩
  · show (combine 1 s.x 1 (direct s.residual)).size = _
    rw [size_combine, hs.size_x, h.size_eq s.residual hs.size_residual, min_self]
  · intro i hi
    rw [h.residual_correct hb hs (Kkt.Shape.variable_lt hi), (h.left_eq hs.size_residual).left i hi,
      sub_self]

theorem AnswersRegularized.equationError_correct (hrows : 0 < H.rows) (hrho : 0 < rho)
    (hreg : 0 < reg) :
    (∀ j < (Kkt.Shape.of H).equationCount,
      s.residual.getD ((Kkt.Shape.of H).equationIndex j) 0 = 0) ∨
    Kkt.equationError (Kkt.Shape.of H) (s.correct (Kkt.assemble H rho 0) direct b).residual <
      Kkt.equationError (Kkt.Shape.of H) s.residual := by
  have hleft := h.left_eq hs.size_residual
  have hvariable : ∀ i < (Kkt.Shape.of H).variableCount,
      (Kkt.assemble H rho 0).symmetricTimes (fun c => (direct s.residual).getD c 0) i = 0 := by
    intro i hi
    rw [hleft.left i hi, hs.variable_eq i hi]
  have hnext : Kkt.equationError (Kkt.Shape.of H)
      (s.correct (Kkt.assemble H rho 0) direct b).residual =
      ∑ j ∈ range (Kkt.Shape.of H).equationCount,
        (reg * (direct s.residual).getD ((Kkt.Shape.of H).equationIndex j) 0) ^ 2 := by
    apply sum_congr rfl
    intro j hj
    have hj := mem_range.mp hj
    rw [h.residual_correct hb hs (Kkt.Shape.equationIndex_lt hj), ← hleft.right j hj]
    ring
  have hless := Kkt.sum_left_lt (w := fun c => (direct s.residual).getD c 0)
    (e := fun j => s.residual.getD ((Kkt.Shape.of H).equationIndex j) 0) hrows hrho hreg hvariable
    hleft.right
  rw [hnext]
  exact hless

end Correct

theorem MeetsVariables.variable_row (hs : MeetsVariables H rho b s) {i : Nat}
    (hi : i < (Kkt.Shape.of H).variableCount) :
    rho * s.x.getD i 0 + ∑ j ∈ range (Kkt.Shape.of H).equationCount,
      (Kkt.constraintRow H j).getD i 0 * s.x.getD ((Kkt.Shape.of H).equationIndex j) 0 =
        b.getD i 0 := by
  have hrow := hs.residual_eq i (Kkt.Shape.variable_lt hi)
  rw [hs.variable_eq i hi, Kkt.symmetricTimes_variable H rho _ hi] at hrow
  refine Eq.trans ?_ (sub_eq_zero.mp hrow.symm).symm
  congr 1
  apply sum_congr rfl
  intro j hj
  rw [Kkt.getD_constraintRow H (mem_range.mp hj) hi]

theorem MeetsVariables.equation_row (hs : MeetsVariables H rho b s) {j : Nat}
    (hj : j < (Kkt.Shape.of H).equationCount) :
    s.residual.getD ((Kkt.Shape.of H).equationIndex j) 0 =
      b.getD ((Kkt.Shape.of H).equationIndex j) 0 -
        ∑ i ∈ range (Kkt.Shape.of H).variableCount,
          (Kkt.constraintRow H j).getD i 0 * s.x.getD i 0 := by
  rw [hs.residual_eq _ (Kkt.Shape.equationIndex_lt hj), Kkt.symmetricTimes_equation H rho _ hj]
  congr 1
  apply sum_congr rfl
  intro i hi
  rw [Kkt.getD_constraintRow H hj (mem_range.mp hi)]

theorem AnswersRegularized.meetsVariables (h : AnswersRegularized H rho reg direct)
    (hb : b.size = (Kkt.Shape.of H).dimension)
    (hs : Reaches (Kkt.assemble H rho 0) direct b s) : MeetsVariables H rho b s := by
  induction hs with
  | start => exact h.start hb
  | accept _ _ ih => exact h.correct hb ih

end Candidates

/-!
## The solver of a partition
-/

section Solver

variable {rule : Ldl.OrderingRule K} {H : Matrix K} {settings : Settings K} {solver : KktSolver K}

theorem answersRegularized_of_newBy (h : newBy rule H settings = .ok solver)
    (hpivots : solver.HasSignedPivots (Kkt.Shape.of H) settings) :
    AnswersRegularized H settings.rho settings.staticReg solver.factor.solve := by
  have hcols := Kkt.cols_assemble H settings.rho (-settings.staticReg)
  have horder : ∀ order, rule (Kkt.assemble H settings.rho (-settings.staticReg)) = .ok order →
      Ldl.IsOrder order (Kkt.assemble H settings.rho (-settings.staticReg)).cols := by
    intro order hfound
    obtain ⟨_, _, _, _, _, _, hused, _⟩ := Ldl.factorBy_eq_ok (newBy_eq_ok h).right
    rw [hfound] at hused
    cases hused
    exact hcols ▸ hpivots.order
  obtain ⟨replaced, hfactors⟩ := Ldl.factorBy_factors horder (newBy_eq_ok h).right
  constructor
  · intro b hb
    exact (hfactors.solve_spec (hb.trans hcols.symm)).left.trans hcols
  · intro b hb i hi
    rw [Csc.symmetricTimes_eq_sum (Kkt.isUpper_assemble H _ _)
      (fun c hc => Kkt.nodup_rows_assemble H _ _ (hc.trans_eq hcols)) _ (hi.trans_eq hcols.symm)]
    exact hfactors.solve_exact hpivots.regularizeCount (hb.trans hcols.symm)
      (hi.trans_eq hcols.symm)

/-- Whatever the order of elimination, the candidates that the passes of the refinement come to
solve the equations of the variables exactly, so that what is left of the right hand side lies in
the constraints. Each correction, whether it is kept or not, leaves less of it there. -/
theorem corrections_leave_less (hrule : Kkt.Orders rule) (hH : H.Complete) (hrows : 0 < H.rows)
    (hrho : 1e-12 ≤ settings.rho) (hreg : 1e-12 ≤ settings.staticReg) {b : Array K}
    (hb : b.size = (Kkt.Shape.of H).dimension) :
    let shape := Kkt.Shape.of H
    ∃ solver, newBy rule H settings = .ok solver ∧
      (∀ s, Reaches solver.system solver.factor.solve b s ↔ ∃ target passes,
        Refinement.refine solver.system solver.factor.solve b target passes
          (State.of solver.system b (solver.factor.solve b)) = s) ∧
      (∀ limits, ∃ s, Reaches solver.system solver.factor.solve b s ∧
        (Refinement.solve solver.system solver.factor.solve limits b).2 = s.x) ∧
      ∀ s, Reaches solver.system solver.factor.solve b s →
        (∀ i < shape.variableCount, s.residual.getD i 0 = 0 ∧
          settings.rho * s.x.getD i 0 + ∑ j ∈ range shape.equationCount,
            (Kkt.constraintRow H j).getD i 0 * s.x.getD (shape.equationIndex j) 0 =
              b.getD i 0) ∧
        (∀ j < shape.equationCount, s.residual.getD (shape.equationIndex j) 0 =
          b.getD (shape.equationIndex j) 0 - ∑ i ∈ range shape.variableCount,
            (Kkt.constraintRow H j).getD i 0 * s.x.getD i 0) ∧
        ((∀ j < shape.equationCount, s.residual.getD (shape.equationIndex j) 0 = 0) ∨
          Kkt.equationError shape (s.correct solver.system solver.factor.solve b).residual <
            Kkt.equationError shape s.residual) := by
  intro shape
  have hlimit : (0 : K) < 1e-12 := by norm_num
  obtain ⟨order, hfound, horder⟩ := hrule H settings.rho (-settings.staticReg)
  obtain ⟨solver, hsolver⟩ := exists_newBy hH hfound horder
  have hpivots := newBy_hasSignedPivots hsolver (by
    intro order' hfound'
    rw [hfound] at hfound'
    cases hfound'
    exact horder) hrho hreg
  have hdirect := answersRegularized_of_newBy hsolver hpivots
  refine ⟨solver, hsolver, fun s => reaches_iff, exists_reaches_solve _ _ _, ?_⟩
  rw [(newBy_eq_ok hsolver).left]
  intro s hs
  have hmeets := hdirect.meetsVariables hb hs
  refine ⟨?_, ?_, hdirect.equationError_correct hb hmeets hrows (hlimit.trans_le hrho)
    (hlimit.trans_le hreg)⟩
  · intro i hi
    exact ⟨hmeets.variable_eq i hi, hmeets.variable_row hi⟩
  · intro j hj
    exact hmeets.equation_row hj

def pointsOnLine : Matrix ℚ :=
  ⟨1, 2, #[1, 2]⟩

/-- The equations are eliminated first, and the direct answer misses them. -/
theorem corrections_leave_less_pointsOnLine :
    let b : Array ℚ := #[1, 2, 3, 4, 5, 6, 7, 8, 9]
    ∃ solver, newBy Kkt.reversedOrder pointsOnLine Settings.default = .ok solver ∧
      let answer := State.of solver.system b (solver.factor.solve b)
      (∀ i < 6, answer.residual.getD i 0 = 0) ∧ answer.residual.getD 6 0 ≠ 0 ∧
        Kkt.equationError ⟨1, 2⟩ (answer.correct solver.system solver.factor.solve b).residual <
          Kkt.equationError ⟨1, 2⟩ answer.residual := by
  intro b
  have hrho : (1e-12 : ℚ) ≤ (Settings.default : Settings ℚ).rho := by decide +kernel
  have hreg : (1e-12 : ℚ) ≤ (Settings.default : Settings ℚ).staticReg := by decide +kernel
  have hcomplete : pointsOnLine.Complete := by decide
  have hsize : b.size = (Kkt.Shape.of pointsOnLine).dimension := rfl
  obtain ⟨solver, hsolver, _, _, hcandidates⟩ :=
    corrections_leave_less Kkt.orders_reversedOrder hcomplete (by decide) hrho hreg hsize
  have hmissed : ((newBy Kkt.reversedOrder pointsOnLine Settings.default).toOption.map
      fun solver => decide ((State.of solver.system b (solver.factor.solve b)).residual.getD 6 0 =
        0)) = some false := by decide +kernel
  rw [hsolver] at hmissed
  have hne := of_decide_eq_false (Option.some.inj hmissed)
  obtain ⟨hvariables, _, hless⟩ := hcandidates _ .start
  refine ⟨solver, hsolver, fun i hi => (hvariables i hi).left, hne, ?_⟩
  exact hless.resolve_left fun hzero => hne (hzero 0 (by decide))

end Solver

end KktSolver
end SoftMargin
