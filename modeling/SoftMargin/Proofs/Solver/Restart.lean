import SoftMargin.Proofs.Solver.Reachable
import SoftMargin.Proofs.Solver.Stationary
import SoftMargin.Proofs.Solver.Iteration

/-!
# Solving again

A solve starts from zero, whatever was solved before. All that an earlier solve
leaves for it are the partitions, the time of the setup, and the primal point.
The slacks of that point enter the next one with the factor zero; the point itself
is kept only if the run fails, and then it is the one that the solver was built
with.
-/

namespace SoftMargin

variable {α : Type} [Scalar α]

/-!
## Times
-/

def Progress.withTimes (p : Progress α) (setup solve : Float) : Progress α :=
  { p with setupTime := setup, solveTime := solve }

/-!
## What a run keeps
-/

namespace Ensemble

theorem size_clipWeights (v : Array α) : (Consensus.clipWeights v).size = v.size := by
  unfold Consensus.clipWeights positivePart
  rw [Array.size_append, Array.size_map, Array.size_extract, Array.size_extract]
  omega

theorem size_foldl_accumulateShared (members : Array (Member α)) (acc : Array α) :
    (members.foldl (fun acc m => m.partition.accumulateShared m.state acc) acc).size =
      acc.size := by
  apply Array.foldl_induction (fun _ (acc' : Array α) => acc'.size = acc.size)
  · rfl
  · intro i acc' hacc'
    exact Array.size_mapIdx.trans hacc'

theorem size_average (members : Array (Member α)) (width : Nat) :
    (Consensus.average members width).size = width := by
  unfold Consensus.average
  dsimp only
  rw [Array.size_map, size_foldl_accumulateShared]
  exact Array.size_replicate

theorem reset_reset (e : Ensemble α) : e.reset.reset = e.reset := by
  have hzero : zeros (zeros e.consensus.size : Array α).size = (zeros e.consensus.size : Array α) :=
    congrArg zeros Array.size_replicate
  unfold reset
  dsimp only
  rw [Array.map_map, hzero]
  rfl

theorem reset_updateX (e : Ensemble α) (rho : α) : (e.updateX rho).2.reset = e.reset := by
  unfold reset updateX
  dsimp only
  rw [Array.map_map, Array.map_map]
  rfl

theorem reset_project (e : Ensemble α) : e.project.reset = e.reset := by
  have hwidth : (Consensus.next e.members e.consensus.size).size = e.consensus.size :=
    (size_clipWeights _).trans (size_average _ _)
  unfold reset project updateZU updateConsensus
  dsimp only
  rw [Array.map_map, hwidth]
  rfl

end Ensemble

namespace Run

variable {P : Problem α} {settings : Settings α}

def withTimes (r : Run α) (setup solve : Float) : Run α :=
  { r with progress := r.progress.withTimes setup solve }

theorem step_withTimes (r : Run α) (setup solve : Float) :
    (r.withTimes setup solve).step P settings =
      ((r.step P settings).1, (r.step P settings).2.withTimes setup solve) := by
  unfold step Operations.step withTimes
  dsimp only
  split_ifs <;> rfl

theorem iterate_withTimes (left : Nat) (r : Run α) (setup solve : Float) :
    iterate P settings left (r.withTimes setup solve) =
      ((iterate P settings left r).1, (iterate P settings left r).2.withTimes setup solve) := by
  have hover : ∀ r r' : Run α, r' = r.withTimes setup solve → r.isOver = r'.isOver := by
    rintro r _ rfl
    rfl
  have hstep : ∀ r r' : Run α, r' = r.withTimes setup solve →
      (r.step P settings).1 = (r'.step P settings).1 ∧
        (r'.step P settings).2 = (r.step P settings).2.withTimes setup solve := by
    rintro r _ rfl
    rw [step_withTimes]
    exact ⟨rfl, rfl⟩
  obtain ⟨hfailure, hrun⟩ := Operations.iterate_related hover hstep left (rfl :
    r.withTimes setup solve = r.withTimes setup solve)
  exact Prod.ext hfailure.symm hrun

structure Continues (r r' : Run α) : Prop where
  reset_eq : r'.ensemble.reset = r.ensemble.reset
  sizes_eq : r'.progress.partitionSizes = r.progress.partitionSizes

theorem continues_step (P : Problem α) (settings : Settings α) (r : Run α) :
    r.Continues (r.step P settings).2 := by
  have hsolved : (r.ensemble.updateX settings.rho).2.reset = r.ensemble.reset :=
    r.ensemble.reset_updateX settings.rho
  have hprojected : (r.ensemble.updateX settings.rho).2.project.reset = r.ensemble.reset :=
    (Ensemble.reset_project _).trans hsolved
  unfold step Operations.step
  dsimp only
  split_ifs
  · exact ⟨hsolved, rfl⟩
  · exact ⟨hprojected, rfl⟩
  · exact ⟨hprojected, rfl⟩

theorem continues_iterate (left : Nat) (r : Run α) :
    r.Continues (iterate P settings left r).2 := by
  have hstep : ∀ r' : Run α, r.Continues r' → r.Continues (r'.step P settings).2 := by
    intro r' h
    have hnext := continues_step P settings r'
    exact ⟨hnext.reset_eq.trans h.reset_eq, hnext.sizes_eq.trans h.sizes_eq⟩
  exact Operations.iterate_preserves hstep left ⟨rfl, rfl⟩

end Run

/-!
## The slacks before
-/

section Slacks

variable {K : Type} [ExactScalar K]

theorem Matrix.transposeMulAdd_zero_congr (H : Matrix K) (a : K) (x : Array K) {y y' : Array K}
    (hy : y.size = y'.size) : H.transposeMulAdd a x 0 y = H.transposeMulAdd a x 0 y' := by
  unfold transposeMulAdd
  apply Array.ext
  · rw [Array.size_zipWith, Array.size_zipWith, hy]
  · intro c _ _
    rw [Array.getElem_zipWith, Array.getElem_zipWith, zero_mul, zero_mul]

theorem PrimalSolution.ofConsensus_congr (H : Matrix K) {before before' : PrimalSolution K}
    (h : before.xi.size = before'.xi.size) (c : Array K) :
    ofConsensus H before c = ofConsensus H before' c := by
  unfold ofConsensus
  dsimp only
  rw [H.transposeMulAdd_zero_congr 1 _ h]

end Slacks

/-!
## Solvers that differ in what they solved before
-/

namespace Solver

variable {K : Type} [ExactScalar K] {s₀ s : Solver K}

def withTimes (s : Solver α) (setup solve : Float) : Solver α :=
  { s with progress := s.progress.withTimes setup solve }

theorem addDual_withTimes (s : Solver α) (setup solve : Float) :
    (s.withTimes setup solve).addDual = (s.addDual.1, s.addDual.2.withTimes setup solve) := by
  unfold addDual withTimes
  dsimp only
  cases Dual.recover s.definite s.problem.data s.problem.bound s.solution.primal
      s.solution.objective s.settings with
  | error source => rfl
  | ok dual => rfl

theorem addDual_keeps (s : Solver α) : s.addDual.2.problem = s.problem ∧
    s.addDual.2.settings = s.settings ∧ s.addDual.2.definite = s.definite ∧
      s.addDual.2.ensemble = s.ensemble := by
  unfold addDual
  cases Dual.recover s.definite s.problem.data s.problem.bound s.solution.primal
      s.solution.objective s.settings with
  | error source => exact ⟨rfl, rfl, rfl, rfl⟩
  | ok dual => exact ⟨rfl, rfl, rfl, rfl⟩

/-- For the next solve, `s` is as good as `s₀` was for its first. -/
structure Resumes (s₀ s : Solver K) : Prop where
  problem_eq : s.problem = s₀.problem
  settings_eq : s.settings = s₀.settings
  definite_eq : s.definite = s₀.definite
  reset_eq : s.ensemble.reset = s₀.ensemble.reset
  sizes_eq : s.progress.partitionSizes = s₀.progress.partitionSizes
  size_slacks : s.solution.primal.xi.size = s₀.problem.points
  /-- A solve that fails leaves the primal point. -/
  primal_eq : s₀.run.1 ≠ none → s.solution.primal = s₀.solution.primal

theorem resumes_self (h : s.solution.primal.xi.size = s.problem.points) : s.Resumes s :=
  ⟨rfl, rfl, rfl, rfl, rfl, h, fun _ => rfl⟩

theorem resumes_solve (h₀ : s₀.solution.primal.xi.size = s₀.problem.points) :
    s₀.Resumes s₀.solve.solver := by
  have hkeeps := s₀.solve_keeps
  have hcontinues : (Run.start s₀.problem s₀.ensemble s₀.progress).Continues s₀.run.2 :=
    Run.continues_iterate _ _
  have hreset : s₀.run.2.ensemble.reset = s₀.ensemble.reset :=
    hcontinues.reset_eq.trans s₀.ensemble.reset_reset
  refine ⟨hkeeps.2.1, hkeeps.left, s₀.solve_definite, ?_, ?_, ?_, ?_⟩
  · rw [hkeeps.2.2, hreset]
  · rcases s₀.solve_cases with ⟨f, _, hsolve⟩ | ⟨_, hends⟩
    · rw [hsolve]
      exact hcontinues.sizes_eq
    · rw [hends.progress_eq]
      exact hcontinues.sizes_eq
  · rcases s₀.solve_cases with ⟨f, _, hsolve⟩ | ⟨_, hends⟩
    · rw [hsolve]
      exact h₀
    · rw [hends.solution_eq]
      exact size_xi_ofConsensus h₀
  · intro hfails
    rcases s₀.solve_cases with ⟨f, _, hsolve⟩ | ⟨hnone, _⟩
    · rw [hsolve]
      rfl
    · exact absurd hnone hfails

namespace Resumes

theorem withTimes (h : s₀.Resumes s) (setup solve : Float) :
    s₀.Resumes (s.withTimes setup solve) :=
  ⟨h.problem_eq, h.settings_eq, h.definite_eq, h.reset_eq, h.sizes_eq, h.size_slacks, h.primal_eq⟩

theorem run_eq (h : s₀.Resumes s) :
    s.run = (s₀.run.1, s₀.run.2.withTimes s.progress.setupTime 0) := by
  have hmembers : s.ensemble.members.size = s₀.ensemble.members.size := by
    have hsize := congrArg (fun e : Ensemble K => e.members.size) h.reset_eq
    unfold Ensemble.reset at hsize
    dsimp only at hsize
    rw [Array.size_map, Array.size_map] at hsize
    exact hsize
  have hstart : Run.start s.problem s.ensemble s.progress =
      (Run.start s₀.problem s₀.ensemble s₀.progress).withTimes s.progress.setupTime 0 := by
    unfold Run.start Operations.start Run.withTimes Progress.reset
    dsimp only [Ensemble.operations]
    rw [h.problem_eq, h.reset_eq, h.sizes_eq, hmembers]
    rfl
  show Run.iterate s.problem s.settings s.settings.maxIter.toNat (Run.start ..) = _
  rw [hstart, h.settings_eq, h.problem_eq]
  exact Run.iterate_withTimes _ _ _ _

theorem afterFailure_eq (h : s₀.Resumes s) (hfails : s₀.run.1 ≠ none) (r : Run K)
    (setup solve : Float) : s.afterFailure (r.withTimes setup solve) =
      (s₀.afterFailure r).withTimes setup solve := by
  unfold afterFailure
  dsimp only
  rw [h.problem_eq, h.settings_eq, h.definite_eq, h.primal_eq hfails]
  rfl

theorem afterRun_eq (h : s₀.Resumes s) (h₀ : s₀.solution.primal.xi.size = s₀.problem.points)
    (r : Run K) (setup solve : Float) : s.afterRun (r.withTimes setup solve) =
      (s₀.afterRun r).withTimes setup solve := by
  have hsettle : s.settle (r.withTimes setup solve) = s₀.settle r := by
    unfold settle
    rw [h.problem_eq, h.settings_eq]
    rfl
  unfold afterRun
  dsimp only
  rw [hsettle, h.problem_eq, h.settings_eq, h.definite_eq,
    PrimalSolution.ofConsensus_congr _ (h.size_slacks.trans h₀.symm)]
  rfl

/-- The next solve is the first one of `s₀`, but for the time of the setup. -/
theorem solve_eq (h : s₀.Resumes s) (h₀ : s₀.solution.primal.xi.size = s₀.problem.points) :
    s.solve = ⟨s₀.solve.failure, s₀.solve.result,
      s₀.solve.solver.withTimes s.progress.setupTime 0⟩ := by
  rcases hrun₀ : s₀.run with ⟨failure, r⟩
  have hrun := h.run_eq
  rw [hrun₀] at hrun
  have hfails : failure ≠ none → s₀.run.1 ≠ none := by
    rw [hrun₀]
    exact id
  have hsettings := h.settings_eq
  unfold run at hrun hrun₀
  unfold solve
  rw [hrun, hrun₀]
  dsimp only
  cases failure with
  | some f =>
      dsimp only
      rw [h.afterFailure_eq (hfails (Option.some_ne_none f))]
      rfl
  | none =>
      dsimp only
      rw [h.afterRun_eq h₀, addDual_withTimes, hsettings]
      split_ifs <;> rfl

theorem solve (h : s₀.Resumes s) (h₀ : s₀.solution.primal.xi.size = s₀.problem.points) :
    s₀.Resumes s.solve.solver := by
  rw [h.solve_eq h₀]
  exact (resumes_solve h₀).withTimes s.progress.setupTime 0

end Resumes
end Solver
end SoftMargin
