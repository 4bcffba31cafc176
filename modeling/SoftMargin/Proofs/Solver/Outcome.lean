import SoftMargin.Proofs.Solver.Building
import SoftMargin.Proofs.Solver.Reachable
import SoftMargin.Proofs.Solver.Recording

/-!
# How a solve ends

A solve either runs to the end of its iterations or meets something that is not
finite. Either way the solution and the progress tell of the same iterations,
and nothing of an earlier solve is left in them.
-/

namespace SoftMargin

open Scalar

variable {α : Type} [Scalar α] {methods : Methods α} {data : Matrix α} {bound : α}
  {settings : Settings α}

/-- The solve ran to the end of its iterations. All that can then fail is the recovery of the
multipliers. -/
structure Solved.IsFinished (settings : Settings α) (t : Solved α) : Prop where
  failure_eq : t.failure = none
  result_eq : t.result = .ok () ∨ ∃ source, t.result = .error (.dualRecovery source)
  aligned : t.solver.solution.trace.IsAligned
  iterations_eq : t.solver.solution.iterations = t.solver.solution.trace.length
  progress_iterations_eq : t.solver.progress.iterations = t.solver.solution.trace.length
  iterations_pos : 1 ≤ t.solver.solution.iterations
  iterations_le : t.solver.solution.iterations ≤ settings.maxIter.toNat
  progress_status_eq : t.solver.progress.status = t.solver.solution.status
  unconverged : ∀ k, k + 1 < t.solver.solution.trace.length →
    t.solver.solution.trace.convergedAt k = false
  last : t.solver.solution.trace.residualsAt? (t.solver.solution.trace.length - 1) =
    some t.solver.progress.residuals
  converged : t.solver.progress.residuals.isConverged = true →
    t.solver.solution.status = .converged ∧ t.solver.solution.exitFlag = 1
  exhausted : t.solver.progress.residuals.isConverged = false →
    t.solver.solution.status = .maxIterations ∧
      t.solver.solution.iterations = settings.maxIter.toNat ∧
      t.solver.solution.exitFlag =
        if 10.0 * settings.tol < UnitSimplex.defect t.solver.solution.primal.a then -1 else 0
  dual : t.solver.solution.dual.isSome = true →
    settings.recoverDuals = true ∧ t.result = .ok ()

/-- The solve met something that is not finite, in the iteration after the last recorded one. -/
structure Solved.IsFailed (settings : Settings α) (t : Solved α) : Prop where
  failure_ne : t.failure ≠ none
  result_eq : t.result = .error (.nonFiniteIterate (t.solver.solution.trace.length + 1))
  aligned : t.solver.solution.trace.IsAligned
  iterations_eq : t.solver.solution.iterations = t.solver.solution.trace.length + 1
  progress_iterations_eq : t.solver.progress.iterations = t.solver.solution.trace.length + 1
  iterations_le : t.solver.solution.iterations ≤ settings.maxIter.toNat
  status_eq : t.solver.solution.status = .numericalError
  progress_status_eq : t.solver.progress.status = .numericalError
  objective_eq : t.solver.solution.objective = undefined
  relaxedObjective_eq : t.solver.solution.relaxedObjective = undefined
  exitFlag_eq : t.solver.solution.exitFlag = 0
  dual_eq : t.solver.solution.dual = none
  improvement_eq : t.solver.solution.improvement = none
  lineSearch_eq : t.solver.progress.lineSearch = none
  unconverged : ∀ k < t.solver.solution.trace.length,
    t.solver.solution.trace.convergedAt k = false

namespace Solver

variable {s : Solver α} {r : Run α}

theorem isComplete_run (s : Solver α) (hmaxIter : 0 < s.settings.maxIter.toNat)
    (hfailure : s.run.1 = none) : s.run.2.IsComplete s.settings.maxIter.toNat := by
  rcases Run.complete_cases s.problem s.settings s.ensemble s.progress hmaxIter with
    ⟨_, hr⟩ | ⟨hsome, _⟩
  · exact hr
  · exact absurd hfailure hsome

theorem isOngoing_run (s : Solver α) (hmaxIter : 0 < s.settings.maxIter.toNat) {f : Failure}
    (hfailure : s.run.1 = some f) : s.run.2.IsOngoing s.settings.maxIter.toNat := by
  rcases Run.complete_cases s.problem s.settings s.ensemble s.progress hmaxIter with
    ⟨hnone, _⟩ | ⟨_, hr⟩
  · cases hfailure.symm.trans hnone
  · exact hr

theorem isFinished_of_isComplete (hr : r.IsComplete s.settings.maxIter.toNat) {t : Solved α}
    (hends : s.Concludes r t) : t.IsFinished s.settings := by
  have htrace : t.solver.solution.trace = r.trace := by rw [hends.solution_eq]; rfl
  have hiterations : t.solver.solution.iterations = r.progress.iterations := by
    rw [hends.solution_eq]; rfl
  have hstatus : t.solver.solution.status = r.progress.status := by rw [hends.solution_eq]; rfl
  have hresiduals : t.solver.progress.residuals = r.progress.residuals := by
    rw [hends.progress_eq]; rfl
  have hflag : t.solver.solution.exitFlag = exitFlag (r.progress.status == .converged)
      t.solver.solution.primal.a s.settings.tol := by
    rw [hends.solution_eq]
    rfl
  refine ⟨hends.failure_eq, hends.result_eq, ?_, ?_, ?_, ?_, ?_, ?_, ?_, ?_, ?_, ?_, hends.dual⟩
  · rw [htrace]
    exact hr.aligned
  · rw [htrace, hiterations, hr.iterations_eq]
  · rw [htrace, hends.progress_eq]
    exact hr.iterations_eq
  · rw [hiterations, hr.iterations_eq]
    exact hr.length_pos
  · rw [hiterations, hr.iterations_eq]
    exact hr.length_le
  · rw [hends.progress_eq, hstatus]
    rfl
  · rw [htrace]
    exact hr.unconverged
  · rw [htrace, hresiduals]
    exact hr.last
  · intro hconverged
    rw [hresiduals] at hconverged
    have hverdict := hr.status_eq
    rw [if_pos hconverged] at hverdict
    rw [hstatus, hflag, hverdict]
    exact ⟨rfl, rfl⟩
  · intro hconverged
    rw [hresiduals] at hconverged
    have hverdict := hr.status_eq
    rw [hconverged, if_neg Bool.false_ne_true] at hverdict
    rw [hstatus, hflag, hverdict, hiterations, hr.iterations_eq]
    exact ⟨rfl, hr.exhausted hconverged, rfl⟩

theorem isFailed_of_isOngoing (hr : r.IsOngoing s.settings.maxIter.toNat) (f : Failure) :
    Solved.IsFailed s.settings
      ⟨some f, .error (.nonFiniteIterate (r.progress.iterations + 1)), s.afterFailure r⟩ := by
  have hiterations : r.progress.iterations + 1 = r.trace.length + 1 := by rw [hr.iterations_eq]
  refine ⟨Option.some_ne_none f, congrArg _ (congrArg _ hiterations), hr.aligned, hiterations,
    hiterations, ?_, rfl, rfl, rfl, rfl, rfl, rfl, rfl, hr.lineSearch_eq, hr.unconverged⟩
  show r.progress.iterations + 1 ≤ _
  rw [hr.iterations_eq]
  exact hr.length_lt

theorem solve_isFinished_or_isFailed (s : Solver α) (hmaxIter : 0 < s.settings.maxIter.toNat) :
    s.solve.IsFinished s.settings ∨ s.solve.IsFailed s.settings := by
  rcases s.solve_cases with ⟨f, hfailure, hsolve⟩ | ⟨hfailure, hends⟩
  · right
    rw [hsolve]
    exact isFailed_of_isOngoing (s.isOngoing_run hmaxIter hfailure) f
  · left
    exact isFinished_of_isComplete (s.isComplete_run hmaxIter hfailure) hends

/-- Over exact scalars only the partitions can answer what is not finite. -/
theorem solve_eq_ok {K : Type} [ExactScalar K] {s : Solver K} (h : s.ensemble.AnswersFinite)
    (hrecover : s.settings.recoverDuals = false) : s.solve.result = .ok () := by
  have hfinite : s.run.1 = none := Run.complete_eq_none s.progress h
  rcases s.solve_cases with ⟨f, hsome, _⟩ | ⟨_, hends⟩
  · cases hfinite.symm.trans hsome
  · exact hends.result_ok hrecover

omit [Scalar α] in
theorem answersFinite_answering (s : Solver α) {f : Nat → Array α → Bool × Array α}
    (hf : ∀ i b, (f i b).1 = true) : (s.answering f).ensemble.AnswersFinite := by
  intro m hm b
  rcases Array.mem_mapIdx.mp hm with ⟨i, _, rfl⟩
  exact hf i b

/-- Whatever its partitions answer, and whatever it solved before, a solver ends its next solve
in exactly one of the two ways. -/
theorem solve_outcome (h : Reachable methods data bound settings s) :
    Xor (s.solve.IsFinished settings) (s.solve.IsFailed settings) := by
  have hsettings := h.settings_eq
  have houtcome := s.solve_isFinished_or_isFailed (by rw [hsettings]; exact h.isValid.maxIter_pos)
  rw [hsettings] at houtcome
  rcases houtcome with hfinished | hfailed
  · exact Or.inl ⟨hfinished, fun hfailed => hfailed.failure_ne hfinished.failure_eq⟩
  · exact Or.inr ⟨hfailed, fun hfinished => hfailed.failure_ne hfinished.failure_eq⟩

theorem solve_outcome_threePoints : ∃ s : Solver ℚ,
    newBy .reversed threePoints.data (1 / 2) Settings.default = .ok s ∧
    Xor (((s.answering fun _ b => (false, b)).solve.solver.answering
        fun _ b => (true, b)).solve.IsFinished Settings.default)
      (((s.answering fun _ b => (false, b)).solve.solver.answering
        fun _ b => (true, b)).solve.IsFailed Settings.default) := by
  have hvalid : (Settings.default : Settings ℚ).validate = .ok () := by decide +kernel
  rcases exists_newBy .reversed Kkt.orders_reversedOrder hvalid threePoints_new (by decide) with
    ⟨s, hs⟩
  exact ⟨s, hs, solve_outcome (((Reachable.built hs).answering _).solved.answering _)⟩

end Solver
end SoftMargin
