import SoftMargin.Proofs.Ldl.Access
import SoftMargin.Solver.Basic

/-!
# Solvers in use

A solver is built and then solves any number of times. Nothing is assumed of
what its partitions answer: between two solves each of them may change to any
other behaviour. The program and the settings stay as they were given.
-/

namespace SoftMargin

open Scalar

variable {α : Type} [Scalar α]

/-!
## Settings
-/

structure Settings.IsValid (s : Settings α) : Prop where
  rho_finite : isFinite s.rho = true
  rho_pos : 0 < s.rho
  eta_ge : 0.25 ≤ s.eta
  eta_lt : s.eta < 1
  tol_nonneg : 0 ≤ s.tol
  reltol_nonneg : 0 ≤ s.reltol
  staticReg_nonneg : 0 ≤ s.staticReg
  marginTol_nonneg : 0 ≤ s.marginTol
  recoveryTol_nonneg : 0 ≤ s.recoveryTol
  partitions_ne : s.partitions ≠ 0
  maxIter_ne : s.maxIter ≠ 0

theorem Settings.require_eq_ok {field : SettingsField} {holds : Bool} :
    require field holds = .ok () ↔ holds = true := by
  cases holds with
  | true => simp [require]
  | false => simp [require]

theorem Settings.validate_eq_ok {s : Settings α} (h : s.validate = .ok ()) : s.IsValid := by
  unfold validate at h
  rcases Ldl.bind_eq_ok.mp h with ⟨⟨⟩, hrho, h⟩
  rcases Ldl.bind_eq_ok.mp h with ⟨⟨⟩, heta, h⟩
  rcases Ldl.bind_eq_ok.mp h with ⟨⟨⟩, htol, h⟩
  rcases Ldl.bind_eq_ok.mp h with ⟨⟨⟩, hreltol, h⟩
  rcases Ldl.bind_eq_ok.mp h with ⟨⟨⟩, hreg, h⟩
  rcases Ldl.bind_eq_ok.mp h with ⟨⟨⟩, hmargin, h⟩
  rcases Ldl.bind_eq_ok.mp h with ⟨⟨⟩, hrecovery, h⟩
  rcases Ldl.bind_eq_ok.mp h with ⟨⟨⟩, hpartitions, hmaxIter⟩
  unfold checkRho at hrho
  unfold checkEta at heta
  unfold checkNonneg at htol hreltol hreg hmargin hrecovery
  simp only [require_eq_ok, Bool.and_eq_true, decide_eq_true_eq, bne_iff_ne] at *
  exact ⟨hrho.left, hrho.right, heta.left, heta.right, htol, hreltol, hreg, hmargin, hrecovery,
    hpartitions, hmaxIter⟩

theorem Settings.IsValid.maxIter_pos {s : Settings α} (h : s.IsValid) : 0 < s.maxIter.toNat := by
  apply Nat.pos_of_ne_zero
  intro hzero
  exact h.maxIter_ne (UInt32.toNat_inj.mp hzero)

/-!
## Solvers
-/

namespace Solver

variable {methods : Methods α} {data : Matrix α} {bound : α} {settings : Settings α}
  {s : Solver α}

theorem newBy_eq_ok (h : newBy methods data bound settings = .ok s) :
    settings.validate = .ok () ∧ s.settings = settings ∧
      Problem.new data bound = .ok s.problem ∧
      ∃ parts, Partition.buildAllBy methods.order methods.draws s.problem settings = .ok parts ∧
        s.ensemble = Ensemble.start parts s.problem.features ∧
        s.solution = Solution.initial s.problem.features s.problem.points := by
  unfold newBy at h
  cases hvalid : settings.validate with
  | error source =>
      rw [hvalid] at h
      cases h
  | ok checked =>
      rw [hvalid] at h
      rcases Ldl.bind_eq_ok.mp h with ⟨problem, hproblem, h⟩
      rcases Ldl.bind_eq_ok.mp h with ⟨parts, hparts, h⟩
      cases h
      exact ⟨rfl, rfl, hproblem, parts, hparts, rfl, rfl⟩

/-- The solver with other answers of its partitions. -/
def answering (s : Solver α) (f : Nat → Array α → Bool × Array α) : Solver α :=
  { s with ensemble := { s.ensemble with
      members := s.ensemble.members.mapIdx fun i m =>
        ⟨{ m.partition with solve := f i }, m.state⟩ } }

/-- The solvers that come from building one and solving any number of times, whatever the
partitions answer. -/
inductive Reachable (methods : Methods α) (data : Matrix α) (bound : α) (settings : Settings α) :
    Solver α → Prop where
  | built {s : Solver α} (h : newBy methods data bound settings = .ok s) :
      Reachable methods data bound settings s
  | answering {s : Solver α} (h : Reachable methods data bound settings s)
      (f : Nat → Array α → Bool × Array α) :
      Reachable methods data bound settings (s.answering f)
  | solved {s : Solver α} (h : Reachable methods data bound settings s) :
      Reachable methods data bound settings s.solve.solver

/-- The run of the next solve, and what in it is not finite, if anything is. -/
def run (s : Solver α) : Option Failure × Run α :=
  Run.complete s.problem s.settings s.ensemble s.progress

/-- What a solve comes to after a run to the end. Only the multipliers are still to be found, which
changes nothing else. -/
structure Concludes (s : Solver α) (r : Run α) (t : Solved α) : Prop where
  failure_eq : t.failure = none
  result_eq : t.result = .ok () ∨ ∃ source, t.result = .error (.dualRecovery source)
  settings_eq : t.solver.settings = s.settings
  problem_eq : t.solver.problem = s.problem
  definite_eq : t.solver.definite = s.definite
  ensemble_eq : t.solver.ensemble = r.ensemble
  solution_eq : t.solver.solution =
    { (s.afterRun r).solution with dual := t.solver.solution.dual }
  progress_eq : t.solver.progress =
    { (s.afterRun r).progress with dualResidual := t.solver.progress.dualResidual }
  dual : t.solver.solution.dual.isSome = true →
    s.settings.recoverDuals = true ∧ t.result = .ok ()
  result_ok : s.settings.recoverDuals = false → t.result = .ok ()

theorem concludes_afterRun (s : Solver α) (r : Run α) :
    s.Concludes r ⟨none, .ok (), s.afterRun r⟩ :=
  ⟨rfl, Or.inl rfl, rfl, rfl, rfl, rfl, rfl, rfl, (fun h => by cases h), fun _ => rfl⟩

theorem concludes_addDual {s : Solver α} (hrecover : s.settings.recoverDuals = true)
    (r : Run α) : s.Concludes r ⟨none, (s.afterRun r).addDual.1, (s.afterRun r).addDual.2⟩ := by
  have hnot : s.settings.recoverDuals ≠ false := by
    rw [hrecover]
    exact Bool.false_ne_true.symm
  unfold addDual
  cases Dual.recover (s.afterRun r).definite (s.afterRun r).problem.data
      (s.afterRun r).problem.bound (s.afterRun r).solution.primal (s.afterRun r).solution.objective
      (s.afterRun r).settings with
  | error source =>
      exact ⟨rfl, Or.inr ⟨source, rfl⟩, rfl, rfl, rfl, rfl, rfl, rfl, (fun h => by cases h),
        fun hfalse => absurd hfalse hnot⟩
  | ok dual =>
      exact ⟨rfl, Or.inl rfl, rfl, rfl, rfl, rfl, rfl, rfl, fun _ => ⟨hrecover, rfl⟩, fun _ => rfl⟩

theorem solve_cases (s : Solver α) :
    (∃ f, s.run.1 = some f ∧ s.solve = ⟨some f,
      .error (.nonFiniteIterate (s.run.2.progress.iterations + 1)), s.afterFailure s.run.2⟩) ∨
    (s.run.1 = none ∧ s.Concludes s.run.2 s.solve) := by
  unfold solve run
  rcases Run.complete s.problem s.settings s.ensemble s.progress with ⟨failure, r⟩
  cases failure with
  | some f => exact Or.inl ⟨f, rfl, rfl⟩
  | none =>
      right
      cases hrecover : s.settings.recoverDuals with
      | true => exact ⟨rfl, concludes_addDual hrecover r⟩
      | false => exact ⟨rfl, s.concludes_afterRun r⟩

theorem solve_keeps (s : Solver α) : s.solve.solver.settings = s.settings ∧
    s.solve.solver.problem = s.problem ∧ s.solve.solver.ensemble = s.run.2.ensemble := by
  rcases s.solve_cases with ⟨f, _, hsolve⟩ | ⟨_, hends⟩
  · rw [hsolve]
    exact ⟨rfl, rfl, rfl⟩
  · exact ⟨hends.settings_eq, hends.problem_eq, hends.ensemble_eq⟩

theorem solve_definite (s : Solver α) : s.solve.solver.definite = s.definite := by
  rcases s.solve_cases with ⟨f, _, hsolve⟩ | ⟨_, hends⟩
  · rw [hsolve]
    rfl
  · exact hends.definite_eq

namespace Reachable

theorem settings_eq (h : Reachable methods data bound settings s) : s.settings = settings := by
  induction h with
  | built h => exact (newBy_eq_ok h).2.1
  | answering h f ih => exact ih
  | solved h ih => exact (solve_keeps _).left.trans ih

theorem isValid (h : Reachable methods data bound settings s) : settings.IsValid := by
  induction h with
  | built h => exact Settings.validate_eq_ok (newBy_eq_ok h).left
  | answering h f ih => exact ih
  | solved h ih => exact ih

theorem problem_eq (h : Reachable methods data bound settings s) :
    Problem.new data bound = .ok s.problem := by
  induction h with
  | built h => exact (newBy_eq_ok h).2.2.1
  | answering h f ih => exact ih
  | solved h ih =>
      rw [(solve_keeps _).2.1]
      exact ih

end Reachable

end Solver
end SoftMargin
