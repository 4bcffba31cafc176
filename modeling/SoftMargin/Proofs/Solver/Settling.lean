import SoftMargin.Proofs.LineSearch.Refine
import SoftMargin.Proofs.Program.Objective
import SoftMargin.Proofs.Solver.Outcome
import SoftMargin.Proofs.Solver.Stationary

/-!
# The point that a solve settles on

A solve settles on the last consensus, with its relaxed objective, or on what
the line search makes of the trace. A point from the line search is feasible and
priced exactly, and its objective is below the relaxed one. Point, slacks,
objective, improvement and verdict always belong together.
-/

namespace SoftMargin

open Scalar Finset

/-!
## The objective of a point
-/

section Objective

variable {K : Type} [ExactScalar K] {P : Problem K} {c : Array K} {before : PrimalSolution K}

theorem cost_ofConsensus (hP : P.IsProper) (hc : c.size = P.features + 1)
    (hbefore : before.xi.size = P.points) :
    P.cost (PrimalSolution.ofConsensus P.data before c) = LineSearch.objectiveAt P c := by
  have hsize : (c.extract 1 c.size).size = P.features := by
    rw [Array.size_extract, hc, min_self, Nat.add_sub_cancel]
  unfold LineSearch.objectiveAt Problem.objective Problem.cost
  rw [objectiveFromMargins_eq, Problem.size_margins]
  show -c.getD 0 0 + _ = _
  congr 2
  apply sum_congr rfl
  intro j hj
  have hmargin := Problem.getD_margins hP.complete hsize (mem_range.mp hj)
  rw [getD_xi_ofConsensus hc hP hbefore (mem_range.mp hj), hmargin]
  rfl

theorem feasible_ofConsensus (hP : P.IsProper) (hc : LineSearch.OnSimplex P.features c)
    (hbefore : before.xi.size = P.points) :
    P.Feasible (PrimalSolution.ofConsensus P.data before c) := by
  refine ⟨size_a_ofConsensus hc.size_eq, size_xi_ofConsensus hbefore, ?_, ?_, ?_, ?_⟩
  · intro j hj
    rw [getD_xi_ofConsensus hc.size_eq hP hbefore hj, ← sub_le_iff_le_add']
    exact le_max_left _ _
  · intro j hj
    rw [getD_xi_ofConsensus hc.size_eq hP hbefore hj]
    exact le_max_right _ _
  · intro k hk
    rw [getD_a_ofConsensus hc.size_eq hk]
    exact hc.nonneg k hk
  · rw [← hc.sum_eq]
    apply sum_congr rfl
    intro k hk
    rw [getD_a_ofConsensus hc.size_eq (mem_range.mp hk)]

theorem exitFlag_of_feasible {x : PrimalSolution K} (hx : P.Feasible x) (converged : Bool)
    {tol : K} (htol : 0 ≤ tol) :
    exitFlag converged x.a tol = 1 ∨ exitFlag converged x.a tol = 0 := by
  have hpoint : UnitSimplex.IsPoint P.features x.a := ⟨hx.size_a, hx.a_nonneg, hx.sum_a⟩
  have hnot : ¬(10.0 : K) * tol < UnitSimplex.defect x.a := by
    rw [hpoint.defect_eq_zero]
    exact not_lt.mpr (mul_nonneg (by norm_num) htol)
  unfold exitFlag
  cases converged with
  | true => exact Or.inl rfl
  | false =>
      rw [if_neg Bool.false_ne_true, if_neg hnot]
      exact Or.inr rfl

theorem threshold_append_weights {c : Array K} (hc : 0 < c.size) :
    #[c.getD 0 0] ++ c.extract 1 c.size = c := by
  have hfirst : #[c.getD 0 0].size = 1 := rfl
  apply ext_getD 0
  · rw [Array.size_append, Array.size_extract, hfirst]
    omega
  · intro k hk
    cases k with
    | zero =>
        rw [getD_append_left _ _ _ Nat.zero_lt_one]
        rfl
    | succ k =>
        rw [Array.size_append, Array.size_extract, hfirst] at hk
        rw [getD_append_right _ _ _ (Nat.succ_pos k), hfirst, Nat.add_sub_cancel,
          getD_extract _ _ (by omega), Nat.add_comm]

end Objective

/-!
## Settling
-/

namespace Solver

section Scalars

variable {α : Type} [Scalar α] {methods : Methods α} {data : Matrix α} {bound : α}
  {settings : Settings α} {s : Solver α}

/-- The line search was run, and what it found was adopted. -/
def Adopted (s : Solver α) : Prop :=
  ∃ report, s.progress.lineSearch = some report ∧ report.adopted = true

instance (s : Solver α) : Decidable s.Adopted :=
  decidable_of_iff (s.progress.lineSearch.any (·.adopted) = true) (Option.any_eq_true _ _)

/-- A run settles on a refined point with a smaller objective, or on the last consensus. -/
theorem settle_cases (s : Solver α) (r : Run α) :
    (∃ report point objective, (point, objective) =
        LineSearch.refine s.problem s.settings.maxBisect.toNat
          (LineSearch.ends s.settings.deepMinIter.toNat r.trace).2.1
          (LineSearch.ends s.settings.deepMinIter.toNat r.trace).2.2 ∧
      report.adopted = true ∧ objective < r.progress.residuals.objective ∧
      s.settle r = ⟨point, objective, some report,
        some (r.progress.residuals.objective - objective)⟩) ∨
    ∃ lineSearch, (∀ report, lineSearch = some report → report.adopted = false) ∧
      s.settle r =
        ⟨r.ensemble.consensus, r.progress.residuals.objective, lineSearch, none⟩ := by
  unfold settle
  dsimp only
  by_cases hskip : r.progress.status = .converged ∧ (!s.settings.forceLineSearch) = true
  · rw [if_pos hskip]
    refine Or.inr ⟨none, ?_, rfl⟩
    intro report hreport
    cases hreport
  · rw [if_neg hskip]
    rcases LineSearch.run_cases s.problem s.settings.deepMinIter.toNat
        s.settings.maxBisect.toNat r.trace r.progress.residuals.objective with
      ⟨point, objective, hrefine, hrefined, hobjective, hadopted, himprovement⟩ |
        ⟨_, _, hadopted, _⟩
    · by_cases hbelow : objective < r.progress.residuals.objective
      · rw [decide_eq_true hbelow] at hadopted
        rw [if_pos hbelow] at himprovement
        rw [hadopted, hrefined, hobjective, himprovement]
        exact Or.inl ⟨_, point, objective, hrefine, hadopted, hbelow, rfl⟩
      · rw [decide_eq_false hbelow] at hadopted
        rw [hadopted]
        refine Or.inr ⟨_, ?_, rfl⟩
        intro report hreport
        rw [← Option.some.inj hreport]
        exact hadopted
    · rw [hadopted]
      refine Or.inr ⟨_, ?_, rfl⟩
      intro report hreport
      rw [← Option.some.inj hreport]
      exact hadopted

theorem Reachable.size_consensus (h : Reachable methods data bound settings s) :
    s.ensemble.consensus.size = s.problem.features + 1 := by
  induction h with
  | built h =>
      rcases (newBy_eq_ok h).2.2.2 with ⟨parts, _, hensemble, _⟩
      rw [hensemble]
      exact Array.size_replicate
  | answering h f ih => exact ih
  | solved h ih =>
      rw [(solve_keeps _).2.1, (solve_keeps _).2.2]
      exact (Run.holdsConsensus_complete _ ih).size_ensemble

theorem Reachable.size_xi (h : Reachable methods data bound settings s) :
    s.solution.primal.xi.size = s.problem.points := by
  induction h with
  | built h =>
      rcases (newBy_eq_ok h).2.2.2 with ⟨parts, _, _, hsolution⟩
      rw [hsolution]
      exact Array.size_replicate
  | answering h f ih => exact ih
  | @solved s h ih =>
      have hnew : ∀ r, (s.afterRun r).solution.primal.xi.size = s.problem.points := by
        intro r
        refine Array.size_map.trans ?_
        unfold Matrix.transposeMulAdd
        rw [Array.size_zipWith, Array.size_range, ih]
        exact min_self _
      rw [s.solve_keeps.2.1]
      rcases s.solve_cases with ⟨f, _, hsolve⟩ | ⟨_, hends⟩
      · rw [hsolve]
        exact ih
      · rw [hends.solution_eq]
        exact hnew s.run.2

end Scalars

variable {K : Type} [ExactScalar K] {methods : Methods K} {data : Matrix K} {bound : K}
  {settings : Settings K} {s : Solver K} {P : Problem K}

/-- The point is feasible, its slacks and its objective are exact, and the verdict on its weights is
not that they are off the simplex. -/
structure IsPriced (P : Problem K) (s : Solver K) : Prop where
  feasible : P.Feasible s.solution.primal
  xi_eq : ∀ j < P.points, s.solution.primal.xi.getD j 0 =
    max (s.solution.primal.threshold - P.marginAt s.solution.primal j) 0
  objective_eq : s.solution.objective = P.cost s.solution.primal
  exitFlag_eq : s.solution.exitFlag = 1 ∨ s.solution.exitFlag = 0

/-- The point is the last consensus of the trace, and the objective is the relaxed one that is
recorded with it. -/
structure IsLastRecorded (s : Solver K) : Prop where
  length_pos : 0 < s.solution.trace.length
  consensus_eq : s.solution.trace.consensusAt? (s.solution.trace.length - 1) =
    some (#[s.solution.primal.threshold] ++ s.solution.primal.a)
  objective_eq : s.solution.trace.objective[s.solution.trace.length - 1]? =
    some s.solution.objective

/-- Point, objective, improvement and verdict come from the same source. -/
structure IsSettled (P : Problem K) (s : Solver K) : Prop where
  objective_le : s.solution.objective ≤ s.solution.relaxedObjective
  objective_lt_iff : s.solution.objective < s.solution.relaxedObjective ↔ s.Adopted
  adopted : s.Adopted → s.solution.improvement =
    some (s.solution.relaxedObjective - s.solution.objective) ∧ s.IsPriced P
  not_adopted : ¬s.Adopted → s.solution.improvement = none ∧ s.IsLastRecorded

theorem isPriced_of_onSimplex {c : Array K} {before : PrimalSolution K} (hP : P.IsProper)
    (hc : LineSearch.OnSimplex P.features c) (hbefore : before.xi.size = P.points)
    (hprimal : s.solution.primal = PrimalSolution.ofConsensus P.data before c)
    (hobjective : s.solution.objective = LineSearch.objectiveAt P c) {converged : Bool} {tol : K}
    (htol : 0 ≤ tol) (hflag : s.solution.exitFlag = exitFlag converged s.solution.primal.a tol) :
    s.IsPriced P := by
  have hfeasible := feasible_ofConsensus hP hc hbefore
  refine ⟨?_, ?_, ?_, ?_⟩
  · rw [hprimal]
    exact hfeasible
  · intro j hj
    rw [hprimal]
    exact getD_xi_ofConsensus hc.size_eq hP hbefore hj
  · rw [hobjective, hprimal, cost_ofConsensus hP hc.size_eq hbefore]
  · rw [hflag, hprimal]
    exact exitFlag_of_feasible hfeasible converged htol

/-- The multipliers are recovered for the point that is settled on, and leave it as it is. -/
theorem isSettled_of_isComplete (hP : s.problem.IsProper) (htol : 0 ≤ s.settings.tol)
    (hxi : s.solution.primal.xi.size = s.problem.points) {r : Run K} {maxIter : Nat}
    (hr : r.IsComplete maxIter) (hholds : r.HoldsConsensus (s.problem.features + 1)) {t : Solved K}
    (hends : s.Concludes r t) : t.solver.IsSettled s.problem := by
  have hwidth : r.trace.consensus.size = r.trace.length * r.trace.width := by
    rw [hholds.width_eq]
    exact hholds.size_consensus
  have hprimal : t.solver.solution.primal =
      PrimalSolution.ofConsensus s.problem.data s.solution.primal (s.settle r).point := by
    rw [hends.solution_eq]
    rfl
  have hobjective : t.solver.solution.objective = (s.settle r).objective := by
    rw [hends.solution_eq]
    rfl
  have hrelaxed : t.solver.solution.relaxedObjective = r.progress.residuals.objective := by
    rw [hends.solution_eq]
    rfl
  have himprovement : t.solver.solution.improvement = (s.settle r).improvement := by
    rw [hends.solution_eq]
    rfl
  have htrace : t.solver.solution.trace = r.trace := by
    rw [hends.solution_eq]
    rfl
  have hflag : t.solver.solution.exitFlag = exitFlag (r.progress.status == .converged)
      t.solver.solution.primal.a s.settings.tol := by
    rw [hends.solution_eq]
    rfl
  have hsearch : t.solver.progress.lineSearch = (s.settle r).lineSearch := by
    rw [hends.progress_eq]
    rfl
  rcases s.settle_cases r with
    ⟨report, point, objective, hrefine, hadopted, hbelow, hsettle⟩ | ⟨lineSearch, hnone, hsettle⟩
  · rw [hsettle] at hprimal hobjective himprovement hsearch
    have hends := LineSearch.size_ends s.settings.deepMinIter.toNat hwidth
    rw [hholds.width_eq] at hends
    have hspec := LineSearch.refine_spec s.problem s.settings.maxBisect.toNat hP.features_pos
      hends.left hends.right
    rw [← hrefine] at hspec
    have hlt : t.solver.solution.objective < t.solver.solution.relaxedObjective := by
      rw [hobjective, hrelaxed]
      exact hbelow
    have hfound : t.solver.Adopted := ⟨report, hsearch, hadopted⟩
    refine ⟨hlt.le, iff_of_true hlt hfound, ?_, fun hnot => absurd hfound hnot⟩
    intro _
    constructor
    · rw [himprovement, hrelaxed, hobjective]
    · exact isPriced_of_onSimplex hP hspec.left hxi hprimal (hobjective.trans hspec.right) htol
        hflag
  · rw [hsettle] at hprimal hobjective himprovement hsearch
    have heq : t.solver.solution.objective = t.solver.solution.relaxedObjective :=
      hobjective.trans hrelaxed.symm
    have hnot : ¬t.solver.Adopted := by
      rintro ⟨report, hreport, hadopted⟩
      rw [hnone report (hsearch.symm.trans hreport)] at hadopted
      cases hadopted
    refine ⟨heq.le, iff_of_false heq.not_lt hnot, fun h => absurd h hnot, ?_⟩
    intro _
    refine ⟨himprovement, ?_, ?_, ?_⟩
    · rw [htrace]
      exact hr.length_pos
    · rw [htrace, hr.consensusAt_last hholds, hprimal]
      have hsize : 0 < r.ensemble.consensus.size := by
        rw [hholds.size_ensemble]
        exact Nat.succ_pos _
      exact congrArg some (threshold_append_weights hsize).symm
    · rw [htrace, hobjective]
      exact Trace.objective_of_residualsAt? hr.last

/-- Every solve that is not stopped settles on one point, whatever was solved before. -/
theorem solve_isSettled (h : Reachable methods data bound settings s)
    (hresult : s.solve.result = .ok () ∨ ∃ source, s.solve.result = .error (.dualRecovery source)) :
    s.solve.solver.IsSettled ⟨data, bound⟩ := by
  have hsettings := h.settings_eq
  have htol : 0 ≤ s.settings.tol := by
    rw [hsettings]
    exact h.isValid.tol_nonneg
  have hmaxIter : 0 < s.settings.maxIter.toNat := by
    rw [hsettings]
    exact h.isValid.maxIter_pos
  have hP := Problem.new_eq_ok h.problem_eq
  have hholds : s.run.2.HoldsConsensus (s.problem.features + 1) :=
    Run.holdsConsensus_complete s.progress h.size_consensus
  rw [← Problem.eq_of_new h.problem_eq]
  rcases s.solve_cases with ⟨f, _, hsolve⟩ | ⟨hfailure, hends⟩
  · rw [hsolve] at hresult
    rcases hresult with hok | ⟨source, herror⟩
    · cases hok
    · cases herror
  · exact isSettled_of_isComplete hP htol h.size_xi (s.isComplete_run hmaxIter hfailure) hholds
      hends

/-- Answers of low cost, which are their right hand sides, and answers of high cost with weights
that grow. The last consensus is kept for the former, and improved on for the latter. -/
theorem solve_isSettled_threePoints :
    let settings : Settings ℚ := { Settings.default with maxIter := 2, maxBisect := 2 }
    let low : Nat → Array ℚ → Bool × Array ℚ := fun _ b => (true, b)
    let high : Nat → Array ℚ → Bool × Array ℚ := fun _ b =>
      (true, #[1, 1, 1, 0, 0, 0, 0, b.getD 7 0 + 1, 1])
    ∃ s : Solver ℚ, newBy .reversed threePoints.data threePoints.bound settings = .ok s ∧
      let kept := (s.answering low).solve
      let improved := (s.answering high).solve
      kept.result = .ok () ∧ ¬kept.solver.Adopted ∧ kept.solver.IsSettled threePoints ∧
        improved.result = .ok () ∧ improved.solver.Adopted ∧
          improved.solver.IsSettled threePoints := by
  intro settings low high
  have hvalid : settings.validate = .ok () := by decide +kernel
  have hfound : ((newBy .reversed threePoints.data threePoints.bound settings).toOption.map fun s =>
      (decide (s.answering low).solve.solver.Adopted,
        decide (s.answering high).solve.solver.Adopted)) = some (false, true) := by
    unfold newBy Partition.buildAllBy
    rw [hvalid, threePoints_new]
    dsimp only
    rw [Ldl.ok_bind, Partition.buildEach_one _ _ (by decide) (by decide)]
    decide +kernel
  rcases exists_newBy .reversed Kkt.orders_reversedOrder hvalid threePoints_new (by decide) with
    ⟨s, hs⟩
  rw [hs] at hfound
  obtain ⟨hkept, himproved⟩ := Prod.mk.inj (Option.some.inj hfound)
  have hends : ∀ f : Nat → Array ℚ → Bool × Array ℚ, (∀ i b, (f i b).1 = true) →
      (s.answering f).solve.result = .ok () ∧
        (s.answering f).solve.solver.IsSettled threePoints := by
    intro f hf
    have hreachable := (Reachable.built hs).answering f
    have hok := solve_eq_ok (answersFinite_answering s hf)
      (show (s.answering f).settings.recoverDuals = false by
        rw [hreachable.settings_eq]
        rfl)
    exact ⟨hok, solve_isSettled hreachable (Or.inl hok)⟩
  obtain ⟨hkeptOk, hkeptSettled⟩ := hends low fun _ _ => rfl
  obtain ⟨himprovedOk, himprovedSettled⟩ := hends high fun _ _ => rfl
  exact ⟨s, hs, hkeptOk, of_decide_eq_false hkept, hkeptSettled, himprovedOk,
    of_decide_eq_true himproved, himprovedSettled⟩

end Solver
end SoftMargin
