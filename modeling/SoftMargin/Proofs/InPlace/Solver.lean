import SoftMargin.InPlace.Solver
import SoftMargin.Proofs.InPlace.Ensemble
import SoftMargin.Proofs.Solver.Building

/-!
# Solving in place

A solve in the vectors of earlier solves is the solve of the partitions that
answer each right hand side afresh. So a solver that has been used is as good as
one that has just been built.
-/

namespace SoftMargin
namespace InPlace

variable {K : Type} [ExactScalar K]

/-!
## Runs
-/

theorem Ensemble.simulates (verdict : Verdict K) (features : Nat) :
    (operations verdict).Simulates SoftMargin.Ensemble.operations
      (fun e e' => e.Fits features ∧ e.forget verdict = e') where
  members_eq := by
    rintro e _ ⟨-, rfl⟩
    exact Array.size_map.symm
  consensus_eq := by
    rintro e _ ⟨-, rfl⟩
    rfl
  copies_eq := by
    rintro e _ ⟨-, rfl⟩
    exact copies_eq verdict e
  sums_eq := by
    rintro e _ ⟨-, rfl⟩ rho
    exact sums_eq verdict e rho
  reset := by
    rintro e _ ⟨h, rfl⟩
    exact h.reset verdict
  updateX := by
    rintro e _ ⟨h, rfl⟩ rho
    obtain ⟨hfits, hfinite, hforget⟩ := h.updateX verdict rho
    exact ⟨hfinite, hfits, hforget⟩
  project := by
    rintro e _ ⟨h, rfl⟩
    exact h.project verdict

theorem Ensemble.Fits.complete {e : Ensemble K} {features : Nat} (h : e.Fits features)
    (verdict : Verdict K) (P : Problem K) (settings : Settings K) (progress : Progress K) :
    let r := (operations verdict).complete P settings e progress
    r.2.ensemble.Fits features ∧
      SoftMargin.Run.complete P settings (e.forget verdict) progress =
        (r.1, Run.forget verdict r.2) := by
  intro r
  obtain ⟨hfailure, ⟨hfits, hensemble⟩, htrace, hprogress⟩ :=
    (simulates verdict features).complete ⟨h, rfl⟩ P settings progress
  refine ⟨hfits, Prod.ext hfailure.symm ?_⟩
  unfold Run.forget
  rw [hensemble, htrace, hprogress]
  rfl

/-!
## Solvers
-/

namespace Solver

def Fits (s : Solver K) : Prop :=
  s.ensemble.Fits s.problem.features

theorem forget_reporting (verdict : Verdict K) {s : Solver K} {r : Run K}
    {t : SoftMargin.Solver K} (hproblem : t.problem = s.problem)
    (hsettings : t.settings = s.settings) (hdefinite : t.definite = s.definite)
    (hensemble : t.ensemble = r.ensemble.forget verdict) :
    (s.reporting r t).forget verdict = t := by
  unfold forget reporting
  dsimp only
  rw [← hproblem, ← hsettings, ← hdefinite, ← hensemble]

theorem Fits.solve {s : Solver K} (h : s.Fits) (verdict : Verdict K) :
    (s.solve verdict).2.Fits ∧ (s.solve verdict).1 = (s.forget verdict).solve.result ∧
      (s.solve verdict).2.forget verdict = (s.forget verdict).solve.solver := by
  obtain ⟨hfits, hcomplete⟩ := Ensemble.Fits.complete h verdict s.problem s.settings s.progress
  rcases hrun : (Ensemble.operations verdict).complete s.problem s.settings s.ensemble s.progress
    with ⟨failure, r⟩
  rw [hrun] at hfits hcomplete
  have hplain : SoftMargin.Run.complete (s.forget verdict).problem (s.forget verdict).settings
      (s.forget verdict).ensemble (s.forget verdict).progress = (failure, Run.forget verdict r) :=
    hcomplete
  unfold Solver.solve SoftMargin.Solver.solve
  rw [hrun, hplain]
  dsimp only
  cases failure with
  | some f => exact ⟨hfits, rfl, rfl⟩
  | none =>
      have hkeeps := ((s.forget verdict).afterRun (Run.forget verdict r)).addDual_keeps
      rcases hdual : ((s.forget verdict).afterRun (Run.forget verdict r)).addDual with ⟨result, t⟩
      rw [hdual] at hkeeps
      have hreporting := forget_reporting verdict hkeeps.left hkeeps.2.1 hkeeps.2.2.1 hkeeps.2.2.2
      have hrecover : (s.forget verdict).settings.recoverDuals = s.settings.recoverDuals := rfl
      dsimp only
      rw [hrecover]
      cases s.settings.recoverDuals with
      | true => exact ⟨hfits, rfl, hreporting⟩
      | false => exact ⟨hfits, rfl, rfl⟩

end Solver

/-!
## Building
-/

section Building

variable {methods : Methods K} {P : Problem K} {data : Matrix K} {bound : K}
  {settings : Settings K}

omit [ExactScalar K] in
theorem map_buildGroups {β γ : Type} (f : β → γ) {build : Array Nat → Except LdlError β}
    {build' : Array Nat → Except LdlError γ} (h : ∀ columns, (build columns).map f = build' columns)
    (i : Nat) (groups : List (Array Nat)) :
    (Partition.buildGroups build i groups : Except (SolverError K) (List β)).map (List.map f) =
      Partition.buildGroups build' i groups := by
  induction groups generalizing i with
  | nil => rfl
  | cons columns rest ih =>
      unfold Partition.buildGroups
      rw [← h columns]
      cases build columns with
      | error source => rfl
      | ok p =>
          rw [← ih (i + 1)]
          cases (Partition.buildGroups build (i + 1) rest : Except (SolverError K) (List β)) with
          | error e => rfl
          | ok ps => rfl

omit [ExactScalar K] in
theorem map_bind_toArray {ε β γ : Type} (f : β → γ) (x : Except ε (List β)) :
    (x >>= fun xs => pure xs.toArray).map (Array.map f) =
      (x.map (List.map f)).map List.toArray := by
  cases x with
  | error e => rfl
  | ok xs => exact congrArg Except.ok List.map_toArray

theorem Member.forget_newBy (rule : Ldl.OrderingRule K) (P : Problem K) (settings : Settings K)
    (columns : Array Nat) : (Member.newBy rule P settings columns).map (Member.forget .plain) =
      (Partition.newBy rule P settings columns).map fun p => ⟨p, p.initialState⟩ := by
  unfold Member.newBy Partition.newBy
  cases KktSolver.newBy rule (P.data.select columns) settings with
  | error e => rfl
  | ok kkt => rfl

theorem Member.forget_buildAllBy (rule : Ldl.OrderingRule K) (draws : Random.Generator)
    (P : Problem K) (settings : Settings K) :
    (Member.buildAllBy rule draws P settings).map (Array.map (Member.forget .plain)) =
      (Partition.buildAllBy rule draws P settings).map
        (Array.map fun p => ⟨p, p.initialState⟩) := by
  let groups := (Random.seededGroups draws P.points settings.partitions.toNat settings.seed).toList
  have hgroups : (Partition.buildGroups (Member.newBy rule P settings) 0 groups :
      Except (SolverError K) (List (Member K))).map (List.map (Member.forget .plain)) =
        (Partition.buildGroups (Partition.newBy rule P settings) 0 groups).map
          (List.map fun p => ⟨p, p.initialState⟩) :=
    (map_buildGroups _ (Member.forget_newBy rule P settings) 0 groups).trans
      (map_buildGroups _ (fun columns => rfl) 0 groups).symm
  unfold Member.buildAllBy Partition.buildAllBy Partition.buildEach
  dsimp only
  split_ifs
  · rfl
  · have hall := congrArg (Except.map List.toArray) hgroups
    rw [← map_bind_toArray, ← map_bind_toArray] at hall
    exact hall

theorem Solver.forget_start (definite : BoundedLeastSquares.DefiniteSolver K)
    {members : Array (Member K)} {parts : Array (Partition K)}
    (h : members.map (Member.forget .plain) = parts.map fun p => ⟨p, p.initialState⟩) :
    (Solver.start definite P settings members).forget .plain =
      SoftMargin.Solver.start definite P settings parts := by
  have hsizes : members.map (·.columns.size) = parts.map (·.points) := by
    have hpoints := congrArg (Array.map (·.partition.points)) h
    rw [Array.map_map, Array.map_map] at hpoints
    exact hpoints
  unfold Solver.start Solver.forget Ensemble.forget SoftMargin.Solver.start
    SoftMargin.Ensemble.start
  dsimp only
  rw [h, hsizes]

theorem Solver.forget_newBy (methods : Methods K) (data : Matrix K) (bound : K)
    (settings : Settings K) :
    (Solver.newBy methods data bound settings).map (Solver.forget .plain) =
      SoftMargin.Solver.newBy methods data bound settings := by
  unfold Solver.newBy SoftMargin.Solver.newBy
  cases settings.validate with
  | error source => rfl
  | ok checked =>
      cases Problem.new data bound with
      | error e => rfl
      | ok P =>
          have hbuilt := Member.forget_buildAllBy methods.order methods.draws P settings
          dsimp only
          rw [Ldl.ok_bind, Ldl.ok_bind]
          cases hmembers : Member.buildAllBy methods.order methods.draws P settings with
          | error e =>
              cases hparts : Partition.buildAllBy methods.order methods.draws P settings with
              | error e' =>
                  rw [hmembers, hparts] at hbuilt
                  cases hbuilt
                  rfl
              | ok parts =>
                  rw [hmembers, hparts] at hbuilt
                  cases hbuilt
          | ok members =>
              cases hparts : Partition.buildAllBy methods.order methods.draws P settings with
              | error e =>
                  rw [hmembers, hparts] at hbuilt
                  cases hbuilt
              | ok parts =>
                  rw [hmembers, hparts] at hbuilt
                  exact congrArg Except.ok
                    (Solver.forget_start methods.definite (Except.ok.inj hbuilt))

variable (hrule : ∀ (A : Csc K) order, methods.order A = .ok order → Ldl.IsOrder order A.cols)

include hrule

theorem Member.fits_newBy {columns : Array Nat} {m : Member K}
    (h : Member.newBy methods.order P settings columns = .ok m) :
    m.Fits ∧ m.features = P.features := by
  unfold Member.newBy at h
  rcases Ldl.bind_eq_ok.mp h with ⟨kkt, hkkt, heq⟩
  cases heq
  rcases KktSolver.newBy_isFactored hrule hkkt with ⟨hfactored, hdimension⟩
  have hzero : (zeros (2 * columns.size + P.features + 1) : Array K).size =
    2 * columns.size + P.features + 1 := size_zeros _
  exact ⟨⟨Partition.size_costsFor P columns.size, hzero, hzero, hzero, hzero,
    System.fits_start hfactored, hdimension⟩, rfl⟩

theorem Solver.fits_newBy {s : Solver K} (h : Solver.newBy methods data bound settings = .ok s) :
    s.Fits ∧ s.solution.primal.xi.size = s.problem.points := by
  unfold Solver.newBy at h
  cases hvalid : settings.validate with
  | error source =>
      rw [hvalid] at h
      cases h
  | ok checked =>
      rw [hvalid] at h
      rcases Ldl.bind_eq_ok.mp h with ⟨P, _, h⟩
      rcases Ldl.bind_eq_ok.mp h with ⟨members, hmembers, h⟩
      cases h
      have hall : ∀ m ∈ members, m.Fits ∧ m.features = P.features := by
        intro m hm
        unfold Member.buildAllBy Partition.buildEach at hmembers
        dsimp only at hmembers
        split_ifs at hmembers
        · cases hmembers
        · rcases Ldl.bind_eq_ok.mp hmembers with ⟨ms, hms, heq⟩
          cases heq
          rcases Partition.exists_of_mem_buildGroups hms m (List.mem_toArray.mp hm) with
            ⟨columns, _, hm⟩
          exact Member.fits_newBy hrule hm
      exact ⟨⟨fun m hm => (hall m hm).left, fun m hm => (hall m hm).right, size_zeros _,
        size_zeros _⟩, size_zeros _⟩

end Building

/-!
## Solving again
-/

namespace Solver

def withTimes (s : Solver K) (setup solve : Float) : Solver K :=
  { s with progress := s.progress.withTimes setup solve }

/-- The solvers that come from one by solving any number of times. After each solve the times that
were measured are shown. -/
inductive Used (verdict : Verdict K) (s₀ : Solver K) : Solver K → Prop where
  | unused : Used verdict s₀ s₀
  | solved {s : Solver K} (h : Used verdict s₀ s) (setup solve : Float) :
      Used verdict s₀ ((s.solve verdict).2.withTimes setup solve)

variable {methods : Methods K} {data : Matrix K} {bound : K} {settings : Settings K}
  {s₀ s : Solver K} {verdict : Verdict K}

theorem Used.resumes (h : Used verdict s₀ s) (hs₀ : s₀.Fits)
    (hslacks : s₀.solution.primal.xi.size = s₀.problem.points) :
    s.Fits ∧ (s₀.forget verdict).Resumes (s.forget verdict) := by
  induction h with
  | unused => exact ⟨hs₀, SoftMargin.Solver.resumes_self hslacks⟩
  | solved h setup solve ih =>
      rcases ih.left.solve verdict with ⟨hfits, _, hforget⟩
      have hresumes := ih.right.solve hslacks
      rw [← hforget] at hresumes
      exact ⟨hfits, hresumes.withTimes setup solve⟩

theorem Used.solve_eq (h : Used verdict s₀ s) (hs₀ : s₀.Fits)
    (hslacks : s₀.solution.primal.xi.size = s₀.problem.points) :
    (s.solve verdict).1 = (s₀.forget verdict).solve.result ∧
      (s.solve verdict).2.forget verdict =
        (s₀.forget verdict).solve.solver.withTimes s.progress.setupTime 0 := by
  rcases h.resumes hs₀ hslacks with ⟨hfits, hresumes⟩
  rcases hfits.solve verdict with ⟨_, hresult, hforget⟩
  rw [hresumes.solve_eq hslacks] at hresult hforget
  exact ⟨hresult, hforget⟩

section Built

variable (hrule : ∀ (A : Csc K) order, methods.order A = .ok order → Ldl.IsOrder order A.cols)
  (hs₀ : newBy methods data bound settings = .ok s₀)

include hrule hs₀

/-- Where every answer passes for what it is, a solver computes in its vectors what it would without
them. -/
theorem solve_plain (h : Used .plain s₀ s) :
    ∃ t, SoftMargin.Solver.newBy methods data bound settings = .ok t ∧
      (s.solve .plain).1 = t.solve.result ∧
      (s.solve .plain).2.solution = t.solve.solver.solution := by
  rcases fits_newBy hrule hs₀ with ⟨hfits₀, hslacks⟩
  rcases h.solve_eq hfits₀ hslacks with ⟨hresult, hforget⟩
  refine ⟨s₀.forget .plain, ?_, hresult, congrArg SoftMargin.Solver.solution hforget⟩
  rw [← forget_newBy, hs₀]
  rfl

/-- Whatever a solver has solved before, and however that ended, its next solve is the first one of
a solver that has just been built of the same. Only the times may differ. Where every answer passes
for what it is, it is also the first one without vectors. -/
theorem solve_repeats (verdict : Verdict K) (h : Used verdict s₀ s) :
    (s.solve verdict).1 = (s₀.solve verdict).1 ∧
      (s.solve verdict).2.solution = (s₀.solve verdict).2.solution ∧
      (s.solve verdict).2.progress.withTimes 0 0 =
        (s₀.solve verdict).2.progress.withTimes 0 0 ∧
      (verdict = .plain → ∃ t, SoftMargin.Solver.newBy methods data bound settings = .ok t ∧
        (s.solve verdict).1 = t.solve.result ∧
        (s.solve verdict).2.solution = t.solve.solver.solution) := by
  rcases fits_newBy hrule hs₀ with ⟨hfits₀, hslacks⟩
  rcases h.solve_eq hfits₀ hslacks with ⟨hresult, hforget⟩
  rcases Used.unused.solve_eq hfits₀ hslacks with ⟨hresult₀, hforget₀⟩
  refine ⟨hresult.trans hresult₀.symm, ?_, ?_, ?_⟩
  · have hsolution := congrArg SoftMargin.Solver.solution hforget
    have hsolution₀ := congrArg SoftMargin.Solver.solution hforget₀
    exact hsolution.trans hsolution₀.symm
  · have hprogress := congrArg (fun t => t.progress.withTimes 0 0) hforget
    have hprogress₀ := congrArg (fun t => t.progress.withTimes 0 0) hforget₀
    exact hprogress.trans hprogress₀.symm
  · rintro rfl
    exact solve_plain hrule hs₀ h

end Built

theorem exists_newBy_one {P : Problem K} (methods : Methods K)
    (hvalid : settings.validate = .ok ()) (hproblem : Problem.new data bound = .ok P)
    (hone : settings.partitions.toNat = 1) (hpoints : 0 < P.points)
    {result : Except (SolverError K) Unit}
    (hends : (Member.newBy methods.order P settings (Array.range P.points)).toOption.map
      (fun m => ((start methods.definite P settings #[m]).solve verdict).1) = some result) :
    ∃ s, newBy methods data bound settings = .ok s ∧ (s.solve verdict).1 = result := by
  unfold newBy Member.buildAllBy
  rw [hvalid, hproblem]
  dsimp only
  rw [Ldl.ok_bind, Partition.buildEach_one methods.draws _ hone hpoints]
  unfold Partition.buildGroups
  cases hm : Member.newBy methods.order P settings (Array.range P.points) with
  | error e =>
      rw [hm] at hends
      cases hends
  | ok m =>
      rw [hm] at hends
      exact ⟨_, rfl, Option.some.inj hends⟩

def singlePoint : Problem ℚ :=
  ⟨⟨1, 1, #[1]⟩, 1⟩

structure Ending where
  settings : Settings ℚ
  verdict : Verdict ℚ
  result : Except (SolverError ℚ) Unit

/-- The second iteration is answered by what does not pass for finite; a run finishes; the
multipliers recovered after one iteration do not fit. -/
def endings : List Ending :=
  let short : Settings ℚ := { Settings.default with maxIter := 1, staticReg := 0 }
  [⟨{ short with maxIter := 2 }, fun _ b _ => b.getD 0 0 == -1, .error (.nonFiniteIterate 2)⟩,
    ⟨short, .plain, .ok ()⟩,
    ⟨{ short with recoverDuals := true, checkResidual := true }, .plain,
      .error (.dualRecovery (.inconsistent (1 / 3)))⟩]

theorem solve_repeats_singlePoint : endings.Forall fun e => ∃ s₀ : Solver ℚ,
    newBy .standard singlePoint.data singlePoint.bound e.settings = .ok s₀ ∧
    (s₀.solve e.verdict).1 = e.result ∧
    let s := (((s₀.solve e.verdict).2.withTimes 1 2).solve e.verdict).2.withTimes 1 3
    (s.solve e.verdict).1 = e.result ∧
      (s.solve e.verdict).2.solution = (s₀.solve e.verdict).2.solution ∧
      (s.solve e.verdict).2.progress.withTimes 0 0 =
        (s₀.solve e.verdict).2.progress.withTimes 0 0 := by
  rw [List.forall_iff_forall_mem]
  intro e he
  have hproblem : Problem.new singlePoint.data singlePoint.bound = .ok singlePoint := by
    unfold Problem.new
    rw [if_neg (by decide +kernel), if_neg (by decide +kernel), if_neg (by decide +kernel)]
  have hchecked : ∀ e ∈ endings, e.settings.validate = .ok () ∧
      e.settings.partitions.toNat = 1 := by
    decide +kernel
  have hends : ∀ e ∈ endings, (Member.newBy Methods.standard.order singlePoint e.settings
      (Array.range singlePoint.points)).toOption.map (fun m =>
        ((start Methods.standard.definite singlePoint e.settings #[m]).solve e.verdict).1) =
          some e.result := by
    decide +kernel
  obtain ⟨hvalid, hone⟩ := hchecked e he
  obtain ⟨s₀, hs₀, hresult₀⟩ := exists_newBy_one .standard hvalid hproblem hone (by decide)
    (hends e he)
  obtain ⟨hresult, hsolution, hprogress, -⟩ := solve_repeats
    (fun A order => Ldl.isOrder_naturalOrder A) hs₀ e.verdict
    ((Used.unused.solved 1 2).solved 1 3)
  exact ⟨s₀, hs₀, hresult₀, hresult.trans hresult₀, hsolution, hprogress⟩

end Solver
end InPlace
end SoftMargin
