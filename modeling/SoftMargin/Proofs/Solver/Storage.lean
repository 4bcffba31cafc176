import SoftMargin.Proofs.Json.Codecs
import SoftMargin.Proofs.Solver.Restart
import SoftMargin.Proofs.Text.Utf8
import SoftMargin.Solver.Storage

/-!
# Loading a stored solver

A solver that is loaded from what another one has stored is built from the same
data and settings, so its points are dealt out in the same way. It can be loaded
exactly if all settings are finite. The checks do not ask that of all of them.
-/

namespace SoftMargin

variable {α : Type} [Scalar α]

/-!
## Points and partitions
-/

namespace Ensemble

def columns (e : Ensemble α) : Array (Array Nat) :=
  e.members.map (·.partition.columns)

theorem columns_reset (e : Ensemble α) : e.reset.columns = e.columns := by
  unfold columns reset
  rw [Array.map_map]
  rfl

end Ensemble

namespace Solver

variable {methods : Methods α} {data : Matrix α} {bound : α} {settings : Settings α}
  {s : Solver α}

theorem columns_answering {α : Type} (s : Solver α) (f : Nat → Array α → Bool × Array α) :
    (s.answering f).columns = s.columns := by
  apply Array.ext_getElem?
  intro i
  unfold columns answering
  rw [Array.getElem?_map, Array.getElem?_map, Array.getElem?_mapIdx, Option.map_map]
  rfl

theorem columns_solve (s : Solver α) : s.solve.solver.columns = s.columns := by
  have hensemble := s.solve_keeps.2.2
  have hreset : s.run.2.ensemble.reset = s.ensemble.reset.reset :=
    (Run.continues_iterate (P := s.problem) s.settings.maxIter.toNat _).reset_eq
  calc s.solve.solver.columns
      = s.run.2.ensemble.columns := congrArg Ensemble.columns hensemble
    _ = s.run.2.ensemble.reset.columns := (Ensemble.columns_reset _).symm
    _ = s.ensemble.reset.reset.columns := congrArg Ensemble.columns hreset
    _ = s.columns := by rw [Ensemble.columns_reset, Ensemble.columns_reset]; rfl

theorem Reachable.exists_built (h : Reachable methods data bound settings s) :
    ∃ built, newBy methods data bound settings = .ok built ∧ built.problem = s.problem ∧
      built.columns = s.columns := by
  induction h with
  | @built s h => exact ⟨s, h, rfl, rfl⟩
  | @answering s h f ih =>
      rw [columns_answering]
      exact ih
  | @solved s h ih =>
      rw [columns_solve, (solve_keeps s).2.1]
      exact ih

end Solver

/-!
## What is finite
-/

theorem Problem.isFinite_of_new {data : Matrix α} {bound : α} {P : Problem α}
    (h : Problem.new data bound = .ok P) :
    P = ⟨data, bound⟩ ∧ allFinite data.data = true ∧ Scalar.isFinite bound = true := by
  unfold Problem.new at h
  split_ifs at h with hbound hsize hfinite
  cases h
  rw [Bool.not_eq_true', Bool.not_eq_false] at hbound hfinite
  rw [Bool.and_eq_true, Bool.and_eq_true] at hbound
  exact ⟨rfl, hfinite, hbound.left.left⟩

namespace Settings

def numbers (s : Settings α) : List α :=
  [s.rho, s.eta, s.tol, s.reltol, s.staticReg, s.refineReltol, s.refineAbstol, s.marginTol,
    s.recoveryTol]

def isFinite (s : Settings α) : Bool :=
  s.numbers.all Scalar.isFinite

end Settings

/-!
## Reading what is stored
-/

namespace StoredSolver

open Json Codec

theorem stores {s : StoredSolver} (hrows : s.data.rows < Nat.pow 2 64)
    (hcols : s.data.cols < Nat.pow 2 64) : codec.Stores s := by
  have hdata := stores_matrix hrows hcols
  have hsettings := stores_settings s.settings
  refine ⟨fits_record (by decide) (by decide) ?_, ?_⟩
  · exact .cons (hdata.isField "H") <| .cons ((stores_number s.bound).isField "D") <|
      .cons (hsettings.isField "settings") .nil
  · change (do return ⟨← Codec.matrix.decode? (Codec.matrix.encode s.data), s.bound,
        ← Codec.settings.decode? (Codec.settings.encode s.settings)⟩ : Option StoredSolver) = some s
    rw [hdata.decode, hsettings.decode]
    rfl

theorem isFinite_encode {s : StoredSolver} (hdata : allFinite s.data.data = true)
    (hbound : Scalar.isFinite s.bound = true) :
    (codec.encode s).isFinite = s.settings.isFinite := by
  have hentries : s.data.data.toList.all Scalar.isFinite = true :=
    Array.all_toList.trans hdata
  change (((s.data.data.toList ++ []) ++ s.bound :: s.settings.numbers).all Scalar.isFinite) = _
  rw [List.append_nil, List.all_append, List.all_cons, hentries, hbound]
  rfl

theorem ofBytes_text {s : StoredSolver} (hdata : allFinite s.data.data = true)
    (hbound : Scalar.isFinite s.bound = true) (hback : codec.ReadsBack s) :
    ofBytes (codec.text s).toUTF8.data.toList =
      if s.settings.isFinite then .ok s else .error (.unreadable .mismatch) := by
  have hrows : s.data.rows < Nat.pow 2 64 := (hback.count _ List.mem_cons_self).lt
  have hcols : s.data.cols < Nat.pow 2 64 :=
    (hback.count _ (List.mem_cons_of_mem _ List.mem_cons_self)).lt
  have hparse := (stores hrows hcols).parse hback
  rw [isFinite_encode hdata hbound] at hparse
  unfold ofBytes
  rw [Utf8.text?_toUTF8]
  dsimp only
  rw [hparse]
  cases s.settings.isFinite <;> rfl

end StoredSolver

namespace Solver

variable {methods : Methods Float} {data : Matrix Float} {bound : Float}
  {settings : Settings Float} {s : Solver Float}

theorem ofSolver_eq (hproblem : Problem.new data bound = .ok s.problem)
    (hsettings : s.settings = settings) : StoredSolver.ofSolver s = ⟨data, bound, settings⟩ := by
  unfold StoredSolver.ofSolver
  rw [(Problem.isFinite_of_new hproblem).left, hsettings]

theorem loadBy_of_newBy (h : newBy methods data bound settings = .ok s)
    (hback : StoredSolver.codec.ReadsBack ⟨data, bound, settings⟩) :
    loadBy methods (StoredSolver.codec.text ⟨data, bound, settings⟩).toUTF8.data.toList none =
      if settings.isFinite then .ok s else .error (.unreadable .mismatch) := by
  rcases Problem.isFinite_of_new (newBy_eq_ok h).2.2.1 with ⟨_, hdata, hbound⟩
  unfold loadBy
  rw [StoredSolver.ofBytes_text (s := ⟨data, bound, settings⟩) hdata hbound hback]
  cases settings.isFinite with
  | false => rfl
  | true =>
      change StoredSolver.buildBy methods ⟨data, bound, settings⟩ = .ok s
      unfold StoredSolver.buildBy
      rw [h]
      rfl

/-- What a solver in use has stored is loaded as a solver with the same data and settings, and with
the points dealt out in the same way, if all settings are finite. Otherwise it cannot be loaded. -/
theorem load_stored (hs : s.Reachable methods data bound settings)
    (hback : StoredSolver.codec.ReadsBack ⟨data, bound, settings⟩) :
    ∃ built, newBy methods data bound settings = .ok built ∧ built.problem = s.problem ∧
      built.settings = s.settings ∧ built.columns = s.columns ∧
      loadBy methods s.stored.toUTF8.data.toList none =
        if settings.isFinite then .ok built else .error (.unreadable .mismatch) := by
  rcases hs.exists_built with ⟨built, hbuilt, hproblem, hcolumns⟩
  refine ⟨built, hbuilt, hproblem, ?_, hcolumns, ?_⟩
  · exact (newBy_eq_ok hbuilt).2.1.trans hs.settings_eq.symm
  · unfold stored
    rw [ofSolver_eq hs.problem_eq hs.settings_eq]
    exact loadBy_of_newBy hbuilt hback

theorem exists_new_of_isSome (h : (new data bound settings).toOption.isSome = true) :
    ∃ s, new data bound settings = .ok s := by
  cases hs : new data bound settings with
  | error e =>
      rw [hs] at h
      cases h
  | ok s => exact ⟨s, rfl⟩

def pairData : Matrix Float :=
  ⟨2, 2, #[0.9, 0.1, 0.25, 0.8]⟩

def pairSettings : Settings Float :=
  { Settings.default with partitions := 2, seed := 3 }

theorem load_stored_pair : ∃ s built : Solver Float,
    s.Reachable .standard pairData 0.3 pairSettings ∧
      StoredSolver.codec.ReadsBack ⟨pairData, 0.3, pairSettings⟩ ∧
      built.problem = s.problem ∧ built.settings = s.settings ∧ built.columns = s.columns ∧
      load s.stored.toUTF8.data.toList none = .ok built := by
  have hnew : (new pairData 0.3 pairSettings).toOption.isSome = true := by decide +kernel
  rcases exists_new_of_isSome hnew with ⟨s, hs⟩
  have hback : StoredSolver.codec.ReadsBack ⟨pairData, 0.3, pairSettings⟩ := by
    decide +kernel
  have hreachable := Reachable.solved (.built hs)
  rcases load_stored hreachable hback with ⟨built, _, hproblem, hsettings, hcolumns, hload⟩
  exact ⟨_, built, hreachable, hback, hproblem, hsettings, hcolumns, hload⟩

def onePoint : Matrix Float :=
  ⟨1, 1, #[0.5]⟩

def looseSettings : Settings Float :=
  { Settings.default with tol := 1 / 0 }

/-- A solver is built for an infinite tolerance, and what it stores cannot be loaded. -/
theorem unloadable_onePoint : ∃ s : Solver Float, new onePoint 0.5 looseSettings = .ok s ∧
    load s.stored.toUTF8.data.toList none = .error (.unreadable .mismatch) := by
  have hnew : (new onePoint 0.5 looseSettings).toOption.isSome = true := by decide +kernel
  rcases exists_new_of_isSome hnew with ⟨s, hs⟩
  have hback : StoredSolver.codec.ReadsBack ⟨onePoint, 0.5, looseSettings⟩ := by
    decide +kernel
  have hfinite : looseSettings.isFinite = false := by decide +kernel
  have hload := loadBy_of_newBy hs hback
  rw [hfinite, ← ofSolver_eq (newBy_eq_ok hs).2.2.1 (newBy_eq_ok hs).2.1] at hload
  exact ⟨s, hs, hload⟩

end Solver
end SoftMargin
