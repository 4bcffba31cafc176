import SoftMargin.Proofs.Ldl.Access
import SoftMargin.Solver.Basic

/-!
# Drafts and finished settings

Settings are checked twice: as a draft, where only the fields that have been set
are looked at, and once more when a solver is built. Both checks go through the
fields in one order and name the first that does not fit. The check of a draft
passes over the two tolerances of the recovery of the multipliers, so it agrees
with the other one unless that names one of the two.
-/

namespace SoftMargin

open Scalar Ldl

variable {α : Type} [Scalar α]

/-!
## Fields in order
-/

namespace Settings

def fits (s : Settings α) : SettingsField → Bool
  | .rho => isFinite s.rho && 0 < s.rho
  | .eta => 0.25 ≤ s.eta && s.eta < 1
  | .tol => 0 ≤ s.tol
  | .reltol => 0 ≤ s.reltol
  | .staticReg => 0 ≤ s.staticReg
  | .marginTol => 0 ≤ s.marginTol
  | .recoveryTol => 0 ≤ s.recoveryTol
  | .partitions => s.partitions != 0
  | .maxIter => s.maxIter != 0

/-- The fields that are subject to a check, in the order of the check. -/
def checkedFields : List SettingsField :=
  [.rho, .eta, .tol, .reltol, .staticReg, .marginTol, .recoveryTol, .partitions, .maxIter]

def recoveryFields : List SettingsField :=
  [.marginTol, .recoveryTol]

def refusal (s : Settings α) (fields : List SettingsField) : Except SettingsError Unit :=
  match fields.find? fun f => !s.fits f with
  | none => .ok ()
  | some f => .error (.badField f)

theorem refusal_nil (s : Settings α) : s.refusal [] = pure () :=
  rfl

theorem refusal_cons (s : Settings α) (f : SettingsField) (fields : List SettingsField) :
    s.refusal (f :: fields) = (require f (s.fits f) >>= fun _ => s.refusal fields) := by
  cases hfits : s.fits f with
  | true => simp [refusal, require, hfits]
  | false => simp [refusal, require, hfits]

theorem fits_of_refusal_eq_ok {s : Settings α} {fields : List SettingsField}
    (h : s.refusal fields = .ok ()) : ∀ f ∈ fields, s.fits f = true := by
  unfold refusal at h
  cases hfind : fields.find? fun f => !s.fits f with
  | none => simpa using hfind
  | some f => simp [hfind] at h

theorem of_refusal_eq_error {s : Settings α} {fields : List SettingsField} {f : SettingsField}
    (h : s.refusal fields = .error (.badField f)) : f ∈ fields ∧ s.fits f = false := by
  unfold refusal at h
  cases hfind : fields.find? fun f => !s.fits f with
  | none => simp [hfind] at h
  | some g =>
      have hfits := List.find?_some hfind
      simp only [hfind, Except.error.injEq, SettingsError.badField.injEq] at h
      subst h
      exact ⟨List.mem_of_find?_eq_some hfind, by simpa using hfits⟩

/-- The answer for part of the fields is the answer for all of them, unless that names a field
outside of the part. -/
theorem refusal_filter_eq_iff (s : Settings α) (fields : List SettingsField)
    (p : SettingsField → Bool) :
    s.refusal (fields.filter p) = s.refusal fields ↔
      ∀ f, p f = false → s.refusal fields ≠ .error (.badField f) := by
  induction fields with
  | nil => simp [refusal]
  | cons f fields ih =>
      rw [refusal_cons]
      cases hp : p f with
      | true =>
          rw [List.filter_cons_of_pos hp, refusal_cons]
          cases hfits : s.fits f with
          | true => simpa [require] using ih
          | false =>
              simp only [require, Bool.false_eq_true, if_false, error_bind, true_iff]
              intro g hg heq
              cases heq
              rw [hp] at hg
              cases hg
      | false =>
          rw [List.filter_cons_of_neg (by simp [hp])]
          cases hfits : s.fits f with
          | true => simpa [require] using ih
          | false =>
              -- the field is named by the one answer and cannot be named by the other
              simp only [require, Bool.false_eq_true, if_false, error_bind]
              refine iff_of_false ?_ fun h => h f hp rfl
              intro heq
              have hmem := (List.mem_filter.mp (of_refusal_eq_error heq).left).right
              rw [hp] at hmem
              cases hmem

theorem validate_eq_refusal (s : Settings α) : s.validate = s.refusal checkedFields := by
  simp only [checkedFields, refusal_cons, refusal_nil, bind_pure_unit]
  rfl

theorem fits_default (f : SettingsField) : (default : Settings Float).fits f = true := by
  cases f <;> rfl

end Settings

/-!
## Drafts
-/

namespace SettingsDraft

def checkedFields : List SettingsField :=
  Settings.checkedFields.filter fun f => f ∉ Settings.recoveryFields

theorem whenSet_require {β : Type} (f : SettingsField) (passes : β → Bool) {v : β}
    (hv : passes v = true) (field : Option β) :
    whenSet field (fun w => Settings.require f (passes w)) =
      Settings.require f (passes (field.getD v)) := by
  cases field with
  | none => simp [whenSet, Settings.require, hv]
  | some w => rfl

/-- A field that has been left open is at its default, so it may be checked with the others. -/
theorem validate_eq_refusal (hdefault : ∀ f, (Settings.default : Settings α).fits f = true)
    (d : SettingsDraft α) : d.validate = d.complete.refusal checkedFields := by
  have hrho : whenSet d.rho Settings.checkRho =
      Settings.require .rho (d.complete.fits .rho) :=
    whenSet_require .rho (fun v : α => isFinite v && 0 < v) (hdefault .rho) d.rho
  have heta : whenSet d.eta Settings.checkEta =
      Settings.require .eta (d.complete.fits .eta) :=
    whenSet_require .eta (fun v : α => 0.25 ≤ v && v < 1) (hdefault .eta) d.eta
  have htol : whenSet d.tol (Settings.checkNonneg .tol) =
      Settings.require .tol (d.complete.fits .tol) :=
    whenSet_require .tol (fun v : α => 0 ≤ v) (hdefault .tol) d.tol
  have hreltol : whenSet d.reltol (Settings.checkNonneg .reltol) =
      Settings.require .reltol (d.complete.fits .reltol) :=
    whenSet_require .reltol (fun v : α => 0 ≤ v) (hdefault .reltol) d.reltol
  have hreg : whenSet d.staticReg (Settings.checkNonneg .staticReg) =
      Settings.require .staticReg (d.complete.fits .staticReg) :=
    whenSet_require .staticReg (fun v : α => 0 ≤ v) (hdefault .staticReg) d.staticReg
  have hpartitions : whenSet d.partitions (fun v => Settings.require .partitions (v != 0)) =
      Settings.require .partitions (d.complete.fits .partitions) :=
    whenSet_require .partitions (fun v => v != 0) (hdefault .partitions) d.partitions
  have hmaxIter : whenSet d.maxIter (fun v => Settings.require .maxIter (v != 0)) =
      Settings.require .maxIter (d.complete.fits .maxIter) :=
    whenSet_require .maxIter (fun v => v != 0) (hdefault .maxIter) d.maxIter
  have hfields : checkedFields =
      [.rho, .eta, .tol, .reltol, .staticReg, .partitions, .maxIter] := by decide
  simp only [hfields, Settings.refusal_cons, Settings.refusal_nil, bind_pure_unit,
    validate, hrho, heta, htol, hreltol, hreg, hpartitions, hmaxIter]

theorem build_eq_map (d : SettingsDraft α) :
    d.build = d.validate.map fun _ => d.complete := by
  unfold build
  cases d.validate <;> rfl

omit [Scalar α] in
theorem map_const_inj {s : Settings α} {x y : Except SettingsError Unit} :
    (x.map fun _ => s) = (y.map fun _ => s) ↔ x = y := by
  constructor
  · intro h
    cases x with
    | error e =>
        cases y with
        | error f => simpa [Except.map] using h
        | ok u => cases h
    | ok u =>
        cases y with
        | error f => cases h
        | ok v => rfl
  · exact fun h => congrArg _ h

theorem refusal_of_checkedFields {s : Settings α} (h : s.refusal checkedFields = .ok ()) :
    s.refusal Settings.checkedFields = s.refusal Settings.recoveryFields := by
  have hfields : Settings.recoveryFields =
      Settings.checkedFields.filter fun f => f ∈ Settings.recoveryFields := by decide
  rw [hfields]
  refine ((s.refusal_filter_eq_iff _ _).mpr ?_).symm
  intro f hf heq
  have herror := Settings.of_refusal_eq_error heq
  have hmem : f ∈ checkedFields :=
    List.mem_filter.mpr ⟨herror.left, by simpa using hf⟩
  rw [Settings.fits_of_refusal_eq_ok h f hmem] at herror
  cases herror.right

end SettingsDraft

/-!
## Building a solver
-/

theorem Problem.new_ne_badSettings (data : Matrix α) (bound : α) (e : SettingsError) :
    Problem.new data bound ≠ .error (.badSettings e) := by
  unfold Problem.new
  split_ifs <;> simp

omit [Scalar α] in
theorem Partition.buildGroups_ne_badSettings {β : Type} (build : Array Nat → Except LdlError β)
    (groups : List (Array Nat)) (i : Nat) (e : SettingsError) :
    (buildGroups build i groups : Except (SolverError α) (List β)) ≠ .error (.badSettings e) := by
  induction groups generalizing i with
  | nil => exact fun h => nomatch h
  | cons columns rest ih =>
      rw [buildGroups]
      cases build columns with
      | error source => exact fun h => nomatch h
      | ok p =>
          cases hrest : (buildGroups build (i + 1) rest : Except (SolverError α) (List β)) with
          | error e' =>
              intro h
              cases h
              exact ih (i + 1) hrest
          | ok parts => exact fun h => nomatch h

theorem Partition.buildAllBy_ne_badSettings (rule : OrderingRule α) (draws : Random.Generator)
    (P : Problem α) (settings : Settings α) (e : SettingsError) :
    buildAllBy rule draws P settings ≠ .error (.badSettings e) := by
  unfold buildAllBy buildEach
  dsimp only
  split_ifs with hcount
  · exact fun h => nomatch h
  · cases hgroups : (buildGroups (newBy rule P settings) 0
        (Random.seededGroups draws P.points settings.partitions.toNat settings.seed).toList :
          Except (SolverError α) (List (Partition α))) with
    | error e' =>
        intro h
        cases h
        exact buildGroups_ne_badSettings _ _ 0 e hgroups
    | ok parts => exact fun h => nomatch h

theorem Solver.newBy_eq_badSettings_iff (methods : Methods α) (data : Matrix α) (bound : α)
    (settings : Settings α) (e : SettingsError) :
    newBy methods data bound settings = .error (.badSettings e) ↔ settings.validate = .error e := by
  unfold newBy
  cases hvalid : settings.validate with
  | error source => simp [throw, throwThe, MonadExceptOf.throw]
  | ok checked =>
      refine iff_of_false ?_ fun h => nomatch h
      dsimp only
      cases hproblem : Problem.new data bound with
      | error e' =>
          intro h
          cases h
          exact Problem.new_ne_badSettings data bound e hproblem
      | ok P =>
          rw [ok_bind]
          cases hparts : Partition.buildAllBy methods.order methods.draws P settings with
          | error e' =>
              intro h
              cases h
              exact Partition.buildAllBy_ne_badSettings _ _ P settings e hparts
          | ok parts => exact fun h => nomatch h

namespace SettingsDraft

/-- A draft is built exactly if its fields fit, the two tolerances of the recovery left aside, and
is refused for the first that does not. That is what the check of the finished settings says, unless
it names one of the two. Settings that were built can be refused by a solver only for these. -/
theorem build_agrees_iff (d : SettingsDraft Float) :
    d.build = (d.complete.refusal checkedFields).map (fun _ => d.complete) ∧
      (d.build = d.complete.validate.map (fun _ => d.complete) ↔
        ∀ f ∈ Settings.recoveryFields, d.complete.validate ≠ .error (.badField f)) ∧
      ∀ methods data bound e, (d.build = .ok d.complete ∧
          Solver.newBy methods data bound d.complete = .error (.badSettings e)) ↔
        d.complete.refusal checkedFields = .ok () ∧
          d.complete.refusal Settings.recoveryFields = .error e := by
  have hbuild : d.build = (d.complete.refusal checkedFields).map fun _ => d.complete := by
    rw [build_eq_map, validate_eq_refusal Settings.fits_default]
  refine ⟨hbuild, ?_, ?_⟩
  · rw [hbuild, map_const_inj, Settings.validate_eq_refusal]
    simpa [checkedFields] using d.complete.refusal_filter_eq_iff Settings.checkedFields
      fun f => f ∉ Settings.recoveryFields
  · intro methods data bound e
    have hok : d.build = .ok d.complete ↔ d.complete.refusal checkedFields = .ok () := by
      rw [hbuild]
      cases d.complete.refusal checkedFields with
      | error e' => exact iff_of_false (fun h => nomatch h) fun h => nomatch h
      | ok u => exact iff_of_true rfl rfl
    rw [hok, Solver.newBy_eq_badSettings_iff, Settings.validate_eq_refusal]
    refine and_congr_right fun hpass => ?_
    rw [refusal_of_checkedFields hpass]

/-- A draft that is refused, but not for the field that the finished settings are refused for. -/
theorem build_agrees_iff_noPartitions :
    let d : SettingsDraft Float := { marginTol := some undefined, partitions := some 0 }
    d.build = .error (.badField .partitions) ∧
      d.complete.validate = .error (.badField .marginTol) ∧
      d.build ≠ d.complete.validate.map fun _ => d.complete := by
  intro d
  have hagrees := build_agrees_iff d
  have hdraft : (checkedFields.find? fun f => !d.complete.fits f) = some .partitions := by
    decide +kernel
  have hfinished : (Settings.checkedFields.find? fun f => !d.complete.fits f) =
      some .marginTol := by decide +kernel
  have hrefused : d.complete.validate = .error (.badField .marginTol) := by
    rw [Settings.validate_eq_refusal, Settings.refusal, hfinished]
  refine ⟨?_, hrefused, ?_⟩
  · rw [hagrees.left, Settings.refusal, hdraft]
    rfl
  · intro heq
    exact hagrees.right.left.mp heq .marginTol (by decide) hrefused

/-- With a negative tolerance for the margin the draft is built, and no solver is built from it. -/
theorem build_unfit_margin :
    let d : SettingsDraft Float := { marginTol := some (-1) }
    d.build = .ok d.complete ∧ d.complete.validate = .error (.badField .marginTol) ∧
      ∀ methods data bound, Solver.newBy methods data bound d.complete =
        .error (.badSettings (.badField .marginTol)) := by
  intro d
  have hfirst : (Settings.checkedFields.find? fun f => !d.complete.fits f) =
      some .marginTol := by decide +kernel
  have hrefused : d.complete.validate = .error (.badField .marginTol) := by
    rw [Settings.validate_eq_refusal, Settings.refusal, hfirst]
  refine ⟨rfl, hrefused, ?_⟩
  intro methods data bound
  exact (Solver.newBy_eq_badSettings_iff methods data bound d.complete _).mpr hrefused

end SettingsDraft

end SoftMargin
