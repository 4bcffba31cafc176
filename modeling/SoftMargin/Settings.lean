import SoftMargin.Scalar

/-!
# Settings

Settings are checked field by field, in a fixed order, and the first field that
does not fit is named. Counts have the width they are stored with. A draft
leaves fields open; they take their defaults when it is completed.
-/

namespace SoftMargin

open Scalar

inductive SettingsField where
  | rho
  | eta
  | tol
  | reltol
  | staticReg
  | marginTol
  | recoveryTol
  | partitions
  | maxIter
deriving Repr, DecidableEq

def SettingsField.name : SettingsField → String
  | .rho => "rho"
  | .eta => "eta"
  | .tol => "tol"
  | .reltol => "reltol"
  | .staticReg => "kkt_static_reg"
  | .marginTol => "dual_margin_tol"
  | .recoveryTol => "dual_recovery_tol"
  | .partitions => "npar"
  | .maxIter => "max_iter"

inductive SettingsError where
  | badField (field : SettingsField)
deriving Repr, DecidableEq

def SettingsError.message : SettingsError → String
  | .badField field => "Bad value for field \"" ++ field.name ++ "\""

structure Settings (α : Type) where
  /-- The weight of the penalty on disagreement. -/
  rho : α
  /-- A restart threshold. It is checked, and not used by the plain iteration. -/
  eta : α
  maxIter : UInt32
  tol : α
  reltol : α
  partitions : UInt64
  /-- The seed of the shuffle that deals the columns out. -/
  seed : UInt64
  /-- Run the line search also after convergence. -/
  forceLineSearch : Bool
  recoverDuals : Bool
  verbose : Bool
  parallel : Bool
  staticReg : α
  refineMaxIter : UInt32
  refineReltol : α
  refineAbstol : α
  /-- The oscillation search asks for more iterations than this. -/
  deepMinIter : UInt32
  maxBisect : UInt32
  /-- Points with less slack than this, relative to the threshold, lie on the margin. -/
  marginTol : α
  /-- Refuse recovered duals that leave a residual above `recoveryTol`. -/
  checkResidual : Bool
  recoveryTol : α
deriving Repr

namespace Settings

variable {α : Type} [Scalar α]

def default : Settings α where
  rho := 1
  eta := 0.999
  maxIter := 1000
  tol := 1e-4
  reltol := 1e-2
  partitions := 1
  seed := 0
  forceLineSearch := false
  recoverDuals := false
  verbose := false
  parallel := true
  staticReg := 1e-8
  refineMaxIter := 10
  refineReltol := 1e-13
  refineAbstol := 1e-12
  deepMinIter := 400
  maxBisect := 60
  marginTol := 1e-3
  checkResidual := false
  recoveryTol := 1e-3

/-! ## Checks -/

def require (field : SettingsField) (holds : Bool) : Except SettingsError Unit :=
  if holds then .ok () else .error (.badField field)

def checkRho (v : α) : Except SettingsError Unit :=
  require .rho (isFinite v && 0 < v)

def checkEta (v : α) : Except SettingsError Unit :=
  require .eta (0.25 ≤ v && v < 1)

def checkNonneg (field : SettingsField) (v : α) : Except SettingsError Unit :=
  require field (0 ≤ v)

def validate (s : Settings α) : Except SettingsError Unit := do
  checkRho s.rho
  checkEta s.eta
  checkNonneg .tol s.tol
  checkNonneg .reltol s.reltol
  checkNonneg .staticReg s.staticReg
  checkNonneg .marginTol s.marginTol
  checkNonneg .recoveryTol s.recoveryTol
  require .partitions (s.partitions != 0)
  require .maxIter (s.maxIter != 0)

/-- Equality of all fields. Undefined values differ from themselves. -/
def same (s t : Settings α) : Bool :=
  Scalar.same s.rho t.rho && Scalar.same s.eta t.eta && s.maxIter == t.maxIter &&
    Scalar.same s.tol t.tol && Scalar.same s.reltol t.reltol &&
    s.partitions == t.partitions && s.seed == t.seed &&
    s.forceLineSearch == t.forceLineSearch && s.recoverDuals == t.recoverDuals &&
    s.verbose == t.verbose && s.parallel == t.parallel &&
    Scalar.same s.staticReg t.staticReg && s.refineMaxIter == t.refineMaxIter &&
    Scalar.same s.refineReltol t.refineReltol &&
    Scalar.same s.refineAbstol t.refineAbstol && s.deepMinIter == t.deepMinIter &&
    s.maxBisect == t.maxBisect && Scalar.same s.marginTol t.marginTol &&
    s.checkResidual == t.checkResidual && Scalar.same s.recoveryTol t.recoveryTol

end Settings

/-! ## Drafts -/

structure SettingsDraft (α : Type) where
  rho : Option α := none
  eta : Option α := none
  maxIter : Option UInt32 := none
  tol : Option α := none
  reltol : Option α := none
  partitions : Option UInt64 := none
  seed : Option UInt64 := none
  forceLineSearch : Option Bool := none
  recoverDuals : Option Bool := none
  verbose : Option Bool := none
  parallel : Option Bool := none
  staticReg : Option α := none
  refineMaxIter : Option UInt32 := none
  refineReltol : Option α := none
  refineAbstol : Option α := none
  deepMinIter : Option UInt32 := none
  maxBisect : Option UInt32 := none
  marginTol : Option α := none
  checkResidual : Option Bool := none
  recoveryTol : Option α := none

namespace SettingsDraft

variable {α : Type} [Scalar α]

def complete (d : SettingsDraft α) : Settings α :=
  let s : Settings α := Settings.default
  { rho := d.rho.getD s.rho
    eta := d.eta.getD s.eta
    maxIter := d.maxIter.getD s.maxIter
    tol := d.tol.getD s.tol
    reltol := d.reltol.getD s.reltol
    partitions := d.partitions.getD s.partitions
    seed := d.seed.getD s.seed
    forceLineSearch := d.forceLineSearch.getD s.forceLineSearch
    recoverDuals := d.recoverDuals.getD s.recoverDuals
    verbose := d.verbose.getD s.verbose
    parallel := d.parallel.getD s.parallel
    staticReg := d.staticReg.getD s.staticReg
    refineMaxIter := d.refineMaxIter.getD s.refineMaxIter
    refineReltol := d.refineReltol.getD s.refineReltol
    refineAbstol := d.refineAbstol.getD s.refineAbstol
    deepMinIter := d.deepMinIter.getD s.deepMinIter
    maxBisect := d.maxBisect.getD s.maxBisect
    marginTol := d.marginTol.getD s.marginTol
    checkResidual := d.checkResidual.getD s.checkResidual
    recoveryTol := d.recoveryTol.getD s.recoveryTol }

def whenSet {β : Type} (field : Option β) (check : β → Except SettingsError Unit) :
    Except SettingsError Unit :=
  match field with
  | some v => check v
  | none => .ok ()

def validate (d : SettingsDraft α) : Except SettingsError Unit := do
  whenSet d.rho Settings.checkRho
  whenSet d.eta Settings.checkEta
  whenSet d.tol (Settings.checkNonneg .tol)
  whenSet d.reltol (Settings.checkNonneg .reltol)
  whenSet d.staticReg (Settings.checkNonneg .staticReg)
  whenSet d.partitions fun v => Settings.require .partitions (v != 0)
  whenSet d.maxIter fun v => Settings.require .maxIter (v != 0)

def build (d : SettingsDraft α) : Except SettingsError (Settings α) := do
  d.validate
  return d.complete

end SettingsDraft
end SoftMargin
