import SoftMargin.Json.Codec
import SoftMargin.Settings
import SoftMargin.Solution
import SoftMargin.LineSearch.Basic

/-!
# Stored records

The names under which settings, problems and results are stored. Fields are
written in the order in which they are listed here. Settings may leave fields
out, which then take their defaults.
-/

namespace SoftMargin
namespace Json
namespace Codec

def record {β : Type} (shapes : List (String × Shape)) (encode : β → List (String × Value))
    (decode? : Fields → Option β) : Codec β where
  shape := .record false (.ofList shapes)
  encode b := .record (.ofList (encode b))
  decode? v := v.fields?.bind decode?

/-! ## Settings -/

def settingsShapes : List (String × Shape) := [
  number.field "rho",
  number.field "eta",
  word32.field "max_iter",
  number.field "tol",
  number.field "reltol",
  word64.field "npar",
  word64.field "partition_seed",
  flag.field "force_linesearch",
  flag.field "recover_duals",
  flag.field "verbose",
  flag.field "parallel",
  number.field "kkt_static_reg",
  word32.field "kkt_refine_max_iter",
  number.field "kkt_refine_reltol",
  number.field "kkt_refine_abstol",
  word32.field "linesearch_deep_min_iter",
  word32.field "linesearch_max_bisect",
  number.field "dual_margin_tol",
  flag.field "dual_check_residual",
  number.field "dual_recovery_tol"]

def settingsValues (s : Settings Float) : List (String × Value) := [
  number.value "rho" s.rho,
  number.value "eta" s.eta,
  word32.value "max_iter" s.maxIter,
  number.value "tol" s.tol,
  number.value "reltol" s.reltol,
  word64.value "npar" s.partitions,
  word64.value "partition_seed" s.seed,
  flag.value "force_linesearch" s.forceLineSearch,
  flag.value "recover_duals" s.recoverDuals,
  flag.value "verbose" s.verbose,
  flag.value "parallel" s.parallel,
  number.value "kkt_static_reg" s.staticReg,
  word32.value "kkt_refine_max_iter" s.refineMaxIter,
  number.value "kkt_refine_reltol" s.refineReltol,
  number.value "kkt_refine_abstol" s.refineAbstol,
  word32.value "linesearch_deep_min_iter" s.deepMinIter,
  word32.value "linesearch_max_bisect" s.maxBisect,
  number.value "dual_margin_tol" s.marginTol,
  flag.value "dual_check_residual" s.checkResidual,
  number.value "dual_recovery_tol" s.recoveryTol]

def settingsDraft (fields : Fields) : SettingsDraft Float where
  rho := number.item? "rho" fields
  eta := number.item? "eta" fields
  maxIter := word32.item? "max_iter" fields
  tol := number.item? "tol" fields
  reltol := number.item? "reltol" fields
  partitions := word64.item? "npar" fields
  seed := word64.item? "partition_seed" fields
  forceLineSearch := flag.item? "force_linesearch" fields
  recoverDuals := flag.item? "recover_duals" fields
  verbose := flag.item? "verbose" fields
  parallel := flag.item? "parallel" fields
  staticReg := number.item? "kkt_static_reg" fields
  refineMaxIter := word32.item? "kkt_refine_max_iter" fields
  refineReltol := number.item? "kkt_refine_reltol" fields
  refineAbstol := number.item? "kkt_refine_abstol" fields
  deepMinIter := word32.item? "linesearch_deep_min_iter" fields
  maxBisect := word32.item? "linesearch_max_bisect" fields
  marginTol := number.item? "dual_margin_tol" fields
  checkResidual := flag.item? "dual_check_residual" fields
  recoveryTol := number.item? "dual_recovery_tol" fields

def settings : Codec (Settings Float) where
  shape := .record true (.ofList settingsShapes)
  encode s := .record (.ofList (settingsValues s))
  decode? v := v.fields?.map fun fields => (settingsDraft fields).complete

/-! ## Data and solutions -/

def matrix : Codec (Matrix Float) :=
  record [size.field "m", size.field "n", numbers.field "data"]
    (fun A => [size.value "m" A.rows, size.value "n" A.cols, numbers.value "data" A.data])
    fun fields => do
      return {
        rows := ← size.item? "m" fields
        cols := ← size.item? "n" fields
        data := ← numbers.item? "data" fields }

def primal : Codec (PrimalSolution Float) :=
  record [numbers.field "a", number.field "threshold", numbers.field "xi"]
    (fun s => [numbers.value "a" s.a, number.value "threshold" s.threshold,
      numbers.value "xi" s.xi])
    fun fields => do
      return {
        a := ← numbers.item? "a" fields
        threshold := ← number.item? "threshold" fields
        xi := ← numbers.item? "xi" fields }

def dual : Codec (DualSolution Float) :=
  record [numbers.field "u", number.field "beta", number.field "residual"]
    (fun s => [numbers.value "u" s.u, number.value "beta" s.beta,
      number.value "residual" s.residual])
    fun fields => do
      return {
        u := ← numbers.item? "u" fields
        beta := ← number.item? "beta" fields
        residual := ← number.item? "residual" fields }

/-! ## Runs -/

def status : Codec Status :=
  choice [.unsolved, .running, .converged, .maxIterations, .numericalError] Status.name

def strategy : Codec LineSearchStrategy :=
  choice [.deep, .shallow] LineSearchStrategy.name

def trace : Codec (Trace Float) :=
  record [
      numbers.field "r_norm",
      numbers.field "s_norm",
      numbers.field "eps_pri",
      numbers.field "eps_dual",
      numbers.field "objective",
      numbers.field "consensus",
      numbers.field "local",
      size.field "width",
      size.field "npar"]
    (fun t => [
      numbers.value "r_norm" t.rNorm,
      numbers.value "s_norm" t.sNorm,
      numbers.value "eps_pri" t.epsPri,
      numbers.value "eps_dual" t.epsDual,
      numbers.value "objective" t.objective,
      numbers.value "consensus" t.consensus,
      numbers.value "local" t.copies,
      size.value "width" t.width,
      size.value "npar" t.partitions])
    fun fields => do
      return {
        rNorm := ← numbers.item? "r_norm" fields
        sNorm := ← numbers.item? "s_norm" fields
        epsPri := ← numbers.item? "eps_pri" fields
        epsDual := ← numbers.item? "eps_dual" fields
        objective := ← numbers.item? "objective" fields
        consensus := ← numbers.item? "consensus" fields
        copies := ← numbers.item? "local" fields
        width := ← size.item? "width" fields
        partitions := ← size.item? "npar" fields }

def report : Codec (LineSearchReport Float) :=
  record [
      strategy.field "strategy",
      flag.field "deep_failed",
      numbers.field "begin",
      numbers.field "end",
      numbers.optional.field "refined",
      number.optional.field "objective",
      flag.field "adopted",
      number.field "improvement"]
    (fun r => [
      strategy.value "strategy" r.strategy,
      flag.value "deep_failed" r.deepFailed,
      numbers.value "begin" r.first,
      numbers.value "end" r.last,
      numbers.optional.value "refined" r.refined,
      number.optional.value "objective" r.objective,
      flag.value "adopted" r.adopted,
      number.value "improvement" r.improvement])
    fun fields => do
      return {
        strategy := ← strategy.item? "strategy" fields
        deepFailed := ← flag.item? "deep_failed" fields
        first := ← numbers.item? "begin" fields
        last := ← numbers.item? "end" fields
        refined := ← numbers.optional.item? "refined" fields
        objective := ← number.optional.item? "objective" fields
        adopted := ← flag.item? "adopted" fields
        improvement := ← number.item? "improvement" fields }

end Codec
end Json
end SoftMargin
