import SoftMargin.Output.NumberFormat
import SoftMargin.Progress
import SoftMargin.Timing.Timers

/-!
# The printed report

A verbose solve prints a banner, its configuration, a table with one row per
iteration, and a summary. Nothing is printed unless the settings ask for it.
-/

namespace SoftMargin
namespace Report

def version : String :=
  "0.3.0"

def rule : String :=
  String.ofList (List.replicate 65 '-')

def unlines (lines : List String) : String :=
  String.join (lines.map (· ++ "\n"))

def onOff (b : Bool) : String :=
  if b then "on" else "off"

def ifVerbose (settings : Settings Float) (text : String) : String :=
  if settings.verbose then text else ""

/-! ## Before the iteration -/

def banner (settings : Settings Float) : String :=
  ifVerbose settings <| unlines [
    rule,
    "        lpadmm v" ++ version ++ "  -  consensus ADMM for soft margin LPs",
    rule]

/-- How many partition sizes are listed. Of more than these the middle ones are left out. -/
def longestSizeList : Nat :=
  5

def sizeList (sizes : List Nat) : String :=
  let last := toString (sizes.getLast?.getD 0)
  let before := fun count => String.join ((sizes.take count).map fun s => toString s ++ ",")
  if sizes.length = 1 then
    " size = " ++ last
  else if sizes.length ≤ longestSizeList then
    " sizes = (" ++ before (sizes.length - 1) ++ last ++ ")"
  else
    " sizes = (" ++ before (longestSizeList - 1) ++ "...," ++ last ++ ")"

def parallelText (parallel : Bool) (partitions : Nat) : String :=
  if !parallel || partitions == 1 then "(serial)"
  else "(parallel over " ++ toString partitions ++ " partitions)"

def problemLines (P : Problem Float) (sizes : List Nat) : List String :=
  ["",
    "problem:",
    "  features (p)  = " ++ toString P.features,
    "  points (n)    = " ++ toString P.points,
    "  box bound (D) = " ++ (NumberFormat.fixed 4).text P.bound,
    "  partitions    = " ++ toString sizes.length ++ ", " ++ sizeList sizes,
    ""]

def settingsLines (s : Settings Float) (partitions : Nat) : List String :=
  let sci := fun places => (NumberFormat.scientific places).text
  ["settings:",
    "  linear algebra: direct / qdldl, precision: 64 bit " ++ parallelText s.parallel partitions,
    "  ρ = " ++ sci 3 s.rho ++ ", η = " ++ (NumberFormat.fixed 3).text s.eta ++
      ", max iter = " ++ toString s.maxIter,
    "  tol = " ++ sci 1 s.tol ++ ", reltol = " ++ sci 1 s.reltol ++
      ", seed = " ++ toString s.seed,
    "  static reg : ϵ = " ++ sci 1 s.staticReg ++
      ", iter refine: reltol = " ++ sci 1 s.refineReltol ++
      ", abstol = " ++ sci 1 s.refineAbstol ++
      ", max iter = " ++ toString s.refineMaxIter,
    "  line search: forced = " ++ onOff s.forceLineSearch ++
      ", deep after " ++ toString s.deepMinIter ++
      " iter, max bisect = " ++ toString s.maxBisect,
    "  dual recovery: " ++ onOff s.recoverDuals ++
      ", margin tol = " ++ sci 1 s.marginTol ++
      ", residual check = " ++ onOff s.checkResidual ++
      " (" ++ sci 1 s.recoveryTol ++ ")",
    ""]

/-- There has to be a partition to speak of. -/
def configuration? (settings : Settings Float) (P : Problem Float) (sizes : List Nat) :
    Option String :=
  if settings.verbose && sizes.isEmpty then
    none
  else
    some (ifVerbose settings
      (unlines (problemLines P sizes ++ settingsLines settings sizes.length)))

def header (settings : Settings Float) : String :=
  ifVerbose settings <| unlines [
    "iter    objective    r_norm    eps_pri   s_norm    eps_dual  ",
    rule]

/-! ## During the iteration -/

def row (settings : Settings Float) (p : Progress Float) : String :=
  let norm := fun v => (NumberFormat.table 2 6).text v ++ "  "
  let r := p.residuals
  ifVerbose settings <| unlines [
    NumberFormat.padLeft 4 ' ' (toString p.iterations) ++ "  " ++
      (NumberFormat.signedTable 4 8).text r.objective ++ "  " ++
      norm r.rNorm ++ norm r.epsPri ++ norm r.sNorm ++ norm r.epsDual]

/-! ## After the iteration -/

def lineSearchLine (r : LineSearchReport Float) : String :=
  "line search: " ++ r.strategy.name ++
    (if r.deepFailed then " (no oscillation found)" else "") ++
    (if r.adopted then ", improvement = " ++ (NumberFormat.table 3 0).text r.improvement
    else ", not adopted")

def dualLine (d : DualSolution Float) : String :=
  "dual recovery: β = " ++ (NumberFormat.signedTable 6 0).text d.beta ++
    ", residual = " ++ (NumberFormat.table 2 0).text d.residual

def summaryLines (p : Progress Float) (s : Solution Float) (timers : Timers)
    (solveTime : Duration) : List String :=
  [rule,
    "Terminated with status = " ++ p.status.name ++
      " (exitflag " ++ toString s.exitFlag ++ ")",
    "iterations = " ++ toString s.iterations,
    "objective  = " ++ (NumberFormat.signedTable 6 0).text s.objective ++
      ", threshold = " ++ (NumberFormat.signedTable 6 0).text s.primal.threshold] ++
  (p.lineSearch.map lineSearchLine).toList ++
  (s.dual.map dualLine).toList ++
  ["solve time = " ++ solveTime.text] ++
  timers.lines

/-- The time of the solve has to be a duration. -/
def footer? (settings : Settings Float) (p : Progress Float) (s : Solution Float)
    (timers : Timers) : Option String :=
  if settings.verbose then
    (Duration.ofSeconds? p.solveTime).map fun time => unlines (summaryLines p s timers time)
  else
    some ""

end Report
end SoftMargin
