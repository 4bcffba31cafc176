import SoftMargin.Output.Printer
import SoftMargin.Output.Report
import SoftMargin.Solver.Basic

/-!
# Sessions

A session is a solver with timers and a place for what it prints. The report is
printed piece by piece around a solve, and none of the printing is timed.
-/

namespace SoftMargin

structure Session where
  solver : Solver Float
  timers : Timers
  printer : Printer

namespace Session

def start (clock : Nat → Nat → Nat) (solver : Solver Float) : Session where
  solver
  timers := Timers.empty.run clock 0 (Timers.timed "setup" [])
  printer := Printer.initial

def redirect (s : Session) (target : PrintTarget) : Session :=
  { s with printer := s.printer.redirect target }

/-! ## Timing -/

def localPhase : List Timers.Event :=
  Timers.timed "x-update" []

def consensusPhase : List Timers.Event :=
  Timers.timed "consensus" []

/-- The phases of an iteration that is not recorded. -/
def failedPhases : Failure → List Timers.Event
  | .localSolution => localPhase
  | .residuals => localPhase ++ consensusPhase

def closingPhases (s : Solver Float) : List Timers.Event :=
  (if s.progress.lineSearch.isSome then Timers.timed "line search" [] else []) ++
    (if s.settings.recoverDuals then Timers.timed "dual recovery" [] else [])

/-- The phases of a solve. After each recorded iteration a row is printed. -/
def phases (solved : Solved Float) : List Timers.Event :=
  (List.replicate solved.solver.solution.trace.length
    (localPhase ++ consensusPhase ++ Timers.untimed)).flatten ++
  match solved.failure with
  | some failure => failedPhases failure
  | none => closingPhases solved.solver

def solveEvents (solved : Solved Float) : List Timers.Event :=
  Timers.untimed ++ [.reset "solve"] ++ Timers.timed "solve" (phases solved)

def withTimes (t : Timers) (p : Progress Float) : Progress Float :=
  { p with
    setupTime := (t.time "setup").toSeconds
    solveTime := (t.time "solve").toSeconds }

/-! ## Printing -/

def opening (s : Solver Float) : List String :=
  let sizes := s.progress.partitionSizes.toList
  [Report.banner s.settings,
    (Report.configuration? s.settings s.problem sizes).getD "",
    Report.header s.settings]

def rows (s : Solver Float) : List String :=
  (List.range s.solution.trace.length).filterMap fun k =>
    (s.solution.trace.residualsAt? k).map fun r =>
      Report.row s.settings (s.progress.update r (k + 1))

def closing (s : Solver Float) (timers : Timers) : List String :=
  [(Report.footer? s.settings s.progress s.solution timers).getD ""]

/-- Prints in a verbose session, and flushes at the end if asked to. -/
def printAll (s : Solver Float) (texts : List String) (flush : Bool) (p : Printer) : Printer :=
  if s.settings.verbose then
    let p := texts.foldl Printer.print p
    if flush then p.flush else p
  else
    p

/-! ## Solving -/

def solve (clock : Nat → Nat → Nat) (s : Session) : Except (SolverError Float) Unit × Session :=
  let solved := s.solver.solve
  let events := solveEvents solved
  let timers := s.timers.run clock 0 events
  let solver := { solved.solver with progress := withTimes timers solved.solver.progress }
  let printer := s.printer
    |> printAll solver (opening s.solver) true
    |> printAll solver (rows solver) false
    |> printAll solver (closing solver timers) true
  (solved.result, {
    solver
    timers := timers.run clock events.length Timers.untimed
    printer })

end Session
end SoftMargin
