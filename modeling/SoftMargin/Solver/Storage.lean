import SoftMargin.Json.Records
import SoftMargin.Solver.Basic
import SoftMargin.Text.Utf8

/-!
# Storing a solver

A solver is stored by what it was built from: the data, the box bound and the
settings. It is built anew when it is loaded. The settings may then be replaced
by others, but those that are stored have to be readable all the same.
-/

namespace SoftMargin

structure StoredSolver where
  data : Matrix Float
  bound : Float
  settings : Settings Float

inductive LoadError where
  /-- The bytes are no UTF-8. -/
  | notText
  | unreadable (source : Json.ReadError)
  /-- No solver can be built. -/
  | refused (source : SolverError Float)

namespace StoredSolver

def codec : Json.Codec StoredSolver :=
  Json.Codec.record [
      Json.Codec.matrix.field "H",
      Json.Codec.number.field "D",
      Json.Codec.settings.field "settings"]
    (fun s => [
      Json.Codec.matrix.value "H" s.data,
      Json.Codec.number.value "D" s.bound,
      Json.Codec.settings.value "settings" s.settings])
    fun fields => do
      return {
        data := ← Json.Codec.matrix.item? "H" fields
        bound := ← Json.Codec.number.item? "D" fields
        settings := ← Json.Codec.settings.item? "settings" fields }

def ofSolver (s : Solver Float) : StoredSolver :=
  ⟨s.problem.data, s.problem.bound, s.settings⟩

def ofBytes (bytes : List UInt8) : Except LoadError StoredSolver := do
  match Utf8.text? bytes with
  | none => throw .notText
  | some text =>
      match codec.parse text with
      | .error source => throw (.unreadable source)
      | .ok stored => return stored

def buildBy (methods : Methods Float) (s : StoredSolver) : Except LoadError (Solver Float) := do
  match Solver.newBy methods s.data s.bound s.settings with
  | .error source => throw (.refused source)
  | .ok solver => return solver

end StoredSolver

namespace Solver

def stored (s : Solver Float) : String :=
  StoredSolver.codec.text (StoredSolver.ofSolver s)

/-- The solver that bytes store, with other settings if some are given. -/
def loadBy (methods : Methods Float) (bytes : List UInt8) (settings : Option (Settings Float)) :
    Except LoadError (Solver Float) := do
  let stored ← StoredSolver.ofBytes bytes
  { stored with settings := settings.getD stored.settings }.buildBy methods

def load (bytes : List UInt8) (settings : Option (Settings Float)) :
    Except LoadError (Solver Float) :=
  loadBy .standard bytes settings

end Solver
end SoftMargin
