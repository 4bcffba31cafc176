import Mathlib.Tactic.SplitIfs
import SoftMargin.Solver.Iteration

/-!
# Runs that agree

What one iteration keeps, a run keeps. The same holds of two runs side by side,
also where they keep the states of the partitions in different forms: it is enough
that the operations on the states agree.
-/

namespace SoftMargin
namespace Operations

variable {α ε ε' : Type} [Scalar α] {ops : Operations ε α} {ops' : Operations ε' α}
  {P : Problem α} {settings : Settings α}

/-- What an iteration keeps of two runs, with the same failure in both, the runs keep. -/
theorem iterate_related {R : RunOf ε α → RunOf ε' α → Prop}
    (hover : ∀ r r', R r r' → r.isOver = r'.isOver)
    (hstep : ∀ r r', R r r' → (ops.step P settings r).1 = (ops'.step P settings r').1 ∧
      R (ops.step P settings r).2 (ops'.step P settings r').2)
    (left : Nat) {r : RunOf ε α} {r' : RunOf ε' α} (h : R r r') :
    (ops.iterate P settings left r).1 = (ops'.iterate P settings left r').1 ∧
      R (ops.iterate P settings left r).2 (ops'.iterate P settings left r').2 := by
  induction left generalizing r r' with
  | zero => exact ⟨rfl, h⟩
  | succ left ih =>
      have hnext := hstep r r' h
      unfold iterate
      rcases hr : ops.step P settings r with ⟨failure, s⟩
      rcases hr' : ops'.step P settings r' with ⟨failure', s'⟩
      rw [hr, hr'] at hnext
      obtain ⟨rfl, hrelated⟩ := hnext
      cases failure with
      | some f => exact ⟨rfl, hrelated⟩
      | none =>
          dsimp only
          rw [hover s s' hrelated]
          split_ifs
          · exact ⟨rfl, hrelated⟩
          · exact ih hrelated

theorem iterate_preserves {Inv : RunOf ε α → Prop}
    (hstep : ∀ r, Inv r → Inv (ops.step P settings r).2) (left : Nat) {r : RunOf ε α}
    (h : Inv r) : Inv (ops.iterate P settings left r).2 := by
  have hboth : ∀ r r', r = r' ∧ Inv r → (ops.step P settings r).1 = (ops.step P settings r').1 ∧
      (ops.step P settings r).2 = (ops.step P settings r').2 ∧ Inv (ops.step P settings r).2 := by
    rintro r _ ⟨rfl, hr⟩
    exact ⟨rfl, rfl, hstep r hr⟩
  exact (iterate_related (R := fun r r' => r = r' ∧ Inv r) (fun r r' hr => by rw [hr.left]) hboth
    left ⟨rfl, h⟩).right.right

/-- The operations on two forms of the states agree, as far as a relation tells of them. -/
structure Simulates (ops : Operations ε α) (ops' : Operations ε' α) (R : ε → ε' → Prop) :
    Prop where
  members_eq : ∀ {e e'}, R e e' → ops.members e = ops'.members e'
  consensus_eq : ∀ {e e'}, R e e' → ops.consensus e = ops'.consensus e'
  copies_eq : ∀ {e e'}, R e e' → ops.copies e = ops'.copies e'
  sums_eq : ∀ {e e'}, R e e' → ∀ rho, ops.sums e rho = ops'.sums e' rho
  reset : ∀ {e e'}, R e e' → R (ops.reset e) (ops'.reset e')
  updateX : ∀ {e e'}, R e e' → ∀ rho, (ops.updateX e rho).1 = (ops'.updateX e' rho).1 ∧
    R (ops.updateX e rho).2 (ops'.updateX e' rho).2
  project : ∀ {e e'}, R e e' → R (ops.project e) (ops'.project e')

/-- The record of two runs is the same, and their states are related. -/
structure Agree (R : ε → ε' → Prop) (r : RunOf ε α) (r' : RunOf ε' α) : Prop where
  ensemble : R r.ensemble r'.ensemble
  trace_eq : r.trace = r'.trace
  progress_eq : r.progress = r'.progress

namespace Simulates

variable {R : ε → ε' → Prop} (h : ops.Simulates ops' R)

include h

theorem start {e : ε} {e' : ε'} (he : R e e') (progress : Progress α) :
    Agree R (ops.start P e progress) (ops'.start P e' progress) := by
  refine ⟨h.reset he, ?_, rfl⟩
  unfold Operations.start
  rw [h.members_eq he]

theorem record {r : RunOf ε α} {r' : RunOf ε' α} (hr : Agree R r r') {e : ε} {e' : ε'}
    (he : R e e') (residuals : Residuals α) (maxIter : Nat) :
    Agree R (ops.record r e residuals maxIter) (ops'.record r' e' residuals maxIter) := by
  unfold Operations.record
  dsimp only
  rw [h.consensus_eq he, h.copies_eq he, hr.trace_eq, hr.progress_eq]
  exact ⟨he, rfl, rfl⟩

theorem step {r : RunOf ε α} {r' : RunOf ε' α} (hr : Agree R r r') :
    (ops.step P settings r).1 = (ops'.step P settings r').1 ∧
      Agree R (ops.step P settings r).2 (ops'.step P settings r').2 := by
  have hupdated := h.updateX hr.ensemble settings.rho
  unfold Operations.step
  rcases hupdate : ops.updateX r.ensemble settings.rho with ⟨finite, e⟩
  rcases hupdate' : ops'.updateX r'.ensemble settings.rho with ⟨finite', e'⟩
  rw [hupdate, hupdate'] at hupdated
  obtain ⟨rfl, hsolved⟩ := hupdated
  have hprojected := h.project hsolved
  dsimp only
  rw [h.sums_eq hprojected]
  split_ifs
  · exact ⟨rfl, hsolved, hr.trace_eq, hr.progress_eq⟩
  · exact ⟨rfl, h.record hr hprojected _ _⟩
  · exact ⟨rfl, hprojected, hr.trace_eq, hr.progress_eq⟩

theorem complete {e : ε} {e' : ε'} (he : R e e') (P : Problem α) (settings : Settings α)
    (progress : Progress α) :
    (ops.complete P settings e progress).1 = (ops'.complete P settings e' progress).1 ∧
      Agree R (ops.complete P settings e progress).2
        (ops'.complete P settings e' progress).2 := by
  refine iterate_related ?_ (fun r r' hr => h.step hr) _ (h.start he progress)
  intro r r' hr
  unfold RunOf.isOver
  rw [hr.progress_eq]

end Simulates
end Operations

theorem Run.iterate_succ {α : Type} [Scalar α] (P : Problem α) (settings : Settings α) (left : Nat)
    (r : Run α) : iterate P settings (left + 1) r = match r.step P settings with
      | (some failure, r) => (some failure, r)
      | (none, r) => if r.isOver then (none, r) else iterate P settings left r := by
  unfold iterate step
  rw [Operations.iterate]
  rcases Ensemble.operations.step P settings r with ⟨failure, r'⟩
  cases failure with
  | none => rfl
  | some failure => rfl

end SoftMargin
