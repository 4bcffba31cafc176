import SoftMargin.Proofs.Ldl.Access
import SoftMargin.Proofs.Solver.Iteration

/-!
# What a run records

A run that goes on has counted and recorded its iterations, and none of them has
converged. The iteration that ends it is recorded too, unless something in it is
not finite: then the record ends with the iteration before.
-/

namespace SoftMargin

variable {α : Type} [Scalar α]

/-!
## Traces
-/

namespace Trace

structure IsAligned (t : Trace α) : Prop where
  sNorm : t.sNorm.size = t.length
  epsPri : t.epsPri.size = t.length
  epsDual : t.epsDual.size = t.length
  objective : t.objective.size = t.length

variable {t : Trace α}

omit [Scalar α] in
theorem isAligned_empty (features partitions : Nat) :
    (empty features partitions : Trace α).IsAligned :=
  ⟨rfl, rfl, rfl, rfl⟩

omit [Scalar α] in
theorem length_push (t : Trace α) (r : Residuals α) (consensus : Array α)
    (copies : Array (Array α)) : (t.push r consensus copies).length = t.length + 1 :=
  Array.size_push _

omit [Scalar α] in
theorem IsAligned.push (h : t.IsAligned) (r : Residuals α) (consensus : Array α)
    (copies : Array (Array α)) : (t.push r consensus copies).IsAligned := by
  refine ⟨?_, ?_, ?_, ?_⟩
  · rw [length_push, ← h.sNorm]
    exact Array.size_push _
  · rw [length_push, ← h.epsPri]
    exact Array.size_push _
  · rw [length_push, ← h.epsDual]
    exact Array.size_push _
  · rw [length_push, ← h.objective]
    exact Array.size_push _

omit [Scalar α] in
theorem IsAligned.residualsAt?_push (h : t.IsAligned) (r : Residuals α) (consensus : Array α)
    (copies : Array (Array α)) (k : Nat) :
    (t.push r consensus copies).residualsAt? k =
      if k = t.length then some r else t.residualsAt? k := by
  unfold residualsAt? Trace.push
  dsimp only
  rw [Array.getElem?_push, Array.getElem?_push, Array.getElem?_push, Array.getElem?_push,
    Array.getElem?_push, h.sNorm, h.epsPri, h.epsDual, h.objective]
  by_cases hk : k = t.length
  · subst hk
    simp [length]
  · simp [length] at hk
    simp [length, hk]

omit [Scalar α] in
theorem objective_of_residualsAt? {k : Nat} {r : Residuals α} (h : t.residualsAt? k = some r) :
    t.objective[k]? = some r.objective := by
  unfold residualsAt? at h
  cases hobjective : t.objective[k]? with
  | none =>
      rw [hobjective] at h
      cases h
  | some objective =>
      simp only [hobjective, Option.bind_eq_bind, Option.bind_some, Option.bind_eq_some_iff] at h
      rcases h with ⟨_, _, _, _, _, _, _, _, hr⟩
      rw [← Option.some.inj hr]

def convergedAt (t : Trace α) (k : Nat) : Bool :=
  (t.residualsAt? k).any Residuals.isConverged

theorem IsAligned.convergedAt_push (h : t.IsAligned) (r : Residuals α) (consensus : Array α)
    (copies : Array (Array α)) (k : Nat) :
    (t.push r consensus copies).convergedAt k =
      if k = t.length then r.isConverged else t.convergedAt k := by
  unfold convergedAt
  rw [h.residualsAt?_push]
  by_cases hk : k = t.length
  · rw [if_pos hk, if_pos hk]
    rfl
  · rw [if_neg hk, if_neg hk]

end Trace

/-!
## Answers
-/

namespace Ensemble

def AnswersFinite (e : Ensemble α) : Prop :=
  ∀ m ∈ e.members, ∀ b, (m.partition.solve b).1 = true

variable {e : Ensemble α}

theorem AnswersFinite.updateX (h : e.AnswersFinite) (rho : α) :
    (e.updateX rho).1.all id = true := by
  rw [Array.all_eq_true_iff_forall_mem]
  intro flag hflag
  unfold Ensemble.updateX at hflag
  rcases Array.mem_map.mp hflag with ⟨pair, hpair, rfl⟩
  rcases Array.mem_map.mp hpair with ⟨m, hm, rfl⟩
  exact h m hm _

theorem AnswersFinite.advance (h : e.AnswersFinite) (rho : α) :
    (e.advance rho).AnswersFinite := by
  intro m hm b
  unfold Ensemble.advance project updateConsensus updateZU Ensemble.updateX at hm
  rcases Array.mem_map.mp hm with ⟨m', hm', rfl⟩
  rcases Array.mem_map.mp hm' with ⟨pair, hpair, rfl⟩
  rcases Array.mem_map.mp hpair with ⟨m'', hm'', rfl⟩
  exact h m'' hm'' b

theorem AnswersFinite.reset (h : e.AnswersFinite) : e.reset.AnswersFinite := by
  intro m hm b
  rcases Array.mem_map.mp hm with ⟨m', hm', rfl⟩
  exact h m' hm' b

end Ensemble

/-!
## Runs
-/

namespace Run

variable {P : Problem α} {settings : Settings α} {r : Run α} {maxIter : Nat}

structure IsOngoing (maxIter : Nat) (r : Run α) : Prop where
  aligned : r.trace.IsAligned
  iterations_eq : r.progress.iterations = r.trace.length
  length_lt : r.trace.length < maxIter
  unconverged : ∀ k < r.trace.length, r.trace.convergedAt k = false
  status_eq : r.progress.status = .running
  lineSearch_eq : r.progress.lineSearch = none

/-- The last recorded iteration ends the run, and no earlier one did. -/
structure IsComplete (maxIter : Nat) (r : Run α) : Prop where
  aligned : r.trace.IsAligned
  iterations_eq : r.progress.iterations = r.trace.length
  length_pos : 0 < r.trace.length
  length_le : r.trace.length ≤ maxIter
  unconverged : ∀ k, k + 1 < r.trace.length → r.trace.convergedAt k = false
  last : r.trace.residualsAt? (r.trace.length - 1) = some r.progress.residuals
  status_eq : r.progress.status =
    if r.progress.residuals.isConverged then .converged else .maxIterations
  exhausted : r.progress.residuals.isConverged = false → r.trace.length = maxIter
  consensus_last : ∃ before, r.trace.consensus = before ++ r.ensemble.consensus

theorem isOngoing_start (P : Problem α) (ensemble : Ensemble α) (progress : Progress α)
    (hmaxIter : 0 < maxIter) : (start P ensemble progress).IsOngoing maxIter :=
  ⟨Trace.isAligned_empty _ _, rfl, hmaxIter, fun _ hk => absurd hk (Nat.not_lt_zero _), rfl, rfl⟩

theorem IsOngoing.withEnsemble (h : r.IsOngoing maxIter) (ensemble : Ensemble α) :
    IsOngoing maxIter { r with ensemble } :=
  ⟨h.aligned, h.iterations_eq, h.length_lt, h.unconverged, h.status_eq, h.lineSearch_eq⟩

theorem IsOngoing.record (h : r.IsOngoing maxIter) (ensemble : Ensemble α)
    (residuals : Residuals α) :
    ((r.record ensemble residuals maxIter).isOver = false ∧
      (r.record ensemble residuals maxIter).IsOngoing maxIter) ∨
    ((r.record ensemble residuals maxIter).isOver = true ∧
      (r.record ensemble residuals maxIter).IsComplete maxIter) := by
  have hlength : (r.record ensemble residuals maxIter).trace.length = r.trace.length + 1 :=
    Trace.length_push _ _ _ _
  have hiterations : (r.record ensemble residuals maxIter).progress.iterations =
      (r.record ensemble residuals maxIter).trace.length := by
    rw [hlength, ← h.iterations_eq]
    rfl
  have haligned := h.aligned.push residuals ensemble.consensus ensemble.copies
  have hconverged := h.aligned.convergedAt_push residuals ensemble.consensus ensemble.copies
  have hbefore : ∀ k < r.trace.length,
      (r.record ensemble residuals maxIter).trace.convergedAt k = false := by
    intro k hk
    exact (hconverged k).trans (by rw [if_neg hk.ne, h.unconverged k hk])
  have hlast : (r.record ensemble residuals maxIter).trace.residualsAt? r.trace.length =
      some residuals :=
    (h.aligned.residualsAt?_push _ _ _ _).trans (if_pos rfl)
  have hstatus : (r.record ensemble residuals maxIter).progress.status =
      if residuals.isConverged then .converged
      else if maxIter ≤ r.trace.length + 1 then .maxIterations else .running := by
    rw [← h.iterations_eq, ← h.status_eq]
    rfl
  have hcomplete : (residuals.isConverged = false → r.trace.length + 1 = maxIter) →
      (r.record ensemble residuals maxIter).progress.status =
        (if residuals.isConverged then .converged else .maxIterations) →
      (r.record ensemble residuals maxIter).IsComplete maxIter := by
    intro hexhausted hverdict
    refine ⟨haligned, hiterations, ?_, ?_, ?_, ?_, hverdict, ?_, r.trace.consensus, rfl⟩
    · omega
    · have hlt := h.length_lt
      omega
    · intro k hk
      exact hbefore k (by omega)
    · rw [hlength]
      exact hlast
    · intro hres
      rw [hlength]
      exact hexhausted hres
  cases hres : residuals.isConverged with
  | true =>
      right
      rw [hres, if_pos rfl] at hstatus
      refine ⟨by unfold RunOf.isOver; rw [hstatus]; rfl, hcomplete ?_ ?_⟩
      · intro hfalse
        exact absurd (hfalse.symm.trans hres) Bool.false_ne_true
      · rw [hstatus, hres, if_pos rfl]
  | false =>
      rw [hres, if_neg Bool.false_ne_true] at hstatus
      by_cases hmax : maxIter ≤ r.trace.length + 1
      · right
        rw [if_pos hmax] at hstatus
        refine ⟨by unfold RunOf.isOver; rw [hstatus]; rfl, hcomplete ?_ ?_⟩
        · intro _
          have hlt := h.length_lt
          omega
        · rw [hstatus, hres, if_neg Bool.false_ne_true]
      · left
        rw [if_neg hmax] at hstatus
        refine ⟨by unfold RunOf.isOver; rw [hstatus]; rfl, haligned, hiterations, ?_, ?_, hstatus,
          h.lineSearch_eq⟩
        · omega
        · intro k hk
          rw [hlength] at hk
          by_cases hkl : k = r.trace.length
          · exact (hconverged k).trans (by rw [if_pos hkl, hres])
          · exact hbefore k (by omega)

/-- An iteration is recorded, or something in it is not finite and only its ensemble is kept. -/
theorem step_cases (P : Problem α) (settings : Settings α) (r : Run α) :
    (∃ failure ensemble, r.step P settings = (some failure, { r with ensemble }) ∧
      (ensemble = (r.ensemble.updateX settings.rho).2 ∨
        ensemble = r.ensemble.advance settings.rho)) ∨
    ∃ residuals, r.step P settings = (none,
      r.record (r.ensemble.advance settings.rho) residuals settings.maxIter.toNat) := by
  unfold step Operations.step
  dsimp only [Ensemble.operations]
  by_cases hlocal : (!(r.ensemble.updateX settings.rho).1.all id) = true
  · rw [if_pos hlocal]
    exact Or.inl ⟨.localSolution, _, rfl, Or.inl rfl⟩
  · rw [if_neg hlocal]
    by_cases hfinite : (Residuals.ofSums
        ((r.ensemble.updateX settings.rho).2.project.sums settings.rho) P.points P.features
        settings.rho settings.tol settings.reltol).isFinite = true
    · rw [if_pos hfinite]
      exact Or.inr ⟨_, rfl⟩
    · rw [if_neg hfinite]
      exact Or.inl ⟨.residuals, _, rfl, Or.inr rfl⟩

/-- With enough iterations left a run comes to its end, or something in it is not finite. -/
theorem IsOngoing.iterate {left : Nat} (h : r.IsOngoing settings.maxIter.toNat)
    (hleft : left + r.trace.length = settings.maxIter.toNat) :
    ((iterate P settings left r).1 = none ∧
      (iterate P settings left r).2.IsComplete settings.maxIter.toNat) ∨
    ((iterate P settings left r).1 ≠ none ∧
      (iterate P settings left r).2.IsOngoing settings.maxIter.toNat) := by
  induction left generalizing r with
  | zero =>
      have hlt := h.length_lt
      exact absurd hleft (by omega)
  | succ left ih =>
      rw [iterate_succ]
      rcases r.step_cases P settings with ⟨failure, ensemble, hstep, _⟩ | ⟨residuals, hstep⟩
      · rw [hstep]
        right
        exact ⟨Option.some_ne_none failure, h.withEnsemble ensemble⟩
      · rw [hstep]
        dsimp only
        rcases h.record (r.ensemble.advance settings.rho) residuals with
          ⟨hover, hongoing⟩ | ⟨hover, hcomplete⟩
        · rw [hover, if_neg Bool.false_ne_true]
          refine ih hongoing ?_
          have hlength : (r.record (r.ensemble.advance settings.rho) residuals
              settings.maxIter.toNat).trace.length = r.trace.length + 1 := Trace.length_push ..
          omega
        · rw [hover, if_pos rfl]
          exact Or.inl ⟨rfl, hcomplete⟩

theorem complete_cases (P : Problem α) (settings : Settings α) (ensemble : Ensemble α)
    (progress : Progress α) (hmaxIter : 0 < settings.maxIter.toNat) :
    ((complete P settings ensemble progress).1 = none ∧
      (complete P settings ensemble progress).2.IsComplete settings.maxIter.toNat) ∨
    ((complete P settings ensemble progress).1 ≠ none ∧
      (complete P settings ensemble progress).2.IsOngoing settings.maxIter.toNat) :=
  (isOngoing_start P ensemble progress hmaxIter).iterate (Nat.add_zero _)

/-!
## The consensus vectors
-/

structure HoldsConsensus (width : Nat) (r : Run α) : Prop where
  size_ensemble : r.ensemble.consensus.size = width
  width_eq : r.trace.width = width
  size_consensus : r.trace.consensus.size = r.trace.length * width

theorem size_next (members : Array (Member α)) (width : Nat) :
    (Consensus.next members width).size = width := by
  have htotal : ∀ (ms : List (Member α)) (acc : Array α), acc.size = width →
      (ms.foldl (fun acc m => m.partition.accumulateShared m.state acc) acc).size = width := by
    intro ms
    induction ms with
    | nil =>
        intro acc hacc
        exact hacc
    | cons m rest ih =>
        intro acc hacc
        apply ih
        exact Array.size_mapIdx.trans hacc
  have haverage : (Consensus.average members width).size = width := by
    unfold Consensus.average
    rw [Array.size_map, ← Array.foldl_toList]
    exact htotal members.toList (zeros width) Array.size_replicate
  unfold Consensus.next Consensus.clipWeights positivePart
  rw [Array.size_append, Array.size_map, Array.size_extract, Array.size_extract, haverage]
  omega

theorem size_consensus_advance (e : Ensemble α) (rho : α) :
    (e.advance rho).consensus.size = e.consensus.size :=
  size_next _ _

theorem HoldsConsensus.step {width : Nat} (h : r.HoldsConsensus width) :
    (r.step P settings).2.HoldsConsensus width := by
  have hadvance := size_consensus_advance r.ensemble settings.rho
  rcases r.step_cases P settings with ⟨failure, ensemble, hstep, hensemble⟩ | ⟨residuals, hstep⟩
  · rw [hstep]
    refine ⟨?_, h.width_eq, h.size_consensus⟩
    rcases hensemble with rfl | rfl
    · exact h.size_ensemble
    · exact hadvance.trans h.size_ensemble
  · rw [hstep]
    refine ⟨hadvance.trans h.size_ensemble, h.width_eq, ?_⟩
    show (r.trace.consensus ++ (r.ensemble.advance settings.rho).consensus).size =
      (r.trace.push _ _ _).length * width
    rw [Array.size_append, h.size_consensus, hadvance, h.size_ensemble, Trace.length_push,
      Nat.succ_mul]

theorem holdsConsensus_complete {ensemble : Ensemble α} (progress : Progress α)
    (hensemble : ensemble.consensus.size = P.features + 1) :
    (complete P settings ensemble progress).2.HoldsConsensus (P.features + 1) := by
  apply Operations.iterate_preserves (fun r hr => HoldsConsensus.step hr)
  refine ⟨Array.size_replicate.trans hensemble, rfl, ?_⟩
  exact (Nat.zero_mul _).symm

theorem IsComplete.consensusAt_last {width : Nat} (h : r.IsComplete maxIter)
    (hholds : r.HoldsConsensus width) :
    r.trace.consensusAt? (r.trace.length - 1) = some r.ensemble.consensus := by
  rcases h.consensus_last with ⟨before, hbefore⟩
  have hpos := h.length_pos
  have hsize := hholds.size_consensus
  have hlast : r.trace.length - 1 + 1 = r.trace.length := by omega
  have hfirst : (r.trace.length - 1) * width = before.size := by
    rw [hbefore, Array.size_append, hholds.size_ensemble] at hsize
    have hmul : r.trace.length * width = (r.trace.length - 1) * width + width := by
      rw [← Nat.succ_mul, Nat.succ_eq_add_one, hlast]
    omega
  unfold Trace.consensusAt? slice?
  rw [hlast, hholds.width_eq, hfirst, ← hsize, if_pos ⟨by rw [hbefore, Array.size_append]; omega,
    le_refl _⟩, hbefore]
  simp

/-!
## Exact runs
-/

section Exact

variable {K : Type} [ExactScalar K] {P : Problem K} {settings : Settings K}

theorem iterate_eq_none (left : Nat) {r : Run K} (h : r.ensemble.AnswersFinite) :
    (iterate P settings left r).1 = none := by
  induction left generalizing r with
  | zero => rfl
  | succ left ih =>
      have hstep : ∃ residuals, r.step P settings = (none,
          r.record (r.ensemble.advance settings.rho) residuals settings.maxIter.toNat) := by
        unfold step Operations.step
        dsimp only [Ensemble.operations]
        rw [h.updateX settings.rho, Bool.not_true, if_neg Bool.false_ne_true]
        exact ⟨_, rfl⟩
      rcases hstep with ⟨residuals, hstep⟩
      rw [iterate_succ, hstep]
      dsimp only
      by_cases hover : (r.record (r.ensemble.advance settings.rho) residuals
          settings.maxIter.toNat).isOver = true
      · rw [if_pos hover]
      · rw [if_neg hover]
        exact ih (h.advance settings.rho)

theorem complete_eq_none {ensemble : Ensemble K} (progress : Progress K)
    (h : ensemble.AnswersFinite) : (complete P settings ensemble progress).1 = none :=
  iterate_eq_none _ h.reset

end Exact

end Run
end SoftMargin
