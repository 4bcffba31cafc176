import SoftMargin.InPlace.Ensemble
import SoftMargin.Proofs.InPlace.System
import SoftMargin.Proofs.Partition.Balance
import SoftMargin.Proofs.Solver.Restart

/-!
# Partitions solved in place

The operations of the iteration commute with forgetting the vectors of the
systems and the accumulator: these are written in full before they are read.
-/

namespace SoftMargin
namespace InPlace

variable {K : Type} [ExactScalar K]

theorem cleared_eq (x : Array K) : cleared x = zeros x.size := by
  unfold cleared zeros
  rw [Array.map_const']

theorem setIfInBounds_zeros (n : Nat) (v : K) :
    (zeros (n + 1)).setIfInBounds n v = (zeros n).push v := by
  have hpush : ∀ i, ((zeros n).push v).getD i 0 = if i = n then v else 0 := by
    intro i
    rw [Array.getD_eq_getD_getElem?, Array.getElem?_push, size_zeros]
    split_ifs
    · rfl
    · rw [← Array.getD_eq_getD_getElem?, getD_zeros]
  apply ext_getD 0
  · rw [Array.size_setIfInBounds, size_zeros, Array.size_push, size_zeros]
  · intro i _
    rw [Ldl.getD_setIfInBounds, hpush, size_zeros, getD_zeros]
    exact if_congr (by omega) rfl rfl

/-!
## Members
-/

namespace Member

def shape (m : Member K) : Kkt.Shape :=
  ⟨m.features, m.columns.size⟩

structure Fits (m : Member K) : Prop where
  costs : m.costs.size = m.shape.variableCount
  x : m.state.x.size = m.shape.variableCount
  z : m.state.z.size = m.shape.variableCount
  u : m.state.u.size = m.shape.variableCount
  zPrevious : m.state.zPrevious.size = m.shape.variableCount
  system : m.system.Fits
  dimension : m.system.kkt.dimension = m.shape.dimension

variable {m : Member K} {c : Array K}

theorem Fits.state (h : m.Fits) (verdict : Verdict K) :
    (m.partition verdict).IsSized m.state :=
  ⟨h.x, h.z, h.u, h.zPrevious⟩

theorem Fits.reset (h : m.Fits) (verdict : Verdict K) : m.reset.Fits ∧
    m.reset.forget verdict = ⟨m.partition verdict, (m.partition verdict).initialState⟩ := by
  have hstate : m.reset.state = (m.partition verdict).initialState := by
    unfold Member.reset Partition.initialState
    dsimp only
    rw [cleared_eq, cleared_eq, cleared_eq, cleared_eq, h.x, h.z, h.u, h.zPrevious]
    rfl
  have hzero : (zeros m.shape.variableCount : Array K).size = m.shape.variableCount := size_zeros _
  refine ⟨⟨h.costs, ?_, ?_, ?_, ?_, h.system, h.dimension⟩, ?_⟩
  · rw [hstate]
    exact hzero
  · rw [hstate]
    exact hzero
  · rw [hstate]
    exact hzero
  · rw [hstate]
    exact hzero
  · unfold forget
    rw [hstate]
    rfl

theorem Fits.writeRightHandSide (h : m.Fits) (verdict : Verdict K) (rho : K) :
    (m.writeRightHandSide rho).Fits ∧ (m.writeRightHandSide rho).system.rhs =
      (m.partition verdict).rightHandSide rho m.state := by
  have hx := h.x
  have hz := h.z
  have hu := h.u
  have hb := h.system.rhs.trans h.dimension
  have hdimension : m.shape.dimension = m.shape.variableCount + (m.columns.size + 1) := rfl
  have hfront : overwriteMap id (m.system.rhs.extract 0 m.state.x.size)
      (combine rho m.state.z (-rho) m.state.u) = combine rho m.state.z (-rho) m.state.u := by
    apply overwriteMap_id
    rw [size_combine, Array.size_extract]
    omega
  have hback : cleared (m.system.rhs.extract m.state.x.size m.system.rhs.size) =
      zeros (m.columns.size + 1) := by
    rw [cleared_eq, Array.size_extract]
    exact congrArg zeros (by omega)
  have hrhs : (m.writeRightHandSide rho).system.rhs =
      (m.partition verdict).rightHandSide rho m.state := by
    unfold Member.writeRightHandSide Partition.rightHandSide
    dsimp only
    rw [hfront, hback, size_zeros, Nat.add_sub_cancel, setIfInBounds_zeros]
    rfl
  have hsystem := h.system
  refine ⟨⟨h.costs, h.x, h.z, h.u, h.zPrevious, ?_, h.dimension⟩, hrhs⟩
  refine ⟨hsystem.factored, ?_, hsystem.answer, hsystem.residual, hsystem.correction,
    hsystem.workspace⟩
  rw [hrhs]
  exact (Partition.size_rightHandSide (h.state verdict) h.costs rho).trans h.dimension.symm

section UpdateX

variable {rho : K} {finite : Bool} {T : System K}
  (hsolved : (m.writeRightHandSide rho).system.solve = (finite, T))

include hsolved

theorem updateX_of_solve (verdict : Verdict K) : m.updateX verdict rho =
    (verdict m.columns (m.writeRightHandSide rho).system.rhs finite, { m with
      system := T
      state := { m.state with
        x := overwriteMap id m.state.x (T.answer.extract 0 m.state.x.size) } }) := by
  unfold Member.updateX
  dsimp only
  rw [hsolved]
  rfl

theorem Fits.partition_updateX (h : m.Fits) (verdict : Verdict K) :
    (m.partition verdict).updateX rho m.state =
      (verdict m.columns (m.writeRightHandSide rho).system.rhs finite,
        { m.state with x := overwriteMap id m.state.x (T.answer.extract 0 m.state.x.size) }) := by
  rcases h.writeRightHandSide verdict rho with ⟨hwritten, hrhs⟩
  rcases hwritten.system.solve with ⟨hkeeps, hanswer⟩
  rw [hsolved] at hkeeps hanswer
  have hsize : m.state.x.size = (m.partition verdict).variableCount := h.x
  have hx : overwriteMap id m.state.x (T.answer.extract 0 m.state.x.size) =
      T.answer.extract 0 (m.partition verdict).variableCount := by
    have hkkt : T.kkt = m.system.kkt := hkeeps.kkt_eq
    have hdimension : T.answer.size =
        (m.partition verdict).variableCount + (m.columns.size + 1) := by
      rw [hkeeps.fits.answer, hkkt, h.dimension]
      rfl
    rw [hsize]
    apply overwriteMap_id
    rw [Array.size_extract, hsize]
    omega
  have hsolve : (m.partition verdict).solve (m.writeRightHandSide rho).system.rhs =
      (verdict m.columns (m.writeRightHandSide rho).system.rhs finite, T.answer) := by
    have hkept : m.system.kkt.solve (m.writeRightHandSide rho).system.rhs = (finite, T.answer) :=
      hanswer.symm
    unfold partition
    dsimp only
    rw [hkept]
  unfold Partition.updateX
  rw [← hrhs, hsolve, hx]

end UpdateX

theorem Fits.updateX (h : m.Fits) (verdict : Verdict K) (rho : K) :
    (m.updateX verdict rho).2.Fits ∧
      (m.updateX verdict rho).1 = ((m.partition verdict).updateX rho m.state).1 ∧
      (m.updateX verdict rho).2.forget verdict =
        ⟨m.partition verdict, ((m.partition verdict).updateX rho m.state).2⟩ := by
  rcases h.writeRightHandSide verdict rho with ⟨hwritten, _⟩
  rcases hwritten.system.solve with ⟨hkeeps, _⟩
  rcases hsolved : (m.writeRightHandSide rho).system.solve with ⟨finite, T⟩
  rw [hsolved] at hkeeps
  have hkkt : T.kkt = m.system.kkt := hkeeps.kkt_eq
  rw [updateX_of_solve hsolved verdict, h.partition_updateX hsolved verdict]
  refine ⟨⟨h.costs, ?_, h.z, h.u, h.zPrevious, hkeeps.fits, ?_⟩, rfl, ?_⟩
  · exact (size_overwriteMap _ _ _).trans h.x
  · exact (congrArg KktSolver.dimension hkkt).trans h.dimension
  · unfold forget partition
    dsimp only
    rw [hkkt]

theorem Fits.updateZU (h : m.Fits) (verdict : Verdict K) (hc : c.size = m.features + 1) :
    (m.updateZU c).Fits ∧ (m.updateZU c).forget verdict =
      ⟨m.partition verdict, (m.partition verdict).updateZU c m.state⟩ := by
  have hx := h.x
  have hz := h.z
  have hu := h.u
  have hcount : m.shape.variableCount = 2 * m.columns.size + (m.features + 1) := rfl
  have hlocal : overwriteMap id (m.state.z.extract 0 (2 * m.columns.size))
      (combine 1 (m.state.x.extract 0 (2 * m.columns.size)) 1
        (m.state.u.extract 0 (2 * m.columns.size))) =
      combine 1 (m.state.x.extract 0 (2 * m.columns.size)) 1
        (m.state.u.extract 0 (2 * m.columns.size)) := by
    apply overwriteMap_id
    rw [size_combine, Array.size_extract, Array.size_extract, Array.size_extract]
    omega
  have hshared : overwriteMap id (m.state.z.extract (2 * m.columns.size) m.state.z.size) c = c := by
    apply overwriteMap_id
    rw [Array.size_extract]
    omega
  have hprevious : overwriteMap id m.state.zPrevious m.state.z = m.state.z :=
    overwriteMap_id (hz.trans h.zPrevious.symm)
  have hstate : (m.updateZU c).state = (m.partition verdict).updateZU c m.state := by
    unfold Member.updateZU Partition.updateZU
    dsimp only
    rw [hlocal, hshared, hprevious]
    rfl
  have hsized := Partition.updateZU_isSized (h.state verdict) hc
  rw [← hstate] at hsized
  refine ⟨⟨h.costs, hsized.x, hsized.z, hsized.u, hsized.zPrevious, h.system, h.dimension⟩, ?_⟩
  unfold forget
  rw [hstate]
  rfl

end Member

/-!
## Ensembles
-/

namespace Ensemble

structure Fits (features : Nat) (e : Ensemble K) : Prop where
  members : ∀ m ∈ e.members, m.Fits
  features_eq : ∀ m ∈ e.members, m.features = features
  consensus : e.consensus.size = features + 1
  total : e.total.size = features + 1

variable {features : Nat} {e : Ensemble K} (h : e.Fits features) (verdict : Verdict K)

omit [ExactScalar K] in
theorem forall_mem_map {p : Member K → Prop} {ms : Array (Member K)} {f : Member K → Member K}
    (hf : ∀ m ∈ ms, p (f m)) : ∀ m ∈ ms.map f, p m := by
  intro m hm
  rcases Array.mem_map.mp hm with ⟨m', hm', rfl⟩
  exact hf m' hm'

include h

theorem Fits.reset : e.reset.Fits features ∧ e.reset.forget verdict = (e.forget verdict).reset := by
  refine ⟨⟨?_, ?_, ?_, h.total⟩, ?_⟩
  · exact forall_mem_map fun m hm => ((h.members m hm).reset verdict).left
  · exact forall_mem_map h.features_eq
  · exact Array.size_map.trans h.consensus
  · unfold Ensemble.reset forget SoftMargin.Ensemble.reset
    dsimp only
    rw [cleared_eq, Array.map_map, Array.map_map]
    congr 1
    exact Array.map_congr_left fun m hm => ((h.members m hm).reset verdict).right

theorem Fits.updateX (rho : K) : (e.updateX verdict rho).2.Fits features ∧
    (e.updateX verdict rho).1 = ((e.forget verdict).updateX rho).1 ∧
      (e.updateX verdict rho).2.forget verdict = ((e.forget verdict).updateX rho).2 := by
  have hmembers : (e.updateX verdict rho).2.members =
      e.members.map fun m => (m.updateX verdict rho).2 := Array.map_map
  refine ⟨⟨?_, ?_, h.consensus, h.total⟩, ?_, ?_⟩
  · rw [hmembers]
    exact forall_mem_map fun m hm => ((h.members m hm).updateX verdict rho).left
  · rw [hmembers]
    apply forall_mem_map
    intro m hm
    have hforget := ((h.members m hm).updateX verdict rho).2.2
    have hfeatures := congrArg (fun m : SoftMargin.Member K => m.partition.features) hforget
    exact hfeatures.trans (h.features_eq m hm)
  · unfold Ensemble.updateX forget SoftMargin.Ensemble.updateX
    dsimp only
    rw [Array.map_map, Array.map_map, Array.map_map]
    exact Array.map_congr_left fun m hm => ((h.members m hm).updateX verdict rho).2.1
  · unfold forget
    rw [hmembers]
    unfold SoftMargin.Ensemble.updateX
    dsimp only
    rw [Array.map_map, Array.map_map, Array.map_map]
    congr 1
    exact Array.map_congr_left fun m hm => ((h.members m hm).updateX verdict rho).2.2

theorem Fits.updateConsensus : e.updateConsensus.total.size = features + 1 ∧
    e.updateConsensus.consensus.size = features + 1 ∧
      e.updateConsensus.consensus = (e.forget verdict).updateConsensus.consensus := by
  have htotal : e.updateConsensus.total =
      (e.forget verdict).members.foldl
        (fun acc m => m.partition.accumulateShared m.state acc) (zeros e.consensus.size) := by
    unfold Ensemble.updateConsensus forget
    dsimp only
    rw [cleared_eq, h.total, h.consensus, Array.foldl_map]
    rfl
  have hsize : e.updateConsensus.total.size = e.consensus.size := by
    rw [htotal, SoftMargin.Ensemble.size_foldl_accumulateShared, size_zeros]
  have hconsensus : e.updateConsensus.consensus =
      (e.forget verdict).updateConsensus.consensus := by
    show Consensus.clipWeights (overwriteMap _ e.consensus e.updateConsensus.total) = _
    rw [overwriteMap_eq_map _ hsize, htotal]
    unfold SoftMargin.Ensemble.updateConsensus Consensus.next Consensus.average forget
    dsimp only
    rw [Array.size_map]
  refine ⟨hsize.trans h.consensus, ?_, hconsensus⟩
  rw [hconsensus]
  show (Consensus.clipWeights (Consensus.average _ e.consensus.size)).size = _
  rw [SoftMargin.Ensemble.size_clipWeights, SoftMargin.Ensemble.size_average, h.consensus]

theorem Fits.project : e.project.Fits features ∧
    e.project.forget verdict = (e.forget verdict).project := by
  rcases h.updateConsensus verdict with ⟨htotal, hsize, hconsensus⟩
  have hwidth : ∀ m ∈ e.members,
      e.updateConsensus.consensus.size = m.features + 1 := by
    intro m hm
    rw [hsize, h.features_eq m hm]
  refine ⟨⟨?_, ?_, hsize, htotal⟩, ?_⟩
  · exact forall_mem_map fun m hm => ((h.members m hm).updateZU verdict (hwidth m hm)).left
  · exact forall_mem_map h.features_eq
  · have hmembers : (e.members.map (Member.updateZU e.updateConsensus.consensus)).map
        (Member.forget verdict) = (e.forget verdict).members.map fun m =>
          ⟨m.partition, m.partition.updateZU e.updateConsensus.consensus m.state⟩ := by
      unfold forget
      rw [Array.map_map, Array.map_map]
      exact Array.map_congr_left fun m hm =>
        ((h.members m hm).updateZU verdict (hwidth m hm)).right
    show SoftMargin.Ensemble.mk _ _ = SoftMargin.Ensemble.mk _ _
    congr 1
    exact hmembers.trans (by rw [hconsensus]; rfl)

omit h

/-- What is read off an ensemble does not depend on the verdict. -/
theorem sums_eq (e : Ensemble K) (rho : K) : e.sums rho = (e.forget verdict).sums rho := by
  unfold sums forget SoftMargin.Ensemble.sums
  rw [Array.foldl_map, Array.foldl_map]
  rfl

theorem copies_eq (e : Ensemble K) : e.copies = (e.forget verdict).copies := by
  unfold copies forget SoftMargin.Ensemble.copies
  rw [Array.map_map, Array.map_map]
  rfl

end Ensemble
end InPlace
end SoftMargin
