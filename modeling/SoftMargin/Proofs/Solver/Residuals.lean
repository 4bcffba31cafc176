import Mathlib.Algebra.Order.Chebyshev
import SoftMargin.Proofs.Exact.Real
import SoftMargin.Proofs.Exact.Simplex
import SoftMargin.Proofs.Partition.Solvable
import SoftMargin.Proofs.Solver.Contraction
import SoftMargin.Proofs.Trace.Storage

/-!
# What the residuals bound

The primal residual is at least as large as the distance of the copies from the
consensus, and the dual residual as the step of the consensus, once for every
partition. Every local solution is normalized, so the copies also tell how far
the weights of the consensus are from the simplex.
-/

namespace SoftMargin

open Scalar Finset

variable {K : Type} [ExactScalar K] {P : Problem K} {settings : Settings K}
  {parts : Array (Partition K)}

namespace Ensemble

variable {e : Ensemble K}

/-!
## One iteration
-/

theorem rsq_nonneg (h : e.IsOver parts P) (rho : K) : 0 ≤ (e.sums rho).rsq := by
  rw [rsq_sums h]
  exact sum_nonneg fun i _ => sum_nonneg fun v _ => sq_nonneg _

theorem ssq_nonneg (h : e.IsOver parts P) (rho : K) : 0 ≤ (e.sums rho).ssq := by
  rw [ssq_sums h]
  exact mul_nonneg (sq_nonneg rho) (sum_nonneg fun i _ => sum_nonneg fun v _ => sq_nonneg _)

def copyAt (e : Ensemble K) (i : Nat) : Array K :=
  (e.member i).partition.shared (e.member i).state.x

theorem sum_shared_le (p : Partition K) (g : Nat → K) :
    ∑ k ∈ range (p.features + 1), g (p.sharedOffset + k) ^ 2 ≤
      ∑ v ∈ range p.variableCount, g v ^ 2 := by
  have hlocal : 0 ≤ ∑ v ∈ range p.sharedOffset, g v ^ 2 := sum_nonneg fun v _ => sq_nonneg (g v)
  rw [p.variableCount_eq_add, sum_range_add (fun v => g v ^ 2) p.sharedOffset]
  exact le_add_of_nonneg_left hlocal

omit [ExactScalar K] in
theorem getElem_copies (e : Ensemble K) {i : Nat} (hi : i < e.copies.size) :
    e.copies[i] = e.copyAt i := by
  have hmembers : i < e.members.size := hi.trans_eq Array.size_map
  unfold copyAt member
  rw [getD_of_lt _ _ hmembers]
  exact Array.getElem_map _ hi

section Copies

variable (hfeatures : HaveFeatures P parts) (h : e.IsOver parts P)

include hfeatures h

omit [ExactScalar K] in
theorem size_copyAt {i : Nat} (hi : i < parts.size) : (e.copyAt i).size = P.features + 1 := by
  unfold copyAt Partition.shared
  rw [Array.size_extract, (h.isSized hi).x, Partition.variableCount_eq_add,
    h.features_eq hfeatures hi]
  omega

theorem getD_copyAt {i : Nat} (hi : i < parts.size) {k : Nat} (hk : k < P.features + 1) :
    (e.copyAt i).getD k 0 =
      (e.member i).state.x.getD ((e.member i).partition.sharedOffset + k) 0 := by
  unfold copyAt Partition.shared
  rw [getD_extract]
  rw [(h.isSized hi).x, Partition.variableCount_eq_add, h.features_eq hfeatures hi]
  omega

theorem squaredDistance_copyAt {i : Nat} (hi : i < parts.size) :
    squaredDistance (e.copyAt i) e.consensus = ∑ k ∈ range (P.features + 1),
      ((e.member i).state.x.getD ((e.member i).partition.sharedOffset + k) 0 -
        e.consensus.getD k 0) ^ 2 := by
  rw [squaredDistance_eq_sum _ _ (size_copyAt hfeatures h hi) h.size_consensus]
  apply sum_congr rfl
  intro k hk
  rw [getD_copyAt hfeatures h hi (mem_range.mp hk)]

/-- The copies are no further from the consensus than the local solutions from the projections. -/
theorem IsBalanced.sum_copies_le (he : e.IsBalanced P) (rho : K) :
    ∑ i ∈ range parts.size, squaredDistance (e.copyAt i) e.consensus ≤ (e.sums rho).rsq := by
  rw [rsq_sums h]
  unfold total
  rw [h.size_members]
  apply sum_le_sum
  intro i hi
  have hip := mem_range.mp hi
  have hshared := sum_shared_le (e.member i).partition
    fun v => (e.member i).state.x.getD v 0 - (e.member i).state.z.getD v 0
  rw [h.features_eq hfeatures hip] at hshared
  refine le_trans (le_of_eq ?_) hshared
  rw [squaredDistance_copyAt hfeatures h hip]
  apply sum_congr rfl
  intro k hk
  rw [he.shared i (h.lt_size hip) k (mem_range.mp hk)]

end Copies

section Advance

variable (hsplit : IsSplit P settings parts) (h : e.IsOver parts P) (hP : P.IsProper)

include hsplit h hP

theorem IsBalanced.step_le (he : e.IsBalanced P) :
    settings.rho ^ 2 * ((parts.size : K) *
      squaredDistance (e.advance settings.rho).consensus e.consensus) ≤
        ((e.advance settings.rho).sums settings.rho).ssq := by
  have hover := isOver_advance hsplit h
  have hafter := isBalanced_advance hsplit h (hsplit.parts_pos hP)
  rw [ssq_sums hover]
  apply mul_le_mul_of_nonneg_left _ (sq_nonneg settings.rho)
  unfold total
  rw [hover.size_members, squaredDistance_eq_sum _ _ hover.size_consensus h.size_consensus,
    ← nsmul_eq_mul, ← card_range parts.size, ← sum_const, card_range]
  apply sum_le_sum
  intro i hi
  have hip := mem_range.mp hi
  have hshared := sum_shared_le ((e.advance settings.rho).member i).partition fun v =>
    ((e.advance settings.rho).member i).state.z.getD v 0 -
      ((e.advance settings.rho).member i).state.zPrevious.getD v 0
  rw [hover.features_eq hsplit.haveFeatures hip] at hshared
  refine le_trans (le_of_eq ?_) hshared
  apply sum_congr rfl
  intro k hk
  rw [hafter.shared i (hover.lt_size hip) k (mem_range.mp hk), zPrevious_advance h hip,
    partition_advance h hip, he.shared i (h.lt_size hip) k (mem_range.mp hk)]

theorem sum_copyAt_advance {i : Nat} (hi : i < parts.size) :
    ∑ k ∈ range P.features, ((e.advance settings.rho).copyAt i).getD (k + 1) 0 = 1 := by
  have hover := isOver_advance hsplit h
  rcases advance_isSolution hsplit h hi with ⟨y, hy⟩
  have hnormal := (hy.conditions (h.isExact hsplit hi) hP).normalization
  rw [← hnormal]
  apply sum_congr rfl
  intro k hk
  have hkp := mem_range.mp hk
  have hplace : (e.member i).partition.sharedOffset + (k + 1) =
      2 * (e.member i).partition.points + 1 + k := by
    unfold Partition.sharedOffset
    omega
  rw [getD_copyAt hsplit.haveFeatures hover hi (Nat.succ_lt_succ hkp), partition_advance h hi,
    ← hplace]

theorem defect_advance_le : (parts.size : K) *
    UnitSimplex.defect ((e.advance settings.rho).consensus.extract 1
      (e.advance settings.rho).consensus.size) ^ 2 ≤
        (P.features : K) * ((e.advance settings.rho).sums settings.rho).rsq := by
  have hover := isOver_advance hsplit h
  have hafter := isBalanced_advance hsplit h (hsplit.parts_pos hP)
  generalize hnext : e.advance settings.rho = next at *
  have hsize : (next.consensus.extract 1 next.consensus.size).size = P.features := by
    rw [Array.size_extract, hover.size_consensus]
    omega
  have hweight : ∀ k < P.features, (next.consensus.extract 1 next.consensus.size).getD k 0 =
      next.consensus.getD (k + 1) 0 := by
    intro k hk
    rw [getD_extract _ _ (by rw [hover.size_consensus]; omega), Nat.add_comm 1 k]
  rw [UnitSimplex.defect_of_nonneg hsize (by
    intro k hk
    rw [hweight k hk, Nat.add_comm k 1]
    exact hafter.weight_nonneg k hk), magnitude_sq]
  rw [sum_congr rfl fun k hk => hweight k (mem_range.mp hk)]
  -- the defect is the sum of the differences in every copy
  have hcopy : ∀ i ∈ range parts.size,
      (1 - ∑ k ∈ range P.features, next.consensus.getD (k + 1) 0) ^ 2 ≤
        (P.features : K) * squaredDistance (next.copyAt i) next.consensus := by
    intro i hi
    have hip := mem_range.mp hi
    have hone := sum_copyAt_advance hsplit h hP hip
    rw [hnext] at hone
    have hcauchy := sq_sum_le_card_mul_sum_sq (s := range P.features)
      (f := fun k => (next.copyAt i).getD (k + 1) 0 - next.consensus.getD (k + 1) 0)
    rw [sum_sub_distrib, hone, card_range] at hcauchy
    refine hcauchy.trans (mul_le_mul_of_nonneg_left ?_ (Nat.cast_nonneg _))
    rw [squaredDistance_eq_sum _ _ (size_copyAt hsplit.haveFeatures hover hip)
      hover.size_consensus, sum_range_succ']
    exact le_add_of_nonneg_right (sq_nonneg _)
  calc
    (parts.size : K) * (1 - ∑ k ∈ range P.features, next.consensus.getD (k + 1) 0) ^ 2 =
        ∑ i ∈ range parts.size,
          (1 - ∑ k ∈ range P.features, next.consensus.getD (k + 1) 0) ^ 2 := by
      rw [sum_const, card_range, nsmul_eq_mul]
    _ ≤ ∑ i ∈ range parts.size,
        (P.features : K) * squaredDistance (next.copyAt i) next.consensus := sum_le_sum hcopy
    _ = (P.features : K) *
        ∑ i ∈ range parts.size, squaredDistance (next.copyAt i) next.consensus :=
      (mul_sum _ _ _).symm
    _ ≤ (P.features : K) * (next.sums settings.rho).rsq :=
      mul_le_mul_of_nonneg_left (hafter.sum_copies_le hsplit.haveFeatures hover settings.rho)
        (Nat.cast_nonneg _)

end Advance

end Ensemble

/-!
## The record of a run
-/

namespace Run

def residualsAfter (P : Problem K) (settings : Settings K) (r : Run K) (k : Nat) : Residuals K :=
  Residuals.ofSums ((r.after P settings k).ensemble.sums settings.rho) P.points P.features
    settings.rho settings.tol settings.reltol

structure IsRecord (P : Problem K) (settings : Settings K) (parts : Array (Partition K))
    (r : Run K) (n : Nat) (t : Trace K) : Prop where
  aligned : t.IsAligned
  filled : t.IsFilled
  length_eq : t.length = n
  width_eq : t.width = P.features + 1
  partitions_eq : t.partitions = parts.size
  residuals : ∀ k < n, t.residualsAt? k = some (r.residualsAfter P settings (k + 1))
  consensus : ∀ k < n, t.consensusAt? k = some (r.after P settings (k + 1)).ensemble.consensus
  copies : ∀ k < n, ∀ i < parts.size,
    t.copyAt? k i = some ((r.after P settings (k + 1)).ensemble.copyAt i)

variable {r : Run K}

omit [ExactScalar K] in
theorem fits_of_isOver {t : Trace K} {e : Ensemble K} (hfeatures : Ensemble.HaveFeatures P parts)
    (h : e.IsOver parts P) (hwidth : t.width = P.features + 1)
    (hpartitions : t.partitions = parts.size) : t.Fits e.consensus e.copies := by
  have hsize : e.copies.size = parts.size := Array.size_map.trans h.size_members
  refine ⟨h.size_consensus.trans hwidth.symm, hsize.trans hpartitions.symm, ?_⟩
  intro v hv
  rcases Array.mem_iff_getElem.mp hv with ⟨i, hi, rfl⟩
  rw [e.getElem_copies hi, hwidth]
  exact Ensemble.size_copyAt hfeatures h (hsize ▸ hi)

theorem isRecord_empty (P : Problem K) (settings : Settings K) (parts : Array (Partition K))
    (r : Run K) : IsRecord P settings parts r 0 (Trace.empty P.features parts.size) :=
  ⟨Trace.isAligned_empty _ _, Trace.isFilled_empty _ _, rfl, rfl, rfl,
    fun _ hk => absurd hk (Nat.not_lt_zero _), fun _ hk => absurd hk (Nat.not_lt_zero _),
    fun _ hk => absurd hk (Nat.not_lt_zero _)⟩

theorem IsRecord.push {n : Nat} {t : Trace K} (hsplit : Ensemble.IsSplit P settings parts)
    (hr : r.ensemble.IsOver parts P) (h : IsRecord P settings parts r n t) :
    IsRecord P settings parts r (n + 1) (t.push (r.residualsAfter P settings (n + 1))
      (r.after P settings (n + 1)).ensemble.consensus
      (r.after P settings (n + 1)).ensemble.copies) := by
  have hover := isOver_after hsplit hr (n + 1)
  have hfits := fits_of_isOver hsplit.haveFeatures hover h.width_eq h.partitions_eq
  refine ⟨h.aligned.push _ _ _, h.filled.push hfits _, ?_, h.width_eq, h.partitions_eq, ?_, ?_, ?_⟩
  · rw [Trace.length_push, h.length_eq]
  · intro k hk
    rw [h.aligned.residualsAt?_push, h.length_eq]
    rcases Nat.lt_succ_iff_lt_or_eq.mp hk with hlt | rfl
    · rw [if_neg hlt.ne, h.residuals k hlt]
    · rw [if_pos rfl]
  · intro k hk
    rw [h.filled.consensusAt?_push hfits _ (h.length_eq ▸ Nat.le_of_lt_succ hk), h.length_eq]
    rcases Nat.lt_succ_iff_lt_or_eq.mp hk with hlt | rfl
    · rw [if_neg hlt.ne, h.consensus k hlt]
    · rw [if_pos rfl]
  · intro k hk i hi
    have hcopies : i < (r.after P settings (n + 1)).ensemble.copies.size :=
      (Array.size_map.trans hover.size_members).symm ▸ hi
    rw [h.filled.copyAt?_push hfits _ (h.length_eq ▸ Nat.le_of_lt_succ hk) (h.partitions_eq ▸ hi),
      h.length_eq]
    rcases Nat.lt_succ_iff_lt_or_eq.mp hk with hlt | rfl
    · rw [if_neg hlt.ne, h.copies k hlt i hi]
    · rw [if_pos rfl, Array.getElem?_eq_getElem hcopies, Ensemble.getElem_copies _ hcopies]

theorem isRecord_after (hsplit : Ensemble.IsSplit P settings parts) {e : Ensemble K}
    (he : e.IsOver parts P) (progress : Progress K) (n : Nat) :
    IsRecord P settings parts (start P e progress) n
      ((start P e progress).after P settings n).trace := by
  have hreset : (start P e progress).ensemble.IsOver parts P := Ensemble.isOver_reset he
  induction n with
  | zero =>
      have hempty : ((start P e progress).after P settings 0).trace =
          Trace.empty P.features parts.size := by
        rw [← he.size_members]
        rfl
      rw [hempty]
      exact isRecord_empty P settings parts _
  | succ n ih =>
      have hstep : ((start P e progress).after P settings (n + 1)).trace =
          ((start P e progress).after P settings n).trace.push
            ((start P e progress).residualsAfter P settings (n + 1))
            ((start P e progress).after P settings (n + 1)).ensemble.consensus
            ((start P e progress).after P settings (n + 1)).ensemble.copies := by
        unfold residualsAfter
        rw [after, step_eq hsplit (isOver_after hsplit hreset n)]
        rfl
      rw [hstep]
      exact ih.push hsplit hreset

end Run

/-- The consensus before iteration `k`. Before the first it is zero. -/
def Trace.previousAt? (t : Trace K) : Nat → Option (Array K)
  | 0 => some (zeros t.width)
  | k + 1 => t.consensusAt? k

namespace Run

theorem IsRecord.previous {r : Run K} {n : Nat} {t : Trace K} (h : IsRecord P settings parts r n t)
    (hr : r.ensemble.consensus = zeros (P.features + 1)) {k : Nat} (hk : k < n) :
    t.previousAt? k = some (r.after P settings k).ensemble.consensus := by
  cases k with
  | zero => exact (congrArg some (by rw [h.width_eq, ← hr]; rfl))
  | succ k => exact h.consensus k ((Nat.lt_succ_self k).trans hk)

theorem bounded_after (hP : P.IsProper) (hsqrt : ∀ a : K, 0 ≤ a → sqrt a ^ 2 = a)
    (hsplit : Ensemble.IsSplit P settings parts) {e : Ensemble K} (he : e.IsOver parts P)
    (progress : Progress K) (k : Nat) :
    let r := start P e progress
    let before := (r.after P settings k).ensemble
    let now := (r.after P settings (k + 1)).ensemble
    let residuals := r.residualsAfter P settings (k + 1)
    ∑ i ∈ range parts.size, squaredDistance (now.copyAt i) now.consensus ≤ residuals.rNorm ^ 2 ∧
      settings.rho ^ 2 * (parts.size : K) * squaredDistance now.consensus before.consensus ≤
        residuals.sNorm ^ 2 ∧
      UnitSimplex.defect (now.consensus.extract 1 now.consensus.size) ^ 2 ≤
        (P.features : K) * residuals.rNorm ^ 2 / (parts.size : K) := by
  intro r before now residuals
  have hparts := hsplit.parts_pos hP
  have hreset : r.ensemble.IsOver parts P := Ensemble.isOver_reset he
  have hover := isOver_after hsplit hreset k
  have hbalanced := isBalanced_after hsplit hreset hparts (Ensemble.isBalanced_reset P e) k
  have hnextOver : now.IsOver parts P := isOver_after hsplit hreset (k + 1)
  have hnextBalanced : now.IsBalanced P :=
    isBalanced_after hsplit hreset hparts (Ensemble.isBalanced_reset P e) (k + 1)
  have hstep := hbalanced.step_le hsplit hover hP
  have hdefect := Ensemble.defect_advance_le hsplit hover hP
  rw [← ensemble_after_succ hsplit hreset k] at hstep hdefect
  have hprimal : residuals.rNorm ^ 2 = (now.sums settings.rho).rsq :=
    hsqrt _ (Ensemble.rsq_nonneg hnextOver settings.rho)
  have hdual : residuals.sNorm ^ 2 = (now.sums settings.rho).ssq :=
    hsqrt _ (Ensemble.ssq_nonneg hnextOver settings.rho)
  refine ⟨?_, ?_, ?_⟩
  · rw [hprimal]
    exact hnextBalanced.sum_copies_le hsplit.haveFeatures hnextOver settings.rho
  · rw [hdual, mul_assoc]
    exact hstep
  · rw [hprimal, le_div_iff₀ (Nat.cast_pos.mpr hparts), mul_comm]
    exact hdefect

/-- In every recorded iteration of a run of exact partitions, the primal residual bounds how far the
copies are from the consensus and how far its weights are from the simplex, and the dual residual
bounds its step. -/
theorem residuals_bound_record {data : Matrix K} {bound : K}
    (hP : Problem.new data bound = .ok P) (hsqrt : ∀ a : K, 0 ≤ a → sqrt a ^ 2 = a)
    (hsplit : Ensemble.IsSplit P settings parts) {e : Ensemble K} (he : e.IsOver parts P)
    (progress : Progress K) {k : Nat}
    (hk : k < (complete P settings e progress).2.trace.length) :
    ∃ (r : Residuals K) (consensus previous : Array K) (copy : Nat → Array K),
      (complete P settings e progress).2.trace.residualsAt? k = some r ∧
      (complete P settings e progress).2.trace.consensusAt? k = some consensus ∧
      (complete P settings e progress).2.trace.previousAt? k = some previous ∧
      (∀ i < parts.size,
        (complete P settings e progress).2.trace.copyAt? k i = some (copy i)) ∧
      ∑ i ∈ range parts.size, squaredDistance (copy i) consensus ≤ r.rNorm ^ 2 ∧
      settings.rho ^ 2 * (parts.size : K) * squaredDistance consensus previous ≤ r.sNorm ^ 2 ∧
      UnitSimplex.defect (consensus.extract 1 consensus.size) ^ 2 ≤
        (P.features : K) * r.rNorm ^ 2 / (parts.size : K) := by
  have hproper := Problem.new_eq_ok hP
  have hreset : (start P e progress).ensemble.IsOver parts P := Ensemble.isOver_reset he
  rcases iterate_eq_after hsplit hreset settings.maxIter.toNat 0 with ⟨n, _, hcomplete⟩
  have hrun : complete P settings e progress = (none, (start P e progress).after P settings n) :=
    hcomplete
  rw [hrun] at hk ⊢
  have hrecord := isRecord_after hsplit he progress n
  rw [hrecord.length_eq] at hk
  have hinitial : (start P e progress).ensemble.consensus = zeros (P.features + 1) := by
    show zeros e.consensus.size = _
    rw [he.size_consensus]
  exact ⟨_, _, _, _, hrecord.residuals k hk, hrecord.consensus k hk,
    hrecord.previous hinitial hk, hrecord.copies k hk,
    bounded_after hproper hsqrt hsplit he progress k⟩

theorem length_complete_pos (hsplit : Ensemble.IsSplit P settings parts) {e : Ensemble K}
    (he : e.IsOver parts P) (progress : Progress K) (hmaxIter : 0 < settings.maxIter.toNat) :
    0 < (complete P settings e progress).2.trace.length := by
  have hreset : (start P e progress).ensemble.IsOver parts P := Ensemble.isOver_reset he
  rcases complete_cases P settings e progress hmaxIter with ⟨_, hcomplete⟩ | ⟨hfailed, _⟩
  · exact hcomplete.length_pos
  · rcases iterate_eq_after hsplit hreset settings.maxIter.toNat 0 with ⟨n, _, hrun⟩
    exact absurd (congrArg Prod.fst hrun) hfailed

noncomputable def realPoints : Problem ℝ :=
  ⟨⟨2, 3, #[1, 0, 0, 1, 1, 1]⟩, 1⟩

theorem realPoints_new : Problem.new realPoints.data realPoints.bound = .ok realPoints :=
  Problem.new_of_exact zero_lt_one (le_refl 1) (by decide) (by decide) rfl

theorem exists_isSplit_realPoints : ∃ p q : Partition ℝ,
    Ensemble.IsSplit realPoints Settings.default #[p, q] := by
  have hproper := Problem.new_eq_ok realPoints_new
  have hrho : 0 < (Settings.default : Settings ℝ).rho := zero_lt_one
  rcases Partition.exists_isExact hproper hrho #[2, 0] (by decide) with ⟨p, hpcolumns, hp⟩
  rcases Partition.exists_isExact hproper hrho #[1] (by decide) with ⟨q, hqcolumns, hq⟩
  refine ⟨p, q, Ensemble.isSplit_pair hp hq ?_⟩
  rw [hpcolumns, hqcolumns]
  decide

theorem residuals_bound_record_realPoints : ∃ (parts : Array (Partition ℝ)) (t : Trace ℝ),
    parts.size = 2 ∧
      t = (complete realPoints Settings.default (Ensemble.start parts 2) Progress.initial).2.trace ∧
      ∃ (r : Residuals ℝ) (consensus previous : Array ℝ) (copy : Nat → Array ℝ),
        t.residualsAt? 0 = some r ∧ t.consensusAt? 0 = some consensus ∧
        t.previousAt? 0 = some previous ∧ (∀ i < 2, t.copyAt? 0 i = some (copy i)) ∧
        ∑ i ∈ range 2, squaredDistance (copy i) consensus ≤ r.rNorm ^ 2 ∧
        1 ^ 2 * 2 * squaredDistance consensus previous ≤ r.sNorm ^ 2 ∧
        UnitSimplex.defect (consensus.extract 1 consensus.size) ^ 2 ≤ 2 * r.rNorm ^ 2 / 2 := by
  rcases exists_isSplit_realPoints with ⟨p, q, hsplit⟩
  have hover := Ensemble.isOver_start realPoints #[p, q]
  have hlength : 0 < (complete realPoints Settings.default
      (Ensemble.start #[p, q] realPoints.features) Progress.initial).2.trace.length := by
    have hmaxIter : 0 < (Settings.default : Settings ℝ).maxIter.toNat := by decide
    exact length_complete_pos hsplit hover Progress.initial hmaxIter
  have hbound := residuals_bound_record realPoints_new sqrt_sq_real hsplit hover Progress.initial
    hlength
  exact ⟨#[p, q], _, rfl, rfl, hbound⟩

end Run
end SoftMargin
