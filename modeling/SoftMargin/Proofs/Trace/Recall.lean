import SoftMargin.Proofs.Trace.Storage

/-!
# Recalling iterations

A trace stands for the list of the iterations that have been pushed: what it
returns for an iteration and a partition is what was pushed for them, and nothing
beyond the last one. A push adds one iteration at the end, so that all indices
before it keep their meaning.
-/

namespace SoftMargin
namespace Trace

variable {α : Type}

structure Iteration (α : Type) where
  residuals : Residuals α
  consensus : Array α
  copies : Array (Array α)

structure Iteration.IsSized (it : Iteration α) (features partitions : Nat) : Prop where
  size_consensus : it.consensus.size = features + 1
  size_copies : it.copies.size = partitions
  size_copy : ∀ v ∈ it.copies, v.size = features + 1

def pushAll? (t : Trace α) (pushed : List (Iteration α)) : Option (Trace α) :=
  pushed.foldlM (fun t it => t.push? it.residuals it.consensus it.copies) t

structure Recalls (t : Trace α) (pushed : List (Iteration α)) : Prop where
  rNorm : t.rNorm.toList = pushed.map (·.residuals.rNorm)
  sNorm : t.sNorm.toList = pushed.map (·.residuals.sNorm)
  epsPri : t.epsPri.toList = pushed.map (·.residuals.epsPri)
  epsDual : t.epsDual.toList = pushed.map (·.residuals.epsDual)
  objective : t.objective.toList = pushed.map (·.residuals.objective)
  consensusAt : ∀ k, t.consensusAt? k = pushed[k]?.map (·.consensus)
  copyAt : ∀ k, ∀ i < t.partitions, t.copyAt? k i = pushed[k]?.bind (·.copies[i]?)

variable {t u : Trace α} {it : Iteration α} {pushed more : List (Iteration α)}
  {features partitions : Nat}

theorem Recalls.length_eq (h : t.Recalls pushed) : t.length = pushed.length := by
  unfold length
  rw [← Array.length_toList, h.rNorm, List.length_map]

theorem Recalls.isAligned (h : t.Recalls pushed) : t.IsAligned := by
  have hlength := h.length_eq
  refine ⟨?_, ?_, ?_, ?_⟩
  · rw [← Array.length_toList, h.sNorm, List.length_map, hlength]
  · rw [← Array.length_toList, h.epsPri, List.length_map, hlength]
  · rw [← Array.length_toList, h.epsDual, List.length_map, hlength]
  · rw [← Array.length_toList, h.objective, List.length_map, hlength]

theorem Recalls.residualsAt?_eq (h : t.Recalls pushed) (k : Nat) :
    t.residualsAt? k = pushed[k]?.map (·.residuals) := by
  unfold residualsAt?
  rw [← Array.getElem?_toList, ← Array.getElem?_toList, ← Array.getElem?_toList,
    ← Array.getElem?_toList, ← Array.getElem?_toList, h.rNorm, h.sNorm, h.epsPri, h.epsDual,
    h.objective]
  simp only [List.getElem?_map]
  cases pushed[k]? <;> rfl

/-!
## Beyond the last iteration
-/

theorem IsFilled.consensusAt?_eq_none (h : t.IsFilled) (hwidth : 0 < t.width) {k : Nat}
    (hk : t.length ≤ k) : t.consensusAt? k = none := by
  unfold consensusAt? slice?
  apply if_neg
  rintro ⟨_, hlast⟩
  rw [h.size_consensus] at hlast
  have hle := Nat.le_of_mul_le_mul_right hlast hwidth
  omega

theorem IsFilled.copyAt?_eq_none (h : t.IsFilled) (hwidth : 0 < t.width) {k : Nat}
    (hk : t.length ≤ k) (i : Nat) : t.copyAt? k i = none := by
  unfold copyAt? slice?
  apply if_neg
  rintro ⟨_, hlast⟩
  unfold copyStart at hlast
  rw [h.size_copies, ← Nat.succ_mul] at hlast
  have hle := Nat.le_of_mul_le_mul_right hlast hwidth
  have hbefore := Nat.mul_le_mul_right t.partitions hk
  omega

/-!
## One more iteration
-/

theorem push?_eq_some {consensus : Array α} {copies : Array (Array α)}
    (h : t.Fits consensus copies) (r : Residuals α) :
    t.push? r consensus copies = some (t.push r consensus copies) := by
  unfold push?
  apply if_pos
  refine ⟨h.size_consensus, h.size_copies, ?_⟩
  rw [Array.all_eq_true_iff_forall_mem]
  intro v hv
  exact beq_iff_eq.mpr (h.size_copy v hv)

theorem Iteration.IsSized.fits (h : it.IsSized features partitions)
    (hwidth : t.width = features + 1) (hpartitions : t.partitions = partitions) :
    t.Fits it.consensus it.copies :=
  ⟨h.size_consensus.trans hwidth.symm, h.size_copies.trans hpartitions.symm,
    fun v hv => (h.size_copy v hv).trans hwidth.symm⟩

theorem Recalls.push (h : t.Recalls pushed) (hfilled : t.IsFilled) (hwidth : 0 < t.width)
    (hfits : t.Fits it.consensus it.copies) :
    (t.push it.residuals it.consensus it.copies).Recalls (pushed ++ [it]) := by
  have hlength := h.length_eq
  have hfilled' := hfilled.push hfits it.residuals
  have hlength' : (t.push it.residuals it.consensus it.copies).length = pushed.length + 1 := by
    rw [length_push, hlength]
  have hplace : ∀ k ≤ pushed.length,
      (pushed ++ [it])[k]? = if k = pushed.length then some it else pushed[k]? := by
    intro k hk
    by_cases hlast : k = pushed.length
    · rw [if_pos hlast, hlast, List.getElem?_concat_length]
    · rw [if_neg hlast, List.getElem?_append_left (Nat.lt_of_le_of_ne hk hlast)]
  have hbeyond : ∀ k, ¬ k ≤ pushed.length → (pushed ++ [it])[k]? = none := by
    intro k hk
    apply List.getElem?_eq_none
    rw [List.length_append, List.length_singleton]
    omega
  refine ⟨?_, ?_, ?_, ?_, ?_, ?_, ?_⟩
  · rw [List.map_append, ← h.rNorm]
    exact Array.toList_push
  · rw [List.map_append, ← h.sNorm]
    exact Array.toList_push
  · rw [List.map_append, ← h.epsPri]
    exact Array.toList_push
  · rw [List.map_append, ← h.epsDual]
    exact Array.toList_push
  · rw [List.map_append, ← h.objective]
    exact Array.toList_push
  · intro k
    by_cases hk : k ≤ pushed.length
    · rw [hfilled.consensusAt?_push hfits it.residuals (hlength ▸ hk), hplace k hk, hlength,
        h.consensusAt k]
      split <;> rfl
    · rw [hbeyond k hk, hfilled'.consensusAt?_eq_none hwidth (by omega)]
      rfl
  · intro k i hi
    by_cases hk : k ≤ pushed.length
    · rw [hfilled.copyAt?_push hfits it.residuals (hlength ▸ hk) hi, hplace k hk, hlength,
        h.copyAt k i hi]
      split <;> rfl
    · rw [hbeyond k hk, hfilled'.copyAt?_eq_none hwidth (by omega)]
      rfl

/-!
## All iterations
-/

theorem recalls_empty (features partitions : Nat) :
    (empty features partitions : Trace α).Recalls [] :=
  ⟨rfl, rfl, rfl, rfl, rfl,
    fun _ => (isFilled_empty features partitions).consensusAt?_eq_none
      (Nat.succ_pos features) (Nat.zero_le _),
    fun _ i _ => (isFilled_empty features partitions).copyAt?_eq_none
      (Nat.succ_pos features) (Nat.zero_le _) i⟩

/-- The trace is one for so many features and partitions, and recalls what has been pushed. -/
structure IsTraceOf (t : Trace α) (features partitions : Nat) (pushed : List (Iteration α)) :
    Prop where
  width_eq : t.width = features + 1
  partitions_eq : t.partitions = partitions
  filled : t.IsFilled
  recalls : t.Recalls pushed

theorem isTraceOf_empty (features partitions : Nat) :
    (empty features partitions : Trace α).IsTraceOf features partitions [] :=
  ⟨rfl, rfl, isFilled_empty features partitions, recalls_empty features partitions⟩

theorem IsTraceOf.push (h : t.IsTraceOf features partitions pushed)
    (hit : it.IsSized features partitions) :
    (t.push it.residuals it.consensus it.copies).IsTraceOf features partitions
      (pushed ++ [it]) := by
  have hfits := hit.fits h.width_eq h.partitions_eq
  have hwidth : 0 < t.width := by
    rw [h.width_eq]
    exact Nat.succ_pos features
  exact ⟨h.width_eq, h.partitions_eq, h.filled.push hfits it.residuals,
    h.recalls.push h.filled hwidth hfits⟩

theorem IsTraceOf.pushAll? (h : t.IsTraceOf features partitions pushed)
    (hmore : ∀ it ∈ more, it.IsSized features partitions) :
    ∃ u, t.pushAll? more = some u ∧ u.IsTraceOf features partitions (pushed ++ more) := by
  induction more generalizing t pushed with
  | nil =>
      rw [List.append_nil]
      exact ⟨t, rfl, h⟩
  | cons it rest ih =>
      -- the rest is pushed onto a trace that recalls one iteration more
      have hit := hmore it List.mem_cons_self
      have hfits := hit.fits h.width_eq h.partitions_eq
      rcases ih (h.push hit) fun other hother => hmore other (List.mem_cons_of_mem it hother) with
        ⟨u, hu, htrace⟩
      refine ⟨u, ?_, ?_⟩
      · unfold Trace.pushAll?
        rw [List.foldlM_cons, push?_eq_some hfits]
        exact hu
      · rwa [List.append_assoc] at htrace

/-- Vectors of the right lengths are never refused. The trace recalls all iterations and no others:
the residuals, the consensus vectors and the copies of every partition are those that were pushed,
and what it returns for an iteration stays the same whatever is pushed afterwards. -/
theorem pushAll?_recalls (hpushed : ∀ it ∈ pushed, it.IsSized features partitions) :
    ∃ t, (empty features partitions).pushAll? pushed = some t ∧ t.length = pushed.length ∧
      t.IsAligned ∧ t.IsTraceOf features partitions pushed ∧
      ∀ more : List (Iteration α), (∀ it ∈ more, it.IsSized features partitions) →
        ∃ u, t.pushAll? more = some u ∧ u.IsTraceOf features partitions (pushed ++ more) ∧
          ∀ k < t.length,
            u.residualsAt? k = t.residualsAt? k ∧ u.consensusAt? k = t.consensusAt? k ∧
            ∀ i < partitions, u.copyAt? k i = t.copyAt? k i := by
  rcases (isTraceOf_empty features partitions).pushAll? hpushed with ⟨t, ht, htrace⟩
  rw [List.nil_append] at htrace
  have hlength := htrace.recalls.length_eq
  refine ⟨t, ht, hlength, htrace.recalls.isAligned, htrace, ?_⟩
  intro more hmore
  rcases htrace.pushAll? hmore with ⟨u, hu, hutrace⟩
  refine ⟨u, hu, hutrace, ?_⟩
  intro k hk
  have hsame : (pushed ++ more)[k]? = pushed[k]? :=
    List.getElem?_append_left (hlength ▸ hk)
  refine ⟨?_, ?_, ?_⟩
  · rw [hutrace.recalls.residualsAt?_eq, htrace.recalls.residualsAt?_eq, hsame]
  · rw [hutrace.recalls.consensusAt, htrace.recalls.consensusAt, hsame]
  · intro i hi
    rw [hutrace.recalls.copyAt k i (hutrace.partitions_eq ▸ hi),
      htrace.recalls.copyAt k i (htrace.partitions_eq ▸ hi), hsame]

/-- One feature and three partitions, so that a vector is shorter than there are copies of it. -/
def twoIterations : List (Iteration ℚ) :=
  [⟨⟨-1, 4, 3, 1, 1⟩, #[2, 1], #[#[0, 1], #[2, 1], #[4, 1]]⟩,
    ⟨⟨-2, 2, 1, 1, 1⟩, #[3, 1], #[#[1, 0], #[3, 1], #[5, 2]]⟩]

theorem pushAll?_recalls_twoIterations :
    ∃ t u, (empty 1 3).pushAll? twoIterations = some t ∧ t.length = 2 ∧
      t.copyAt? 1 2 = some #[5, 2] ∧
      t.pushAll? [⟨⟨0, 9, 9, 9, 9⟩, #[9, 9], #[#[9, 9], #[9, 9], #[9, 9]]⟩] = some u ∧
      u.copyAt? 1 2 = some #[5, 2] ∧ u.copyAt? 2 0 = some #[9, 9] := by
  have hsized : ∀ it ∈ twoIterations, it.IsSized 1 3 := by
    intro it hit
    simp only [twoIterations, List.mem_cons, List.not_mem_nil, or_false] at hit
    rcases hit with rfl | rfl
    · exact ⟨rfl, rfl, by decide⟩
    · exact ⟨rfl, rfl, by decide⟩
  rcases pushAll?_recalls hsized with ⟨t, ht, hlength, _, htrace, hmore⟩
  rcases hmore [⟨⟨0, 9, 9, 9, 9⟩, #[9, 9], #[#[9, 9], #[9, 9], #[9, 9]]⟩] (by
    intro it hit
    rw [List.mem_singleton.mp hit]
    exact ⟨rfl, rfl, by decide⟩) with ⟨u, hu, hutrace, hsame⟩
  have hcopy : t.copyAt? 1 2 = some #[5, 2] := by
    rw [htrace.recalls.copyAt 1 2 (by rw [htrace.partitions_eq]; decide)]
    rfl
  refine ⟨t, u, ht, hlength, hcopy, hu, ?_, ?_⟩
  · rw [(hsame 1 (by rw [hlength]; decide)).2.2 2 (by decide), hcopy]
  · rw [hutrace.recalls.copyAt 2 0 (by rw [hutrace.partitions_eq]; decide)]
    rfl

end Trace
end SoftMargin
