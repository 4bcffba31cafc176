import SoftMargin.Proofs.Exact.Real
import SoftMargin.Proofs.LineSearch.Refine
import SoftMargin.Proofs.Sorting.Keys

/-!
# Where a line search starts

Both ends of the segment are means of recorded vectors: over all iterations
around an extremum, or over the iterations of one half of the latest ones, split
by their dual residuals. What is reported besides the ends follows from how far
apart they are and from the objective that is found between them.
-/

namespace SoftMargin

open Scalar Finset

variable {K : Type} [ExactScalar K]

theorem Oscillation.lt_of_latestPair {s : Array K} {i j : Nat}
    (h : latestPair s = some (i, j)) : i < s.size ∧ j < s.size := by
  have hs : allFinite s = true :=
    Array.all_eq_true_iff_forall_mem.mpr fun a _ => isFinite_exact a
  have hinside : ∀ p ∈ (turningPoints s).reverse, p.2 < s.size := fun p hp =>
    Nat.lt_of_succ_lt (lt_of_mem_turningPoints (List.mem_reverse.mp hp)).right
  rw [latestPair_eq_turningPoints hs] at h
  cases hpoints : (turningPoints s).reverse with
  | nil =>
      rw [hpoints] at h
      cases h
  | cons p rest =>
      rw [hpoints] at h hinside
      obtain ⟨q, hq, hpair⟩ := Option.map_eq_some_iff.mp h
      cases hpair
      exact ⟨hinside p List.mem_cons_self,
        hinside q (List.mem_cons_of_mem p (List.mem_of_find?_eq_some hq))⟩

namespace LineSearch

variable {t : Trace K}

/-!
## Means
-/

structure IsMeanOver (t : Trace K) (iterations : Finset Nat) (v : Array K) : Prop where
  nonempty : iterations.Nonempty
  recorded : ∀ k ∈ iterations, k < t.length
  size_eq : v.size = t.width
  entry_eq : ∀ c < t.width,
    v.getD c 0 = (∑ k ∈ iterations, (t.consensusAt k).getD c 0) / (iterations.card : K)

theorem getD_total (hfilled : t.IsFilled) (c : Nat) {iterations : List Nat}
    (h : ∀ k ∈ iterations, k < t.length) {acc : Array K} (hacc : acc.size = t.width) :
    (iterations.foldl (fun acc k => combine 1 (t.consensusAt k) 1 acc) acc).getD c 0 =
      acc.getD c 0 + (iterations.map fun k => (t.consensusAt k).getD c 0).sum := by
  induction iterations generalizing acc with
  | nil => simp
  | cons k rest ih =>
      have hsize := Trace.size_consensusAt hfilled.size_consensus (h k List.mem_cons_self)
      have hnext : (combine 1 (t.consensusAt k) 1 acc).size = t.width := by
        rw [size_combine, hsize, hacc, min_self]
      rw [List.foldl_cons, ih (fun m hm => h m (List.mem_cons_of_mem k hm)) hnext,
        getD_combine 1 1 (hsize.trans hacc.symm), List.map_cons, List.sum_cons]
      ring

theorem isMeanOver_mean (hfilled : t.IsFilled) {iterations : List Nat} (hne : iterations ≠ [])
    (hnodup : iterations.Nodup) (h : ∀ k ∈ iterations, k < t.length) :
    IsMeanOver t iterations.toFinset (mean t iterations) := by
  constructor
  · exact (List.toFinset_nonempty_iff iterations).mpr hne
  · intro k hk
    exact h k (List.mem_toFinset.mp hk)
  · exact size_mean hfilled.size_consensus h
  · intro c hc
    have htotal := getD_total hfilled c h (size_zeros t.width)
    have hsize := size_mean hfilled.size_consensus h
    rw [mean_eq] at hsize ⊢
    dsimp only at hsize ⊢
    rw [if_neg (by simpa using hne)] at hsize ⊢
    unfold scale at hsize ⊢
    rw [Array.size_map] at hsize
    rw [getD_map _ _ 0 _ (hc.trans_eq hsize.symm), htotal, getD_zeros, zero_add, recip, mul_one_div,
      List.sum_toFinset _ hnodup, List.toFinset_card_of_nodup hnodup]

/-!
## Around an extremum
-/

def around (length i : Nat) : Finset Nat :=
  (range length).filter fun k => i ≤ k + 5 ∧ k ≤ i + 5

theorem mem_near {i length k : Nat} : k ∈ near i length ↔ k ∈ around length i := by
  unfold near around reach
  rw [List.mem_range'_1, mem_filter, mem_range]
  omega

theorem isMeanOver_around (hfilled : t.IsFilled) {i : Nat} (hi : i < t.length) :
    IsMeanOver t (around t.length i) (mean t (near i t.length)) := by
  have hnear : (near i t.length).toFinset = around t.length i := by
    ext k
    rw [List.mem_toFinset, mem_near]
  have hmem : i ∈ near i t.length := by
    rw [mem_near]
    simp [around, hi]
  rw [← hnear]
  exact isMeanOver_mean hfilled (List.ne_nil_of_mem hmem) List.nodup_range'
    fun k => lt_of_mem_near

/-!
## The latest iterations
-/

/-- The latest `window` iterations in two groups. None of the better ones has a larger residual
than one of the others. -/
structure IsRankSplit (s : Array K) (length window : Nat) (better worse : Finset Nat) : Prop where
  union_eq : better ∪ worse = Ico (length - window) length
  disjoint : Disjoint better worse
  card_better : better.card = max (window / 2) 1
  le_of_mem : ∀ i ∈ better, ∀ j ∈ worse, s.getD i 0 ≤ s.getD j 0

theorem shallowWindow_eq (length : Nat) :
    shallowWindow length = min length (max 5 (min (length / 5) 50)) := by
  unfold shallowWindow shortestWindow longestWindow
  omega

theorem ranked_perm (t : Trace K) : (ranked t).Perm
    (List.range' (t.length - shallowWindow t.length) (shallowWindow t.length)) := by
  rw [ranked_eq]
  exact Sorting.stableSort_perm _ _

theorem length_ranked (t : Trace K) : (ranked t).length = shallowWindow t.length :=
  (ranked_perm t).length_eq.trans List.length_range'

theorem nodup_ranked (t : Trace K) : (ranked t).Nodup :=
  (ranked_perm t).nodup_iff.mpr List.nodup_range'

theorem pairwise_ranked (t : Trace K) :
    (ranked t).Pairwise fun i j => t.sNorm.getD i 0 ≤ t.sNorm.getD j 0 := by
  rw [ranked_eq]
  exact Sorting.stableSort_rises (fun i => t.sNorm.getD i 0) _

section Halves

variable {half : Nat} (hhalf : half = max (shallowWindow t.length / 2) 1)
  (hle : half ≤ shallowWindow t.length)

include hhalf hle

theorem isRankSplit_take : IsRankSplit t.sNorm t.length (shallowWindow t.length)
    ((ranked t).take half).toFinset ((ranked t).drop half).toFinset := by
  have hnodup := nodup_ranked t
  have hpairwise := pairwise_ranked t
  rw [← List.take_append_drop half (ranked t)] at hnodup hpairwise
  have hwindow : shallowWindow t.length ≤ t.length := min_le_right _ _
  constructor
  · rw [← List.toFinset_append, List.take_append_drop, List.toFinset_eq_of_perm _ _ (ranked_perm t)]
    ext k
    rw [List.mem_toFinset, List.mem_range'_1, mem_Ico, Nat.sub_add_cancel hwindow]
  · exact List.disjoint_toFinset_iff_disjoint.mpr (List.disjoint_of_nodup_append hnodup)
  · rw [List.toFinset_card_of_nodup hnodup.of_append_left, List.length_take, length_ranked,
      min_eq_left hle, hhalf]
  · intro i hi j hj
    exact (List.pairwise_append.mp hpairwise).2.2 i (List.mem_toFinset.mp hi) j
      (List.mem_toFinset.mp hj)

end Halves

theorem shallowEnds_spec (hfilled : t.IsFilled) (hpos : 0 < t.length) : ∃ better worse,
    IsRankSplit t.sNorm t.length (shallowWindow t.length) better worse ∧
      IsMeanOver t better (shallowEnds t).1 ∧
      (worse.Nonempty → IsMeanOver t worse (shallowEnds t).2) ∧
      (worse = ∅ → (shallowEnds t).2 = (shallowEnds t).1) := by
  have hwindow : 0 < shallowWindow t.length := by
    rw [shallowWindow_eq]
    omega
  obtain ⟨half, hhalf⟩ : ∃ half, half = max (shallowWindow t.length / 2) 1 := ⟨_, rfl⟩
  have hle : half ≤ shallowWindow t.length := by omega
  have hmean : ∀ {iterations : List Nat}, iterations ≠ [] → iterations.Sublist (ranked t) →
      IsMeanOver t iterations.toFinset (mean t iterations) := fun hne hsublist =>
    isMeanOver_mean hfilled hne ((nodup_ranked t).sublist hsublist)
      fun k hk => lt_of_mem_ranked (hsublist.subset hk)
  have hbetter : (ranked t).take half ≠ [] := by
    rw [← List.length_pos_iff, List.length_take, length_ranked]
    omega
  rw [shallowEnds_eq (by rw [length_ranked, ← hhalf, min_eq_left hle])]
  refine ⟨_, _, isRankSplit_take hhalf hle, hmean hbetter (List.take_sublist _ _), ?_, ?_⟩
  · intro hworse
    have hne := (List.toFinset_nonempty_iff _).mp hworse
    rw [if_neg hne]
    exact hmean hne (List.drop_sublist _ _)
  · intro hworse
    exact if_pos ((List.toFinset_eq_empty_iff _).mp hworse)

/-!
## The report
-/

structure PicksEnds (deepMinIter : Nat) (t : Trace K) (strategy : LineSearchStrategy)
    (first last : Array K) : Prop where
  deep_iff : strategy = .deep ↔
    deepMinIter < t.length ∧ (Oscillation.latestPair t.sNorm).isSome = true
  deep : strategy = .deep → ∀ i j, Oscillation.latestPair t.sNorm = some (i, j) →
    IsMeanOver t (around t.length i) first ∧ IsMeanOver t (around t.length j) last
  shallow : strategy = .shallow → ∃ better worse,
    IsRankSplit t.sNorm t.length (min t.length (max 5 (min (t.length / 5) 50))) better worse ∧
      IsMeanOver t better first ∧ (worse.Nonempty → IsMeanOver t worse last) ∧
      (worse = ∅ → last = first)

theorem ends_of_latestPair {deepMinIter i j : Nat} (hlong : deepMinIter < t.length)
    (hpair : Oscillation.latestPair t.sNorm = some (i, j)) :
    ends deepMinIter t =
      (.deep, mean t (near i t.length), mean t (near j t.length)) := by
  rw [ends_eq, if_pos hlong, deepEnds_eq, hpair]
  rfl

theorem ends_of_not {deepMinIter : Nat}
    (h : ¬(deepMinIter < t.length ∧ (Oscillation.latestPair t.sNorm).isSome = true)) :
    ends deepMinIter t = (.shallow, shallowEnds t) := by
  rw [ends_eq, deepEnds_eq]
  by_cases hlong : deepMinIter < t.length
  · rw [if_pos hlong]
    cases hpair : Oscillation.latestPair t.sNorm with
    | none => rfl
    | some pair => exact absurd ⟨hlong, by rw [hpair]; rfl⟩ h
  · rw [if_neg hlong]

theorem picksEnds_ends (deepMinIter : Nat) (haligned : t.IsAligned) (hfilled : t.IsFilled)
    (hpos : 0 < t.length) : PicksEnds deepMinIter t (ends deepMinIter t).1
      (ends deepMinIter t).2.1 (ends deepMinIter t).2.2 := by
  by_cases h : deepMinIter < t.length ∧ (Oscillation.latestPair t.sNorm).isSome = true
  · obtain ⟨⟨i, j⟩, hpair⟩ := Option.isSome_iff_exists.mp h.right
    have hlt := Oscillation.lt_of_latestPair hpair
    rw [haligned.sNorm] at hlt
    rw [ends_of_latestPair h.left hpair]
    constructor
    · exact ⟨fun _ => h, fun _ => rfl⟩
    · intro _ i' j' hpair'
      cases hpair.symm.trans hpair'
      exact ⟨isMeanOver_around hfilled hlt.left, isMeanOver_around hfilled hlt.right⟩
    · intro hshallow
      cases hshallow
  · rw [ends_of_not h]
    constructor
    · constructor
      · intro hdeep
        cases hdeep
      · intro hand
        exact absurd hand h
    · intro hdeep
      cases hdeep
    · intro _
      rw [← shallowWindow_eq]
      exact shallowEnds_spec hfilled hpos

theorem IsMeanOver.nonneg {iterations : Finset Nat} {v : Array K}
    (h : IsMeanOver t iterations v) {c : Nat}
    (hrecorded : ∀ k < t.length, 0 ≤ (t.consensusAt k).getD c 0) : 0 ≤ v.getD c 0 := by
  by_cases hc : c < t.width
  · rw [h.entry_eq c hc]
    exact div_nonneg (sum_nonneg fun k hk => hrecorded k (h.recorded k hk)) (Nat.cast_nonneg _)
  · exact (getD_of_size_le v 0 (h.size_eq.trans_le (not_lt.mp hc))).ge

theorem PicksEnds.long_and_shallow_iff {deepMinIter : Nat} {strategy : LineSearchStrategy}
    {first last : Array K} (h : PicksEnds deepMinIter t strategy first last) :
    deepMinIter < t.length ∧ strategy = .shallow ↔
      deepMinIter < t.length ∧ Oscillation.latestPair t.sNorm = none := by
  refine and_congr_right fun hlong => ?_
  cases hpair : Oscillation.latestPair t.sNorm with
  | none =>
      have hnot : strategy ≠ .deep := fun hdeep => by
        have hsome := (h.deep_iff.mp hdeep).right
        rw [hpair] at hsome
        cases hsome
      cases strategy with
      | deep => exact absurd rfl hnot
      | shallow => exact ⟨fun _ => rfl, fun _ => rfl⟩
  | some pair =>
      rw [h.deep_iff.mpr ⟨hlong, by rw [hpair]; rfl⟩]
      constructor
      · intro hshallow
        cases hshallow
      · intro hnone
        cases hnone

theorem PicksEnds.nonneg {deepMinIter : Nat} {strategy : LineSearchStrategy}
    {first last : Array K} (h : PicksEnds deepMinIter t strategy first last) {c : Nat}
    (hrecorded : ∀ k < t.length, 0 ≤ (t.consensusAt k).getD c 0) :
    0 ≤ first.getD c 0 ∧ 0 ≤ last.getD c 0 := by
  cases strategy with
  | deep =>
      obtain ⟨⟨i, j⟩, hpair⟩ := Option.isSome_iff_exists.mp (h.deep_iff.mp rfl).right
      have hmeans := h.deep rfl i j hpair
      exact ⟨hmeans.left.nonneg hrecorded, hmeans.right.nonneg hrecorded⟩
  | shallow =>
      obtain ⟨better, worse, -, hfirst, hlast, hnone⟩ := h.shallow rfl
      refine ⟨hfirst.nonneg hrecorded, ?_⟩
      cases worse.eq_empty_or_nonempty with
      | inl hempty =>
          rw [hnone hempty]
          exact hfirst.nonneg hrecorded
      | inr hworse => exact (hlast hworse).nonneg hrecorded

/-- What a report says of the point between the ends, which are far apart or not. -/
structure ReportsPoint (far : Prop) (value : K) (r : LineSearchReport K) : Prop where
  refined_iff : r.refined.isSome = true ↔ far
  objective_iff : r.objective.isSome = true ↔ far
  adopted_iff : r.adopted = true ↔ ∃ objective, r.objective = some objective ∧ objective < value
  improvement_of_lt : ∀ objective, r.objective = some objective → objective < value →
    r.improvement = value - objective ∧ 0 < r.improvement
  improvement_of_not : r.adopted = false → r.improvement = 0

theorem reportsPoint_run (P : Problem K) (deepMinIter halvings : Nat) (t : Trace K) (value : K) :
    ReportsPoint (shortestSegment < distance (ends deepMinIter t).2.1 (ends deepMinIter t).2.2)
      value (run P deepMinIter halvings t value) := by
  unfold run
  dsimp only
  by_cases hfar : shortestSegment < distance (ends deepMinIter t).2.1 (ends deepMinIter t).2.2
  · rw [if_pos hfar]
    generalize refine P halvings (ends deepMinIter t).2.1 (ends deepMinIter t).2.2 = found
    constructor
    · exact ⟨fun _ => hfar, fun _ => rfl⟩
    · exact ⟨fun _ => hfar, fun _ => rfl⟩
    · simp
    · intro objective hobjective hlt
      cases hobjective
      exact ⟨if_pos hlt, (sub_pos.mpr hlt).trans_eq (if_pos hlt).symm⟩
    · intro hadopted
      exact if_neg (of_decide_eq_false hadopted)
  · rw [if_neg hfar]
    constructor
    · simp [hfar]
    · simp [hfar]
    · simp
    · intro objective hobjective
      cases hobjective
    · intro _
      rfl

theorem ends_of_run (P : Problem K) (deepMinIter halvings : Nat) (t : Trace K) (value : K) :
    ends deepMinIter t = ((run P deepMinIter halvings t value).strategy,
      (run P deepMinIter halvings t value).first, (run P deepMinIter halvings t value).last) ∧
    (run P deepMinIter halvings t value).deepFailed =
      (decide (deepMinIter < t.length) && (ends deepMinIter t).1 == .shallow) := by
  unfold run
  dsimp only
  split
  · exact ⟨rfl, rfl⟩
  · exact ⟨rfl, rfl⟩

theorem shortestSegment_real : (shortestSegment : ℝ) = 1 / 10 ^ 4 := by
  unfold shortestSegment
  norm_num

/-- A search over a trace that is not empty reads recorded iterations only. Its ends are means of
them, and what it reports follows from the ends and from the objective that it finds. -/
theorem run_reports (P : Problem ℝ) (deepMinIter halvings : Nat) {t : Trace ℝ} (value : ℝ)
    (haligned : t.IsAligned) (hfilled : t.IsFilled) (hpos : 0 < t.length) :
    let r := run P deepMinIter halvings t value
    readEnds deepMinIter t = some (r.strategy, r.first, r.last) ∧
      PicksEnds deepMinIter t r.strategy r.first r.last ∧
      (r.deepFailed = true ↔
        deepMinIter < t.length ∧ Oscillation.latestPair t.sNorm = none) ∧
      ReportsPoint
        (1 / 10 ^ 4 < √(∑ c ∈ range t.width, (r.first.getD c 0 - r.last.getD c 0) ^ 2)) value r ∧
      ((∀ k < t.length, ∀ c, 1 ≤ c → 0 ≤ (t.consensusAt k).getD c 0) →
        ∀ c, 1 ≤ c → 0 ≤ r.first.getD c 0 ∧ 0 ≤ r.last.getD c 0) := by
  intro r
  obtain ⟨hends, hfailed⟩ := ends_of_run P deepMinIter halvings t value
  have hpicks := picksEnds_ends deepMinIter haligned hfilled hpos
  have hsizes := size_ends deepMinIter hfilled.size_consensus
  have hpoint := reportsPoint_run P deepMinIter halvings t value
  have hread := readEnds_eq deepMinIter haligned hfilled
  rw [hends] at hpicks hsizes hpoint hread hfailed
  refine ⟨hread, hpicks, ?_, ?_, ?_⟩
  · rw [hfailed, Bool.and_eq_true, decide_eq_true_eq, beq_iff_eq]
    exact hpicks.long_and_shallow_iff
  · have hdistance : distance r.first r.last =
        √(∑ c ∈ range t.width, (r.first.getD c 0 - r.last.getD c 0) ^ 2) := by
      unfold distance
      rw [squaredDistance_eq_sum _ _ hsizes.left hsizes.right]
      rfl
    rw [← hdistance, ← shortestSegment_real]
    exact hpoint
  · intro hnonneg c hc
    exact hpicks.nonneg fun k hk => hnonneg k hk c hc

/-- Six iterations with one feature, whose dual residual goes up and down at the end. -/
noncomputable def sixIterations : Trace ℝ where
  rNorm := zeros 6
  sNorm := #[0, 0, 0, 1, 0, 1]
  epsPri := zeros 6
  epsDual := zeros 6
  objective := zeros 6
  consensus := #[0, 1, 1, 1, 0, 1, 1, 1, 0, 1, 1, 1]
  copies := zeros 12
  width := 2
  partitions := 1

theorem latestPair_sixIterations :
    Oscillation.latestPair sixIterations.sNorm = some (4, 3) := by
  have hkinds : Oscillation.Extremum.peak ≠ Oscillation.Extremum.trough := by decide
  norm_num [sixIterations, Oscillation.latestPair, Oscillation.latestPairBy,
    Oscillation.windowLength, Oscillation.longestWindow, Oscillation.extremaBy,
    Oscillation.oppositePair, same, List.range', hkinds]

noncomputable def sixIterationsReport : LineSearchReport ℝ :=
  run ⟨⟨1, 1, #[1]⟩, 1⟩ 0 20 sixIterations 1

theorem run_reports_sixIterations : sixIterationsReport.strategy = .deep ∧
    sixIterationsReport.deepFailed = false ∧
    IsMeanOver sixIterations (around 6 4) sixIterationsReport.first ∧
    IsMeanOver sixIterations (around 6 3) sixIterationsReport.last := by
  have haligned : sixIterations.IsAligned := by
    constructor
    all_goals rfl
  have hfilled : sixIterations.IsFilled := by
    constructor
    all_goals rfl
  have hreport := run_reports ⟨⟨1, 1, #[1]⟩, 1⟩ 0 20 1 haligned hfilled (by decide)
  obtain ⟨-, hpicks, hfailed, -⟩ := hreport
  have hdeep : sixIterationsReport.strategy = .deep :=
    hpicks.deep_iff.mpr ⟨by decide, by rw [latestPair_sixIterations]; rfl⟩
  refine ⟨hdeep, ?_, hpicks.deep hdeep 4 3 latestPair_sixIterations⟩
  rw [Bool.eq_false_iff]
  intro hdeepFailed
  have hnone := (hfailed.mp hdeepFailed).right
  rw [latestPair_sixIterations] at hnone
  cases hnone

end LineSearch
end SoftMargin
