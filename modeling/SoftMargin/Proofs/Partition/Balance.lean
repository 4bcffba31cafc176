import SoftMargin.Proofs.Partition.Local
import SoftMargin.Partition.Consensus

/-!
# Balanced ensembles

After an iteration the multipliers and the projections fit together. In the
local part they are complementary, and the shared parts of all partitions are
the consensus, with multipliers that add up to nothing for the threshold and are
complementary to the weights. Two ensembles of this kind are monotone: their
projections and their multipliers do not differ in opposite directions.
-/

namespace SoftMargin

open Scalar Finset

variable {K : Type} [ExactScalar K]

/-!
## Members
-/

def Member.empty : Member K :=
  ⟨⟨#[], 0, #[], fun b => (true, b)⟩, ⟨#[], #[], #[], #[]⟩⟩

namespace Ensemble

def member (e : Ensemble K) (i : Nat) : Member K :=
  e.members.getD i Member.empty

/-- The partitions have every point of the program once, and answer their systems exactly. -/
structure IsSplit (P : Problem K) (settings : Settings K) (parts : Array (Partition K)) :
    Prop where
  exact : ∀ p ∈ parts, p.IsExact P settings
  columns : (parts.toList.flatMap fun p => p.columns.toList).Perm (List.range P.points)

def HaveFeatures (P : Problem K) (parts : Array (Partition K)) : Prop :=
  ∀ p ∈ parts, p.features = P.features

structure IsOver (parts : Array (Partition K)) (P : Problem K) (e : Ensemble K) : Prop where
  partitions : e.members.map (·.partition) = parts
  sized : ∀ m ∈ e.members, m.partition.IsSized m.state
  size_consensus : e.consensus.size = P.features + 1

variable {P : Problem K} {settings : Settings K} {parts : Array (Partition K)} {e f : Ensemble K}

theorem IsSplit.haveFeatures (hsplit : IsSplit P settings parts) : HaveFeatures P parts :=
  fun p hp => (hsplit.exact p hp).features_eq

theorem IsSplit.isPart (hsplit : IsSplit P settings parts) : ∀ p ∈ parts, p.IsPart P :=
  fun p hp => (hsplit.exact p hp).isPart

namespace IsOver

omit [ExactScalar K] in
theorem size_members (h : e.IsOver parts P) : e.members.size = parts.size := by
  rw [← h.partitions, Array.size_map]

omit [ExactScalar K] in
theorem lt_size (h : e.IsOver parts P) {i : Nat} (hi : i < parts.size) : i < e.members.size := by
  rw [h.size_members]
  exact hi

omit [ExactScalar K] in
theorem lt_parts (h : e.IsOver parts P) {i : Nat} (hi : i < e.members.size) : i < parts.size := by
  rw [← h.size_members]
  exact hi

omit [ExactScalar K] in
theorem mem (h : e.IsOver parts P) {i : Nat} (hi : i < parts.size) :
    e.member i ∈ e.members := by
  unfold member
  rw [getD_of_lt _ _ (h.lt_size hi)]
  exact Array.getElem_mem _

omit [ExactScalar K] in
theorem partition_eq (h : e.IsOver parts P) {i : Nat} (hi : i < parts.size) :
    (e.member i).partition = parts[i] := by
  have hsize := h.size_members
  unfold member
  rw [getD_of_lt _ _ (by omega)]
  simp only [← h.partitions, Array.getElem_map]

omit [ExactScalar K] in
theorem isSized (h : e.IsOver parts P) {i : Nat} (hi : i < parts.size) :
    (e.member i).partition.IsSized (e.member i).state :=
  h.sized _ (h.mem hi)

omit [ExactScalar K] in
theorem features_eq (h : e.IsOver parts P) (hfeatures : HaveFeatures P parts) {i : Nat}
    (hi : i < parts.size) : (e.member i).partition.features = P.features := by
  rw [h.partition_eq hi]
  exact hfeatures _ (Array.getElem_mem hi)

theorem isPart (h : e.IsOver parts P) (hparts : ∀ p ∈ parts, p.IsPart P) {i : Nat}
    (hi : i < parts.size) : (e.member i).partition.IsPart P := by
  rw [h.partition_eq hi]
  exact hparts _ (Array.getElem_mem hi)

theorem isExact (h : e.IsOver parts P) (hsplit : IsSplit P settings parts) {i : Nat}
    (hi : i < parts.size) : (e.member i).partition.IsExact P settings := by
  rw [h.partition_eq hi]
  exact hsplit.exact _ (Array.getElem_mem hi)

omit [ExactScalar K] in
theorem partition_eq_partition (h : e.IsOver parts P) (h' : f.IsOver parts P) {i : Nat}
    (hi : i < parts.size) : (f.member i).partition = (e.member i).partition := by
  rw [h.partition_eq hi, h'.partition_eq hi]

end IsOver

theorem isOver_start (P : Problem K) (parts : Array (Partition K)) :
    (start parts P.features).IsOver parts P := by
  refine ⟨?_, ?_, size_zeros _⟩
  · unfold start
    rw [Array.map_map]
    exact Array.map_id' parts
  · intro m hm
    rcases Array.mem_map.mp hm with ⟨p, _, rfl⟩
    have hzero : (zeros p.variableCount : Array K).size = p.variableCount := size_zeros _
    exact ⟨hzero, hzero, hzero, hzero⟩

theorem isOver_reset (h : e.IsOver parts P) : e.reset.IsOver parts P := by
  refine ⟨?_, ?_, ?_⟩
  · rw [← h.partitions]
    unfold reset
    rw [Array.map_map]
    rfl
  · intro m hm
    rcases Array.mem_map.mp hm with ⟨m', _, rfl⟩
    have hzero : (zeros m'.partition.variableCount : Array K).size =
        m'.partition.variableCount := size_zeros _
    exact ⟨hzero, hzero, hzero, hzero⟩
  · exact (size_zeros _).trans h.size_consensus

end Ensemble

/-!
## Projections
-/

namespace Partition

variable {p : Partition K} {s : LocalState K} {c : Array K}

omit [ExactScalar K] in
theorem variableCount_eq_add (p : Partition K) :
    p.variableCount = p.sharedOffset + (p.features + 1) :=
  rfl

theorem updateZU_isSized (hs : p.IsSized s) (hc : c.size = p.features + 1) :
    p.IsSized (p.updateZU c s) := by
  have hx := hs.x
  have hu := hs.u
  have hcount := p.variableCount_eq_add
  have hz : (p.updateZU c s).z.size = p.variableCount := by
    unfold updateZU
    dsimp only
    rw [Array.size_append, size_positivePart, size_combine, Array.size_extract, Array.size_extract,
      hx, hu, hc]
    omega
  refine ⟨hx, hz, ?_, hs.z⟩
  change (combine (-1) (p.updateZU c s).z 1 (combine 1 s.x 1 s.u)).size = p.variableCount
  rw [size_combine, size_combine, hz, hx, hu, min_self, min_self]

theorem getD_updateZU_local (hs : p.IsSized s) {v : Nat} (hv : v < p.sharedOffset) :
    (p.updateZU c s).z.getD v 0 = max (s.x.getD v 0 + s.u.getD v 0) 0 := by
  have hx := hs.x
  have hu := hs.u
  have hcount := p.variableCount_eq_add
  have hextract : (s.x.extract 0 p.sharedOffset).size = (s.u.extract 0 p.sharedOffset).size := by
    rw [Array.size_extract, Array.size_extract, hx, hu]
  unfold updateZU
  dsimp only
  rw [getD_append_left _ _ _ (by
      rw [size_positivePart, size_combine, ← hextract, min_self, Array.size_extract]
      omega),
    getD_positivePart, getD_combine _ _ hextract, getD_extract _ _ (by omega),
    getD_extract _ _ (by omega), Nat.zero_add, one_mul, one_mul]

theorem getD_updateZU_shared (hs : p.IsSized s) (k : Nat) :
    (p.updateZU c s).z.getD (p.sharedOffset + k) 0 = c.getD k 0 := by
  have hx := hs.x
  have hu := hs.u
  have hcount := p.variableCount_eq_add
  have hlocal : (positivePart (combine 1 (s.x.extract 0 p.sharedOffset) 1
      (s.u.extract 0 p.sharedOffset))).size = p.sharedOffset := by
    rw [size_positivePart, size_combine, Array.size_extract, Array.size_extract, hx, hu]
    omega
  unfold updateZU
  dsimp only
  rw [getD_append_right _ _ _ (by omega), hlocal, Nat.add_sub_cancel_left]

theorem getD_updateZU_u (hs : p.IsSized s) (hc : c.size = p.features + 1) (v : Nat) :
    (p.updateZU c s).u.getD v 0 =
      s.x.getD v 0 + s.u.getD v 0 - (p.updateZU c s).z.getD v 0 := by
  have hxu : s.x.size = s.u.size := hs.x.trans hs.u.symm
  have hz := (updateZU_isSized hs hc).z
  have hboth : (combine 1 s.x 1 s.u).size = p.variableCount := by
    rw [size_combine, ← hxu, min_self, hs.x]
  change (combine (-1) (p.updateZU c s).z 1 (combine 1 s.x 1 s.u)).getD v 0 = _
  rw [getD_combine _ _ (hz.trans hboth.symm), getD_combine _ _ hxu]
  ring

theorem accumulateShared_spec (hs : p.IsSized s) (acc : Array K)
    (hacc : acc.size = p.features + 1) :
    (p.accumulateShared s acc).size = acc.size ∧ ∀ k < p.features + 1,
      (p.accumulateShared s acc).getD k 0 = acc.getD k 0 +
        (s.x.getD (p.sharedOffset + k) 0 + s.u.getD (p.sharedOffset + k) 0) := by
  have hx := hs.x
  have hu := hs.u
  have hcount := p.variableCount_eq_add
  refine ⟨by simp [accumulateShared], ?_⟩
  intro k hk
  have hboth : (Array.zipWith (· + ·) (p.shared s.x) (p.shared s.u))[k]? =
      some (s.x.getD (p.sharedOffset + k) 0 + s.u.getD (p.sharedOffset + k) 0) := by
    unfold shared
    rw [Array.getElem?_eq_getElem (by
        rw [Array.size_zipWith, Array.size_extract, Array.size_extract]
        omega),
      Array.getElem_zipWith, Array.getElem_extract, Array.getElem_extract,
      getD_of_lt _ 0 (by omega), getD_of_lt _ 0 (by omega)]
  unfold accumulateShared
  dsimp only
  rw [getD_of_lt _ 0 (by rw [Array.size_mapIdx]; omega), Array.getElem_mapIdx, hboth,
    getD_of_lt acc 0 (by omega)]

end Partition

namespace Ensemble

variable {P : Problem K} {parts : Array (Partition K)} {e f : Ensemble K}

def proposed (e : Ensemble K) (k : Nat) : K :=
  ∑ i ∈ range e.members.size,
    ((e.member i).state.x.getD ((e.member i).partition.sharedOffset + k) 0 +
      (e.member i).state.u.getD ((e.member i).partition.sharedOffset + k) 0)

theorem average_spec (hfeatures : HaveFeatures P parts) (h : e.IsOver parts P) :
    (Consensus.average e.members e.consensus.size).size = P.features + 1 ∧
      ∀ k < P.features + 1, (Consensus.average e.members e.consensus.size).getD k 0 =
        e.proposed k / (e.members.size : K) := by
  have hloop := foldl_range_induction
    (fun i (acc : Array K) => acc.size = P.features + 1 ∧ ∀ k < P.features + 1,
      acc.getD k 0 = ∑ m ∈ range i,
        ((e.member m).state.x.getD ((e.member m).partition.sharedOffset + k) 0 +
          (e.member m).state.u.getD ((e.member m).partition.sharedOffset + k) 0))
    (fun acc i => (e.member i).partition.accumulateShared (e.member i).state acc)
    e.members.size (zeros e.consensus.size) (by
      refine ⟨by rw [size_zeros, h.size_consensus], ?_⟩
      intro k _
      rw [getD_zeros, sum_range_zero]) (by
      intro i hi acc hinv
      rcases hinv with ⟨hsize, hvals⟩
      have hip := h.lt_parts hi
      have hfeature := h.features_eq hfeatures hip
      have hspec := Partition.accumulateShared_spec (h.isSized hip) acc (by omega)
      refine ⟨hspec.left.trans hsize, ?_⟩
      intro k hk
      rw [hspec.right k (by omega), hvals k hk, sum_range_succ])
  have htotal : e.members.foldl (fun acc m => m.partition.accumulateShared m.state acc)
      (zeros e.consensus.size) = (List.range e.members.size).foldl
        (fun acc i => (e.member i).partition.accumulateShared (e.member i).state acc)
        (zeros e.consensus.size) :=
    foldl_eq_foldl_range _ e.members Member.empty _
  rw [← htotal] at hloop
  unfold Consensus.average
  refine ⟨by rw [Array.size_map, hloop.left], ?_⟩
  intro k hk
  rw [getD_map _ _ 0 _ (by rw [hloop.left]; exact hk), hloop.right k hk]
  rfl

theorem clipWeights_spec {v : Array K} {n : Nat} (hv : v.size = n + 1) :
    (Consensus.clipWeights v).size = n + 1 ∧ (Consensus.clipWeights v).getD 0 0 = v.getD 0 0 ∧
      ∀ k < n, (Consensus.clipWeights v).getD (1 + k) 0 = max (v.getD (1 + k) 0) 0 := by
  have hfirst : (v.extract 0 1).size = 1 := by
    rw [Array.size_extract]
    omega
  unfold Consensus.clipWeights
  refine ⟨?_, ?_, ?_⟩
  · rw [Array.size_append, size_positivePart, hfirst, Array.size_extract]
    omega
  · rw [getD_append_left _ _ _ (by omega), getD_extract _ _ (by omega)]
  · intro k hk
    rw [getD_append_right _ _ _ (by omega), hfirst, Nat.add_sub_cancel_left, getD_positivePart,
      getD_extract _ _ (by omega)]

theorem consensus_project_spec (hfeatures : HaveFeatures P parts) (h : e.IsOver parts P) :
    e.project.consensus.size = P.features + 1 ∧
      e.project.consensus.getD 0 0 = e.proposed 0 / (e.members.size : K) ∧
      ∀ k < P.features, e.project.consensus.getD (1 + k) 0 =
        max (e.proposed (1 + k) / (e.members.size : K)) 0 := by
  have haverage := average_spec hfeatures h
  have hclip := clipWeights_spec haverage.left
  have hnext : e.project.consensus =
      Consensus.clipWeights (Consensus.average e.members e.consensus.size) := rfl
  rw [hnext]
  refine ⟨hclip.left, by rw [hclip.2.1, haverage.right 0 (by omega)], ?_⟩
  intro k hk
  rw [hclip.2.2 k hk, haverage.right (1 + k) (by omega)]

theorem member_project (e : Ensemble K) {i : Nat} (hi : i < e.members.size) :
    e.project.member i = ⟨(e.member i).partition,
      (e.member i).partition.updateZU e.project.consensus (e.member i).state⟩ := by
  unfold member
  change (e.members.map fun m => (⟨m.partition, m.partition.updateZU e.project.consensus
    m.state⟩ : Member K)).getD i Member.empty = _
  rw [getD_map _ _ Member.empty _ hi]

theorem isOver_project (hfeatures : HaveFeatures P parts) (h : e.IsOver parts P) :
    e.project.IsOver parts P := by
  have hconsensus := (consensus_project_spec hfeatures h).left
  have hmembers : e.project.members = e.members.map fun m =>
      ⟨m.partition, m.partition.updateZU e.project.consensus m.state⟩ := rfl
  refine ⟨?_, ?_, hconsensus⟩
  · rw [← h.partitions, hmembers, Array.map_map]
    rfl
  · intro m hm
    rw [hmembers] at hm
    rcases Array.mem_map.mp hm with ⟨m', hm', rfl⟩
    have hfeature := hfeatures m'.partition (by
      rw [← h.partitions]
      exact Array.mem_map_of_mem hm')
    exact Partition.updateZU_isSized (h.sized m' hm') (by rw [hconsensus, hfeature])

/-!
## Balance
-/

def sharedMultiplier (e : Ensemble K) (k : Nat) : K :=
  ∑ i ∈ range e.members.size,
    (e.member i).state.u.getD ((e.member i).partition.sharedOffset + k) 0

structure IsBalanced (P : Problem K) (e : Ensemble K) : Prop where
  shared : ∀ i < e.members.size, ∀ k < P.features + 1,
    (e.member i).state.z.getD ((e.member i).partition.sharedOffset + k) 0 = e.consensus.getD k 0
  local_nonneg : ∀ i < e.members.size, ∀ v < (e.member i).partition.sharedOffset,
    0 ≤ (e.member i).state.z.getD v 0
  local_nonpos : ∀ i < e.members.size, ∀ v < (e.member i).partition.sharedOffset,
    (e.member i).state.u.getD v 0 ≤ 0
  local_mul : ∀ i < e.members.size, ∀ v < (e.member i).partition.sharedOffset,
    (e.member i).state.z.getD v 0 * (e.member i).state.u.getD v 0 = 0
  threshold : e.sharedMultiplier 0 = 0
  weight_nonneg : ∀ k < P.features, 0 ≤ e.consensus.getD (1 + k) 0
  weight_nonpos : ∀ k < P.features, e.sharedMultiplier (1 + k) ≤ 0
  weight_mul : ∀ k < P.features,
    e.consensus.getD (1 + k) 0 * e.sharedMultiplier (1 + k) = 0

theorem sub_max_nonpos (a : K) : a - max a 0 ≤ 0 :=
  sub_nonpos.mpr (le_max_left a 0)

theorem max_mul_sub_max (a : K) : max a 0 * (a - max a 0) = 0 := by
  rcases le_total a 0 with h | h
  · rw [max_eq_right h, zero_mul]
  · rw [max_eq_left h, sub_self, mul_zero]

section Project

variable (hfeatures : HaveFeatures P parts) (h : e.IsOver parts P)

include hfeatures h

omit hfeatures in
theorem project_shared {i : Nat} (hi : i < parts.size) (k : Nat) :
    (e.project.member i).state.z.getD ((e.project.member i).partition.sharedOffset + k) 0 =
      e.project.consensus.getD k 0 := by
  rw [member_project e (h.lt_size hi)]
  exact Partition.getD_updateZU_shared (h.isSized hi) k

omit hfeatures in
theorem project_local {i : Nat} (hi : i < parts.size) {v : Nat}
    (hv : v < (e.member i).partition.sharedOffset) :
    (e.project.member i).state.z.getD v 0 =
      max ((e.member i).state.x.getD v 0 + (e.member i).state.u.getD v 0) 0 := by
  rw [member_project e (h.lt_size hi)]
  exact Partition.getD_updateZU_local (h.isSized hi) hv

theorem project_multiplier {i : Nat} (hi : i < parts.size) (v : Nat) :
    (e.project.member i).state.u.getD v 0 = (e.member i).state.x.getD v 0 +
      (e.member i).state.u.getD v 0 - (e.project.member i).state.z.getD v 0 := by
  rw [member_project e (h.lt_size hi)]
  exact Partition.getD_updateZU_u (h.isSized hi) (by
    rw [(consensus_project_spec hfeatures h).left, h.features_eq hfeatures hi]) v

theorem sharedMultiplier_project (k : Nat) : e.project.sharedMultiplier k =
    e.proposed k - (e.members.size : K) * e.project.consensus.getD k 0 := by
  have hsize : e.project.members.size = e.members.size := Array.size_map
  have hconst : (e.members.size : K) * e.project.consensus.getD k 0 =
      ∑ _i ∈ range e.members.size, e.project.consensus.getD k 0 := by
    rw [sum_const, card_range, nsmul_eq_mul]
  unfold sharedMultiplier proposed
  rw [hsize, hconst, ← sum_sub_distrib]
  apply sum_congr rfl
  intro i hi
  have hip := h.lt_parts (mem_range.mp hi)
  rw [project_multiplier hfeatures h hip, project_shared h hip]
  rw [member_project e (mem_range.mp hi)]

/-- A projection leaves the ensemble balanced, whatever was projected. -/
theorem isBalanced_project (hparts : 0 < parts.size) : e.project.IsBalanced P := by
  have hsize : e.project.members.size = parts.size := by
    rw [← h.size_members]
    exact Array.size_map
  have hcount := h.size_members
  rcases consensus_project_spec hfeatures h with ⟨hconsensus, hthreshold, hweights⟩
  have hpos : (0 : K) < (e.members.size : K) := Nat.cast_pos.mpr (by omega)
  have hpart : ∀ i < parts.size, (e.project.member i).partition = (e.member i).partition := by
    intro i hi
    rw [member_project e (by omega)]
  have hweight : ∀ k < P.features, e.project.sharedMultiplier (1 + k) = (e.members.size : K) *
      (e.proposed (1 + k) / e.members.size - max (e.proposed (1 + k) / e.members.size) 0) := by
    intro k hk
    rw [sharedMultiplier_project hfeatures h, hweights k hk, mul_sub, mul_div_cancel₀ _ hpos.ne']
  refine ⟨?_, ?_, ?_, ?_, ?_, ?_, ?_, ?_⟩
  · intro i hi k _
    exact project_shared h (hsize ▸ hi) k
  · intro i hi v hv
    rw [hpart i (hsize ▸ hi)] at hv
    rw [project_local h (hsize ▸ hi) hv]
    exact le_max_right _ _
  · intro i hi v hv
    rw [hpart i (hsize ▸ hi)] at hv
    rw [project_multiplier hfeatures h (hsize ▸ hi), project_local h (hsize ▸ hi) hv]
    exact sub_max_nonpos _
  · intro i hi v hv
    rw [hpart i (hsize ▸ hi)] at hv
    rw [project_multiplier hfeatures h (hsize ▸ hi), project_local h (hsize ▸ hi) hv]
    exact max_mul_sub_max _
  · rw [sharedMultiplier_project hfeatures h, hthreshold, mul_div_cancel₀ _ hpos.ne', sub_self]
  · intro k hk
    rw [hweights k hk]
    exact le_max_right _ _
  · intro k hk
    rw [hweight k hk]
    exact mul_nonpos_of_nonneg_of_nonpos hpos.le (sub_max_nonpos _)
  · intro k hk
    rw [hweight k hk, hweights k hk, mul_left_comm, max_mul_sub_max, mul_zero]

end Project

theorem isBalanced_reset (P : Problem K) (e : Ensemble K) : e.reset.IsBalanced P := by
  have hmember : ∀ i < e.reset.members.size, ∀ v,
      (e.reset.member i).state.z.getD v 0 = 0 ∧ (e.reset.member i).state.u.getD v 0 = 0 := by
    intro i hi v
    have hie : i < e.members.size := by
      unfold reset at hi
      simpa using hi
    have heq : e.reset.member i =
        ⟨(e.member i).partition, (e.member i).partition.initialState⟩ := by
      unfold member reset
      rw [getD_map _ _ Member.empty _ hie]
    rw [heq]
    exact ⟨getD_zeros _ v, getD_zeros _ v⟩
  have hconsensus : ∀ k, e.reset.consensus.getD k 0 = 0 := fun k => getD_zeros _ k
  have hmultiplier : ∀ k, e.reset.sharedMultiplier k = 0 := fun k =>
    sum_eq_zero fun i hi => (hmember i (mem_range.mp hi) _).right
  refine ⟨?_, ?_, ?_, ?_, hmultiplier 0, ?_, ?_, ?_⟩
  · intro i hi k _
    rw [(hmember i hi _).left, hconsensus]
  · intro i hi v _
    exact (hmember i hi v).left.ge
  · intro i hi v _
    exact (hmember i hi v).right.le
  · intro i hi v _
    rw [(hmember i hi v).left, zero_mul]
  · intro k _
    exact (hconsensus (1 + k)).ge
  · intro k _
    exact (hmultiplier (1 + k)).le
  · intro k _
    rw [hconsensus, zero_mul]

/-!
## Monotonicity
-/

/-- Complementary pairs do not differ in opposite directions. -/
theorem complementary_monotone {z z' u u' : K} (hz : 0 ≤ z) (hz' : 0 ≤ z') (hu : u ≤ 0)
    (hu' : u' ≤ 0) (hmul : z * u = 0) (hmul' : z' * u' = 0) : 0 ≤ (u - u') * (z - z') := by
  have hcross : (u - u') * (z - z') = z * u + z' * u' - (z' * u + z * u') := by ring
  rw [hcross, hmul, hmul', add_zero, zero_sub, neg_nonneg]
  exact add_nonpos (mul_nonpos_of_nonneg_of_nonpos hz' hu)
    (mul_nonpos_of_nonneg_of_nonpos hz hu')

section Monotone

variable (hfeatures : HaveFeatures P parts) (hover : e.IsOver parts P) (hover' : f.IsOver parts P)
  (he : e.IsBalanced P) (hf : f.IsBalanced P)

include hover hover' he hf

theorem IsBalanced.monotone_local {i : Nat} (hi : i < parts.size) :
    0 ≤ ∑ v ∈ range (e.member i).partition.sharedOffset,
      ((e.member i).state.u.getD v 0 - (f.member i).state.u.getD v 0) *
        ((e.member i).state.z.getD v 0 - (f.member i).state.z.getD v 0) := by
  have hsize := hover.size_members
  have hsize' := hover'.size_members
  have hpart := hover.partition_eq_partition hover' hi
  apply sum_nonneg
  intro v hv
  have hve := mem_range.mp hv
  have hvf : v < (f.member i).partition.sharedOffset := by
    rw [hpart]
    exact hve
  exact complementary_monotone (he.local_nonneg i (by omega) v hve)
    (hf.local_nonneg i (by omega) v hvf) (he.local_nonpos i (by omega) v hve)
    (hf.local_nonpos i (by omega) v hvf) (he.local_mul i (by omega) v hve)
    (hf.local_mul i (by omega) v hvf)

/-- In the shared part only the sums of the multipliers count. -/
theorem IsBalanced.monotone_shared :
    0 ≤ ∑ i ∈ range parts.size, ∑ k ∈ range (P.features + 1),
      ((e.member i).state.u.getD ((e.member i).partition.sharedOffset + k) 0 -
        (f.member i).state.u.getD ((e.member i).partition.sharedOffset + k) 0) *
      ((e.member i).state.z.getD ((e.member i).partition.sharedOffset + k) 0 -
        (f.member i).state.z.getD ((e.member i).partition.sharedOffset + k) 0) := by
  have hsize := hover.size_members
  have hsize' := hover'.size_members
  have hterm : ∀ k ∈ range (P.features + 1), ∑ i ∈ range parts.size,
      ((e.member i).state.u.getD ((e.member i).partition.sharedOffset + k) 0 -
        (f.member i).state.u.getD ((e.member i).partition.sharedOffset + k) 0) *
      ((e.member i).state.z.getD ((e.member i).partition.sharedOffset + k) 0 -
        (f.member i).state.z.getD ((e.member i).partition.sharedOffset + k) 0) =
      (e.sharedMultiplier k - f.sharedMultiplier k) *
        (e.consensus.getD k 0 - f.consensus.getD k 0) := by
    intro k hk
    unfold sharedMultiplier
    rw [hsize, hsize', ← sum_sub_distrib, sum_mul]
    apply sum_congr rfl
    intro i hi
    have hin := mem_range.mp hi
    have hpart := hover.partition_eq_partition hover' hin
    rw [← he.shared i (by omega) k (mem_range.mp hk), ← hf.shared i (by omega) k (mem_range.mp hk),
      hpart]
  rw [sum_comm, sum_congr rfl hterm, sum_range_succ', he.threshold, hf.threshold, sub_self,
    zero_mul, add_zero]
  apply sum_nonneg
  intro k hk
  have hkn := mem_range.mp hk
  rw [Nat.add_comm k 1]
  exact complementary_monotone (he.weight_nonneg k hkn) (hf.weight_nonneg k hkn)
    (he.weight_nonpos k hkn) (hf.weight_nonpos k hkn) (he.weight_mul k hkn) (hf.weight_mul k hkn)

include hfeatures in
theorem IsBalanced.monotone :
    0 ≤ ∑ i ∈ range parts.size, ∑ v ∈ range (e.member i).partition.variableCount,
      ((e.member i).state.u.getD v 0 - (f.member i).state.u.getD v 0) *
        ((e.member i).state.z.getD v 0 - (f.member i).state.z.getD v 0) := by
  have hparts : ∀ i ∈ range parts.size,
      ∑ v ∈ range (e.member i).partition.variableCount,
        ((e.member i).state.u.getD v 0 - (f.member i).state.u.getD v 0) *
          ((e.member i).state.z.getD v 0 - (f.member i).state.z.getD v 0) =
      ∑ v ∈ range (e.member i).partition.sharedOffset,
        ((e.member i).state.u.getD v 0 - (f.member i).state.u.getD v 0) *
          ((e.member i).state.z.getD v 0 - (f.member i).state.z.getD v 0) +
      ∑ k ∈ range (P.features + 1),
        ((e.member i).state.u.getD ((e.member i).partition.sharedOffset + k) 0 -
          (f.member i).state.u.getD ((e.member i).partition.sharedOffset + k) 0) *
        ((e.member i).state.z.getD ((e.member i).partition.sharedOffset + k) 0 -
          (f.member i).state.z.getD ((e.member i).partition.sharedOffset + k) 0) := by
    intro i hi
    rw [Partition.variableCount_eq_add, hover.features_eq hfeatures (mem_range.mp hi),
      sum_range_add]
  rw [sum_congr rfl hparts, sum_add_distrib]
  exact add_nonneg
    (sum_nonneg fun i hi => monotone_local hover hover' he hf (mem_range.mp hi))
    (monotone_shared hover hover' he hf)

end Monotone

end Ensemble
end SoftMargin
