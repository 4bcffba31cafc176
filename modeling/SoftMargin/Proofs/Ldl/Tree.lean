import SoftMargin.Proofs.Sparse.Columns
import SoftMargin.Ldl.EliminationTree

/-!
# Elimination trees

The walks of a column meet exactly the nodes below it on the paths from its rows,
each once, and all of these paths lead up to the column. Later columns add
parents only to nodes without one, so that they change no path of an earlier
column. Hence the counts are the numbers of columns whose paths a node lies on.
-/

namespace SoftMargin
namespace Ldl

open Finset

/-!
## Paths up the tree
-/

def Climbs (parent : Array (Option Nat)) : Nat → Nat → Prop :=
  Relation.ReflTransGen fun i p => parent.getD i none = some p

def Rising (parent : Array (Option Nat)) (bound : Nat) : Prop :=
  ∀ i p, parent.getD i none = some p → i < p ∧ p < bound

def Extends (parent parent' : Array (Option Nat)) : Prop :=
  ∀ i p, parent.getD i none = some p → parent'.getD i none = some p

theorem Extends.refl (parent : Array (Option Nat)) : Extends parent parent :=
  fun _ _ h => h

theorem Extends.trans {p q r : Array (Option Nat)} (hpq : Extends p q) (hqr : Extends q r) :
    Extends p r :=
  fun i a h => hqr i a (hpq i a h)

namespace Climbs

variable {parent parent' : Array (Option Nat)} {bound i j k p : Nat}

theorem refl (parent : Array (Option Nat)) (i : Nat) : Climbs parent i i :=
  Relation.ReflTransGen.refl

theorem trans (hij : Climbs parent i j) (hjk : Climbs parent j k) : Climbs parent i k :=
  Relation.ReflTransGen.trans hij hjk

theorem of_parent (h : parent.getD i none = some p) : Climbs parent i p :=
  Relation.ReflTransGen.single h

theorem extend (hext : Extends parent parent') (h : Climbs parent i k) : Climbs parent' i k :=
  Relation.ReflTransGen.mono (fun i p => hext i p) i k h

theorem le (hrising : Rising parent bound) (h : Climbs parent i k) : i ≤ k := by
  induction h with
  | refl => exact le_refl i
  | tail _ hstep ih => exact ih.trans (hrising _ _ hstep).left.le

theorem total (hj : Climbs parent i j) (hk : Climbs parent i k) :
    Climbs parent j k ∨ Climbs parent k j := by
  refine Relation.ReflTransGen.total_of_right_unique ?_ hj hk
  intro a b c hb hc
  change parent.getD a none = some b at hb
  change parent.getD a none = some c at hc
  rw [hb] at hc
  exact Option.some.inj hc

theorem of_lt (hrising : Rising parent bound) (hj : Climbs parent i j) (hk : Climbs parent i k)
    (hlt : j < k) : Climbs parent j k := by
  rcases total hj hk with h | h
  · exact h
  · have hle := h.le hrising
    omega

theorem of_ne (h : Climbs parent i k) (hne : i ≠ k) :
    ∃ p, parent.getD i none = some p ∧ Climbs parent p k := by
  rcases Relation.ReflTransGen.cases_head h with heq | ⟨p, hp, hclimb⟩
  · exact absurd heq hne
  · exact ⟨p, hp, hclimb⟩

/-- An extension of the tree leaves the nodes on a path as they are. -/
theorem of_extend (hext : Extends parent parent') (hrising : Rising parent' bound)
    (hik : Climbs parent i k) (hlt : j < k) (hij : Climbs parent' i j) : Climbs parent i j := by
  induction hik using Relation.ReflTransGen.head_induction_on with
  | refl =>
      have hle := hij.le hrising
      omega
  | @head a b hstep _ ih =>
      by_cases haj : a = j
      · rw [haj]
        exact refl parent j
      · rcases hij.of_ne haj with ⟨p, hp, hpj⟩
        have hb := hext _ _ hstep
        rw [hb] at hp
        rw [← Option.some.inj hp] at hpj
        exact (of_parent hstep).trans (ih hpj)

end Climbs

/-!
## What a tree has to do
-/

variable {α : Type}

/-- Column `k` takes up column `c`: a path from one of its rows passes `c` before it reaches `k`. -/
def Takes (A : Csc α) (parent : Array (Option Nat)) (k c : Nat) : Prop :=
  c < k ∧ ∃ e ∈ A.column k, Climbs parent e.1 c

open Classical in
noncomputable def takenBy (A : Csc α) (parent : Array (Option Nat)) (k c : Nat) : Nat :=
  #{j ∈ range k | Takes A parent j c}

/-- In the tree all paths from the rows of a column lead up to that column. -/
structure IsEliminationTree (A : Csc α) (parent : Array (Option Nat)) (bound : Nat) : Prop where
  size : parent.size = A.cols
  rising : Rising parent bound
  climbs : ∀ k < bound, ∀ e ∈ A.column k, Climbs parent e.1 k

theorem takenBy_succ_of_takes {A : Csc α} {parent : Array (Option Nat)} {k c : Nat}
    (h : Takes A parent k c) : takenBy A parent (k + 1) c = takenBy A parent k c + 1 := by
  classical
  unfold takenBy
  rw [range_add_one, filter_insert, if_pos h, card_insert_of_notMem]
  simp

theorem takenBy_succ_of_not_takes {A : Csc α} {parent : Array (Option Nat)} {k c : Nat}
    (h : ¬ Takes A parent k c) : takenBy A parent (k + 1) c = takenBy A parent k c := by
  classical
  unfold takenBy
  rw [range_add_one, filter_insert, if_neg h]

theorem takenBy_mono (A : Csc α) (parent : Array (Option Nat)) {j k : Nat} (h : j ≤ k) (c : Nat) :
    takenBy A parent j c ≤ takenBy A parent k c := by
  classical
  unfold takenBy
  exact card_le_card (filter_subset_filter _ (range_mono h))

theorem takes_extend_iff {A : Csc α} {parent parent' : Array (Option Nat)} {j bound k c : Nat}
    (htree : IsEliminationTree A parent j) (hext : Extends parent parent')
    (hrising : Rising parent' bound) (hk : k < j) :
    Takes A parent' k c ↔ Takes A parent k c := by
  constructor
  · intro h
    rcases h with ⟨hck, e, he, hclimb⟩
    exact ⟨hck, e, he, (htree.climbs k hk e he).of_extend hext hrising hck hclimb⟩
  · intro h
    rcases h with ⟨hck, e, he, hclimb⟩
    exact ⟨hck, e, he, hclimb.extend hext⟩

theorem takenBy_extend {A : Csc α} {parent parent' : Array (Option Nat)} {j bound c : Nat}
    (htree : IsEliminationTree A parent j) (hext : Extends parent parent')
    (hrising : Rising parent' bound) : takenBy A parent' j c = takenBy A parent j c := by
  classical
  unfold takenBy
  congr 1
  apply filter_congr
  intro k hk
  exact takes_extend_iff htree hext hrising (mem_range.mp hk)

/-!
## Walks

A walk marks the nodes that it meets. While it runs, the parent of a marked node
is marked or is the node that comes next.
-/

namespace TreeState

structure Sized (n : Nat) (s : TreeState) : Prop where
  parent : s.parent.size = n
  counts : s.counts.size = n
  reached : s.reached.size = n

def visit (j i : Nat) (s : TreeState) : TreeState where
  parent := s.parent.setIfInBounds i (some ((s.parent.getD i none).getD j))
  counts := s.counts.setIfInBounds i (s.counts.getD i 0 + 1)
  reached := s.reached.setIfInBounds i j

theorem climb_of_reached {n j i : Nat} {s : TreeState} (hs : s.Sized n) (hi : i < n)
    (hreached : s.reached.getD i 0 = j) (fuel : Nat) : climb j (fuel + 1) i s = .ok s := by
  rw [climb, read_of_lt s.reached 0 (by rw [hs.reached]; exact hi), ok_bind, if_pos hreached]
  rfl

theorem climb_of_not_reached {n j i : Nat} {s : TreeState} (hs : s.Sized n) (hi : i < n)
    (hreached : s.reached.getD i 0 ≠ j) (fuel : Nat) :
    climb j (fuel + 1) i s = climb j fuel ((s.parent.getD i none).getD j) (s.visit j i) := by
  rw [climb, read_of_lt s.reached 0 (by rw [hs.reached]; exact hi), ok_bind, if_neg hreached,
    read_of_lt s.parent none (by rw [hs.parent]; exact hi), ok_bind,
    read_of_lt s.counts 0 (by rw [hs.counts]; exact hi), ok_bind,
    write_of_lt _ (by rw [hs.counts]; exact hi), ok_bind]
  rfl

section Visit

variable {n j i : Nat} {s : TreeState} (hs : s.Sized n) (hi : i < n)

include hs

theorem Sized.visit : (s.visit j i).Sized n :=
  ⟨by simpa [TreeState.visit] using hs.parent, by simpa [TreeState.visit] using hs.counts,
    by simpa [TreeState.visit] using hs.reached⟩

include hi

theorem parent_visit (a : Nat) : (s.visit j i).parent.getD a none =
    if i = a then some ((s.parent.getD i none).getD j) else s.parent.getD a none := by
  unfold TreeState.visit
  rw [getD_setIfInBounds, hs.parent]
  simp [hi]

theorem counts_visit (a : Nat) : (s.visit j i).counts.getD a 0 =
    if i = a then s.counts.getD i 0 + 1 else s.counts.getD a 0 := by
  unfold TreeState.visit
  rw [getD_setIfInBounds, hs.counts]
  simp [hi]

theorem reached_visit (a : Nat) : (s.visit j i).reached.getD a 0 =
    if i = a then j else s.reached.getD a 0 := by
  unfold TreeState.visit
  rw [getD_setIfInBounds, hs.reached]
  simp [hi]

theorem extends_visit : Extends s.parent (s.visit j i).parent := by
  intro a p ha
  rw [parent_visit hs hi]
  by_cases hia : i = a
  · subst hia
    rw [if_pos rfl, ha, Option.getD_some]
  · rw [if_neg hia, ha]

end Visit

/-- Column `j` in the making: walks from some of its rows have led from the first state to the
second, and the running one stands at `cur`. -/
structure Walk (n j : Nat) (s₀ : TreeState) (rows : List Nat) (cur : Nat) (s : TreeState) :
    Prop where
  sized : s.Sized n
  extension : Extends s₀.parent s.parent
  parent_cases : ∀ i p, s.parent.getD i none = some p →
    s₀.parent.getD i none = some p ∨ (p = j ∧ i < j ∧ s.reached.getD i 0 = j)
  reached_self : s.reached.getD j 0 = j
  reached_le : ∀ i < j, s.reached.getD i 0 ≤ j
  parent_of_reached : ∀ i < j, s.reached.getD i 0 = j →
    ∃ p, s.parent.getD i none = some p ∧ (s.reached.getD p 0 = j ∨ p = cur)
  count : ∀ c < n, s.counts.getD c 0 =
    s₀.counts.getD c 0 + if c < j ∧ s.reached.getD c 0 = j then 1 else 0
  origin : ∀ i < j, s.reached.getD i 0 = j → ∃ r ∈ rows, Climbs s.parent r i

namespace Walk

variable {n j cur : Nat} {s₀ s : TreeState} {rows : List Nat}

theorem visit (h : Walk n j s₀ rows cur s) (hcur : cur < j) (hjn : j < n)
    (hreached : s.reached.getD cur 0 ≠ j) (horigin : ∃ r ∈ rows, Climbs s.parent r cur) :
    Walk n j s₀ rows ((s.parent.getD cur none).getD j) (s.visit j cur) := by
  have hn : cur < n := hcur.trans hjn
  have hsized := h.sized
  refine ⟨hsized.visit, h.extension.trans (extends_visit hsized hn), ?_, ?_, ?_, ?_, ?_, ?_⟩
  · intro i p hp
    rw [parent_visit hsized hn] at hp
    rw [reached_visit hsized hn]
    by_cases hi : cur = i
    · subst hi
      rw [if_pos rfl] at hp
      cases hparent : s.parent.getD cur none with
      | none =>
          rw [hparent, Option.getD_none] at hp
          exact Or.inr ⟨(Option.some.inj hp).symm, hcur, if_pos rfl⟩
      | some q =>
          rw [hparent, Option.getD_some] at hp
          rcases h.parent_cases cur q hparent with hold | ⟨_, _, hmark⟩
          · rw [← hp]
            exact Or.inl hold
          · exact absurd hmark hreached
    · rw [if_neg hi] at hp
      rw [if_neg hi]
      exact h.parent_cases i p hp
  · rw [reached_visit hsized hn, if_neg (by omega)]
    exact h.reached_self
  · intro i hi
    rw [reached_visit hsized hn]
    by_cases hic : cur = i
    · rw [if_pos hic]
    · rw [if_neg hic]
      exact h.reached_le i hi
  · intro i hi hmark
    rw [reached_visit hsized hn] at hmark
    rw [parent_visit hsized hn]
    by_cases hic : cur = i
    · rw [if_pos hic]
      exact ⟨_, rfl, Or.inr rfl⟩
    · rw [if_neg hic] at hmark
      rw [if_neg hic]
      rcases h.parent_of_reached i hi hmark with ⟨p, hp, hnext⟩
      refine ⟨p, hp, Or.inl ?_⟩
      rw [reached_visit hsized hn]
      rcases hnext with hpmark | hpcur
      · by_cases hpc : cur = p
        · rw [if_pos hpc]
        · rw [if_neg hpc]
          exact hpmark
      · rw [if_pos hpcur.symm]
  · intro c hc
    rw [counts_visit hsized hn, reached_visit hsized hn]
    by_cases hcc : cur = c
    · subst hcc
      rw [if_pos rfl, if_pos rfl, if_pos ⟨hcur, rfl⟩, h.count cur hc,
        if_neg (fun hand => hreached hand.right)]
    · rw [if_neg hcc, if_neg hcc]
      exact h.count c hc
  · intro i hi hmark
    rw [reached_visit hsized hn] at hmark
    by_cases hic : cur = i
    · rcases horigin with ⟨r, hr, hclimb⟩
      exact ⟨r, hr, hic ▸ hclimb.extend (extends_visit hsized hn)⟩
    · rw [if_neg hic] at hmark
      rcases h.origin i hi hmark with ⟨r, hr, hclimb⟩
      exact ⟨r, hr, hclimb.extend (extends_visit hsized hn)⟩

/-- A walk ends at a marked node. It keeps marks and parents. -/
theorem climb (hrising : Rising s₀.parent j) (hjn : j < n) (fuel : Nat)
    (h : Walk n j s₀ rows cur s) (hcur : cur ≤ j) (hfuel : j - cur < fuel)
    (horigin : ∃ r ∈ rows, Climbs s.parent r cur) :
    ∃ t, TreeState.climb j fuel cur s = .ok t ∧ Walk n j s₀ rows j t ∧
      Extends s.parent t.parent ∧ t.reached.getD cur 0 = j ∧
      ∀ m, s.reached.getD m 0 = j → t.reached.getD m 0 = j := by
  induction fuel generalizing cur s with
  | zero => omega
  | succ fuel ih =>
      have hn : cur < n := by omega
      by_cases hmark : s.reached.getD cur 0 = j
      · refine ⟨s, climb_of_reached h.sized hn hmark fuel, ?_, Extends.refl _, hmark,
          fun m hm => hm⟩
        refine { h with parent_of_reached := ?_ }
        intro i hi hreached
        rcases h.parent_of_reached i hi hreached with ⟨p, hp, hnext⟩
        refine ⟨p, hp, Or.inl ?_⟩
        rcases hnext with hpmark | hpcur
        · exact hpmark
        · rw [hpcur]
          exact hmark
      · have hlt : cur < j := by
          rcases Nat.lt_or_eq_of_le hcur with hlt | heq
          · exact hlt
          · exact absurd (heq ▸ h.reached_self) hmark
        have hnext : cur < (s.parent.getD cur none).getD j ∧
            (s.parent.getD cur none).getD j ≤ j := by
          cases hparent : s.parent.getD cur none with
          | none => exact ⟨hlt, le_refl j⟩
          | some p =>
              rcases h.parent_cases cur p hparent with hold | ⟨_, _, hmarked⟩
              · exact ⟨(hrising cur p hold).left, (hrising cur p hold).right.le⟩
              · exact absurd hmarked hmark
        have hvisit := h.visit hlt hjn hmark horigin
        have hstep : (s.visit j cur).parent.getD cur none =
            some ((s.parent.getD cur none).getD j) := by
          rw [parent_visit h.sized hn, if_pos rfl]
        have hnextOrigin : ∃ r ∈ rows,
            Climbs (s.visit j cur).parent r ((s.parent.getD cur none).getD j) := by
          rcases horigin with ⟨r, hr, hclimb⟩
          exact ⟨r, hr, (hclimb.extend (extends_visit h.sized hn)).trans (Climbs.of_parent hstep)⟩
        rcases ih hvisit hnext.right (by omega) hnextOrigin with
          ⟨t, ht, hwalk, hextends, _, hkeep⟩
        have hmarks : ∀ m, s.reached.getD m 0 = j ∨ m = cur → t.reached.getD m 0 = j := by
          intro m hm
          apply hkeep
          rw [reached_visit h.sized hn]
          by_cases hmc : cur = m
          · rw [if_pos hmc]
          · rw [if_neg hmc]
            rcases hm with hold | heq
            · exact hold
            · exact absurd heq.symm hmc
        refine ⟨t, ?_, hwalk, (extends_visit h.sized hn).trans hextends, hmarks cur (Or.inr rfl),
          fun m hm => hmarks m (Or.inl hm)⟩
        rw [climb_of_not_reached h.sized hn hmark]
        exact ht

theorem mono_rows (h : Walk n j s₀ rows cur s) {rows' : List Nat} (hsub : rows ⊆ rows') :
    Walk n j s₀ rows' cur s := by
  refine { h with origin := ?_ }
  intro i hi hmark
  rcases h.origin i hi hmark with ⟨r, hr, hclimb⟩
  exact ⟨r, hsub hr, hclimb⟩

theorem rising (h : Walk n j s₀ rows cur s) (hrising : Rising s₀.parent j) :
    Rising s.parent (j + 1) := by
  intro i p hp
  rcases h.parent_cases i p hp with hold | ⟨hpj, hi, _⟩
  · have hip := hrising i p hold
    omega
  · omega

/-- When no walk is running, the marks go on up to column `j`. -/
theorem reached_of_climbs (h : Walk n j s₀ rows j s) (hrising : Rising s₀.parent j) {i c : Nat}
    (hclimb : Climbs s.parent i c) (hc : c ≤ j) (hmark : s.reached.getD i 0 = j) :
    s.reached.getD c 0 = j := by
  induction hclimb using Relation.ReflTransGen.head_induction_on with
  | refl => exact hmark
  | @head a b hstep hrest ih =>
      have hab := h.rising hrising a b hstep
      have haj : a < j := hab.left.trans_le ((Climbs.le (h.rising hrising) hrest).trans hc)
      rcases h.parent_of_reached a haj hmark with ⟨p, hp, hnext⟩
      rw [hstep] at hp
      rw [← Option.some.inj hp] at hnext
      rcases hnext with hb | hb
      · exact ih hb
      · exact ih (hb ▸ h.reached_self)

theorem climbs_of_reached (h : Walk n j s₀ rows j s) (hrising : Rising s₀.parent j) {i : Nat}
    (hi : i ≤ j) (hmark : s.reached.getD i 0 = j) : Climbs s.parent i j := by
  induction hd : j - i using Nat.strong_induction_on generalizing i with
  | h d ih =>
      rcases Nat.lt_or_eq_of_le hi with hlt | heq
      · rcases h.parent_of_reached i hlt hmark with ⟨p, hp, hnext⟩
        have hip := h.rising hrising i p hp
        have hpmark : s.reached.getD p 0 = j := by
          rcases hnext with hb | hb
          · exact hb
          · exact hb ▸ h.reached_self
        exact (Climbs.of_parent hp).trans (ih (j - p) (by omega) (by omega) hpmark rfl)
      · rw [heq]
        exact Climbs.refl _ j

end Walk

structure Grown (A : Csc α) (j : Nat) (s : TreeState) : Prop where
  sized : s.Sized A.cols
  tree : IsEliminationTree A s.parent j
  reached_lt : ∀ i < j, s.reached.getD i 0 < j
  counts : ∀ c < A.cols, s.counts.getD c 0 = takenBy A s.parent j c
  parent_takes : ∀ i p, s.parent.getD i none = some p → Takes A s.parent p i

namespace Grown

variable {A : Csc α} {j : Nat} {s t : TreeState}

theorem start_walk (h : Grown A j s) (hj : j < A.cols) :
    Walk A.cols j s [] j { s with reached := s.reached.setIfInBounds j j } := by
  have hsized := h.sized
  have hreached : ∀ i < j, (s.reached.setIfInBounds j j).getD i 0 = s.reached.getD i 0 := by
    intro i hi
    exact getD_setIfInBounds_ne _ _ _ (by omega)
  refine ⟨⟨hsized.parent, hsized.counts, by simpa using hsized.reached⟩, Extends.refl _,
    fun i p hp => Or.inl hp, ?_, ?_, ?_, ?_, ?_⟩
  · exact getD_setIfInBounds_self _ _ _ (by rw [hsized.reached]; exact hj)
  · intro i hi
    rw [hreached i hi]
    exact (h.reached_lt i hi).le
  · intro i hi hmark
    rw [hreached i hi] at hmark
    exact absurd hmark (h.reached_lt i hi).ne
  · intro c _
    rw [if_neg, Nat.add_zero]
    intro hand
    rw [hreached c hand.left] at hand
    exact (h.reached_lt c hand.left).ne hand.right
  · intro i hi hmark
    rw [hreached i hi] at hmark
    exact absurd hmark (h.reached_lt i hi).ne

theorem of_walk (hA : A.IsUpper) (h : Grown A j s) (hj : j < A.cols)
    (hwalk : Walk A.cols j s ((A.column j).map (·.1)) j t)
    (hrows : ∀ e ∈ A.column j, t.reached.getD e.1 0 = j) : Grown A (j + 1) t := by
  have hrising := h.tree.rising
  have htakes : ∀ c, Takes A t.parent j c ↔ c < j ∧ t.reached.getD c 0 = j := by
    intro c
    constructor
    · intro htake
      rcases htake with ⟨hc, e, he, hclimb⟩
      exact ⟨hc, hwalk.reached_of_climbs hrising hclimb hc.le (hrows e he)⟩
    · intro hmark
      rcases hwalk.origin c hmark.left hmark.right with ⟨r, hr, hclimb⟩
      rcases List.mem_map.mp hr with ⟨e, he, her⟩
      exact ⟨hmark.left, e, he, her ▸ hclimb⟩
  refine ⟨hwalk.sized, ⟨hwalk.sized.parent, hwalk.rising hrising, ?_⟩, ?_, ?_, ?_⟩
  · intro k hk e he
    rcases Nat.lt_succ_iff_lt_or_eq.mp hk with hlt | heq
    · exact (h.tree.climbs k hlt e he).extend hwalk.extension
    · subst heq
      exact hwalk.climbs_of_reached hrising (hA.row_le k hj e he) (hrows e he)
  · intro i hi
    rcases Nat.lt_succ_iff_lt_or_eq.mp hi with hlt | heq
    · exact Nat.lt_succ_of_le (hwalk.reached_le i hlt)
    · rw [heq, hwalk.reached_self]
      exact Nat.lt_succ_self j
  · intro c hc
    rw [hwalk.count c hc, h.counts c hc,
      ← takenBy_extend h.tree hwalk.extension (hwalk.rising hrising)]
    by_cases hmark : c < j ∧ t.reached.getD c 0 = j
    · rw [if_pos hmark, takenBy_succ_of_takes ((htakes c).mpr hmark)]
    · rw [if_neg hmark, takenBy_succ_of_not_takes (fun htake => hmark ((htakes c).mp htake)),
        Nat.add_zero]
  · intro i p hp
    rcases hwalk.parent_cases i p hp with hold | ⟨hpj, hi, hmark⟩
    · exact (takes_extend_iff h.tree hwalk.extension (hwalk.rising hrising)
        (hrising i p hold).right).mpr (h.parent_takes i p hold)
    · rw [hpj]
      exact (htakes i).mpr ⟨hi, hmark⟩

theorem addColumn (hA : A.IsUpper) (h : Grown A j s) (hj : j < A.cols) :
    ∃ t, s.addColumn A j = .ok t ∧ Grown A (j + 1) t := by
  have hloop := foldlM_eq_ok
    (fun done t => Walk A.cols j s (done.map (·.1)) j t ∧
      ∀ e ∈ done, t.reached.getD e.1 0 = j)
    (fun (s : TreeState) (e : Nat × α) => s.climb j (A.cols + 1) e.1) (A.column j)
    _ ⟨h.start_walk hj, fun e he => absurd he List.not_mem_nil⟩ (by
      intro done e todo t hsplit hinv
      rcases hinv with ⟨hwalk, hdone⟩
      have he : e ∈ A.column j := by
        rw [hsplit]
        exact List.mem_append_right _ List.mem_cons_self
      have hrow := hA.row_le j hj e he
      have hwalk' : Walk A.cols j s ((done ++ [e]).map (·.1)) e.1 t := by
        refine { hwalk.mono_rows (List.map_subset _ (List.subset_append_left done [e])) with
          parent_of_reached := ?_ }
        intro i hi hmark
        rcases hwalk.parent_of_reached i hi hmark with ⟨p, hp, hnext⟩
        refine ⟨p, hp, Or.inl ?_⟩
        rcases hnext with hb | hb
        · exact hb
        · exact hb ▸ hwalk.reached_self
      rcases hwalk'.climb h.tree.rising hj (A.cols + 1) hrow (by omega)
          ⟨e.1, by simp, Climbs.refl _ _⟩ with ⟨t', ht', hend, _, hreached, hkeep⟩
      refine ⟨t', ht', hend, ?_⟩
      intro d hd
      rcases List.mem_append.mp hd with hold | hnew
      · exact hkeep _ (hdone d hold)
      · rw [List.mem_singleton.mp hnew]
        exact hreached)
  rcases hloop with ⟨t, ht, hwalk, hrows⟩
  refine ⟨t, ?_, h.of_walk hA hj hwalk hrows⟩
  unfold TreeState.addColumn
  rw [write_of_lt _ (by rw [h.sized.reached]; exact hj), ok_bind, hA.readColumn_eq hj, ok_bind]
  exact ht

end Grown
end TreeState

theorem eliminationTree_eq_grown {A : Csc α} (hA : A.IsUpper) :
    ∃ s, eliminationTree A = .ok (s.parent, s.counts) ∧ TreeState.Grown A A.cols s := by
  have hnone : ∀ i p, (Array.replicate A.cols (none : Option Nat)).getD i none ≠ some p := by
    intro i p
    by_cases hi : i < A.cols
    · rw [getD_of_lt _ none (by simpa using hi), Array.getElem_replicate]
      exact nofun
    · rw [getD_of_size_le _ none (by simpa using hi)]
      exact nofun
  have hstart : TreeState.Grown A 0
      { parent := Array.replicate A.cols none
        counts := Array.replicate A.cols 0
        reached := Array.replicate A.cols 0 } := by
    refine ⟨⟨by simp, by simp, by simp⟩, ⟨by simp, fun i p hp => absurd hp (hnone i p), ?_⟩, ?_, ?_,
      fun i p hp => absurd hp (hnone i p)⟩
    · intro k hk
      exact absurd hk (Nat.not_lt_zero k)
    · intro i hi
      exact absurd hi (Nat.not_lt_zero i)
    · intro c hc
      rw [getD_of_lt _ 0 (by simpa using hc), Array.getElem_replicate]
      simp [takenBy]
  have hloop := foldlM_range_outcome (TreeState.Grown A) (fun _ => False)
    (TreeState.addColumn A) A.cols _ hstart (by
      intro k hk s hs
      exact Or.inl (hs.addColumn hA hk))
  rcases hloop.exists_ok with ⟨s, hs, hgrown⟩
  refine ⟨s, ?_, hgrown⟩
  unfold eliminationTree
  simp only [hs, ok_bind, pure_eq_ok]

/-- The elimination tree of an upper triangular matrix, and for each column the number of those that
take it up. -/
theorem eliminationTree_eq_ok {A : Csc α} (hA : A.IsUpper) :
    ∃ parent counts, eliminationTree A = .ok (parent, counts) ∧
      IsEliminationTree A parent A.cols ∧ counts.size = A.cols ∧
      ∀ c < A.cols, counts.getD c 0 = takenBy A parent A.cols c := by
  rcases eliminationTree_eq_grown hA with ⟨s, hs, hgrown⟩
  exact ⟨s.parent, s.counts, hs, hgrown.tree, hgrown.sized.counts, hgrown.counts⟩

end Ldl
end SoftMargin
