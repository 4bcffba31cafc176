import Mathlib.Data.List.Chain
import Mathlib.Data.List.Intervals
import SoftMargin.LineSearch.Oscillation
import SoftMargin.Proofs.Double.Difference
import SoftMargin.Proofs.Exact.Vector

/-!
# Turning points

The search for oscillations runs backward and keeps the direction of the move it
has seen last. Read forward, it lists the moves in the latest part of a sequence
and looks for neighbors on that list with opposite directions. Between them is a
turning point. Turning points are peaks and troughs in turn, so the latest one
and the next one of the other kind are the last two of all.
-/

namespace SoftMargin
namespace Oscillation

open Scalar

variable {α : Type} [Scalar α] {s : Array α} {i j : Nat}

/-!
## Turning points of a sequence
-/

def Rises (s : Array α) (i : Nat) : Prop :=
  s.getD i 0 < s.getD (i + 1) 0

def Falls (s : Array α) (i : Nat) : Prop :=
  s.getD (i + 1) 0 < s.getD i 0

instance (s : Array α) (i : Nat) : Decidable (Rises s i) :=
  inferInstanceAs (Decidable (s.getD i 0 < s.getD (i + 1) 0))

instance (s : Array α) (i : Nat) : Decidable (Falls s i) :=
  inferInstanceAs (Decidable (s.getD (i + 1) 0 < s.getD i 0))

def isFlat (s : Array α) (i : Nat) : Bool :=
  same (s.getD (i + 1) 0) (s.getD i 0)

def windowStart (s : Array α) : Nat :=
  s.size - windowLength s.size

def moves (s : Array α) : List Nat :=
  (List.Ico (windowStart s) (s.size - 1)).filter fun i => !isFlat s i

def turn? (s : Array α) (i j : Nat) : Option (Extremum × Nat) :=
  if Rises s i ∧ Falls s j then
    some (.peak, i + 1)
  else if Falls s i ∧ Rises s j then
    some (.trough, i + 1)
  else
    none

def turns (s : Array α) : List Nat → List (Extremum × Nat)
  | i :: j :: rest => (turn? s i j).toList ++ turns s (j :: rest)
  | _ => []

/-- The extrema in the latest part of a sequence, in order. -/
def turningPoints (s : Array α) : List (Extremum × Nat) :=
  turns s (moves s)

theorem mem_moves :
    i ∈ moves s ↔ windowStart s ≤ i ∧ i + 1 < s.size ∧ isFlat s i = false := by
  unfold moves
  rw [List.mem_filter, List.Ico.mem, Bool.not_eq_true', Nat.lt_sub_iff_add_lt, and_assoc]

theorem pairwise_moves (s : Array α) : (moves s).Pairwise (· < ·) :=
  (List.Ico.pairwise_lt _ _).filter _

theorem snd_of_mem_turn? {p : Extremum × Nat} (h : p ∈ turn? s i j) : p.2 = i + 1 := by
  unfold turn? at h
  split_ifs at h
  · cases h
    rfl
  · cases h
    rfl
  · cases h

theorem turns_concat (s : Array α) (l : List Nat) (i j : Nat) :
    turns s (l ++ [i, j]) = turns s (l ++ [i]) ++ (turn? s i j).toList := by
  induction l with
  | nil => simp [turns]
  | cons a l ih =>
    cases l with
    | nil => simp [turns]
    | cons b l =>
      simp only [List.cons_append, turns, List.append_assoc] at ih ⊢
      rw [ih]

theorem exists_of_mem_turns {l : List Nat} (hsorted : l.Pairwise (· < ·)) {p : Extremum × Nat}
    (hp : p ∈ turns s l) : ∃ i ∈ l, ∃ j ∈ l, i < j ∧ p ∈ turn? s i j := by
  induction l with
  | nil => exact absurd hp List.not_mem_nil
  | cons i l ih =>
    cases l with
    | nil => exact absurd hp List.not_mem_nil
    | cons j rest =>
      rw [turns, List.mem_append, Option.mem_toList] at hp
      rcases hp with hturn | hrest
      · exact ⟨i, by simp, j, by simp, List.rel_of_pairwise_cons hsorted (by simp), hturn⟩
      · obtain ⟨i', hi', j', hj', h⟩ := ih hsorted.of_cons hrest
        exact ⟨i', List.mem_cons_of_mem i hi', j', List.mem_cons_of_mem i hj', h⟩

/-- Neither end of the latest part is a turning point. -/
theorem lt_of_mem_turningPoints {p : Extremum × Nat} (hp : p ∈ turningPoints s) :
    windowStart s < p.2 ∧ p.2 + 1 < s.size := by
  obtain ⟨i, hi, j, hj, hij, hturn⟩ := exists_of_mem_turns (pairwise_moves s) hp
  have hstart := (mem_moves.mp hi).1
  have hstop := (mem_moves.mp hj).2.1
  rw [snd_of_mem_turn? hturn]
  omega

/-!
## Directions
-/

structure FiniteStep (s : Array α) (i : Nat) : Prop where
  start : isFinite (s.getD i 0) = true
  stop : isFinite (s.getD (i + 1) 0) = true

structure IsMove (s : Array α) (i : Nat) : Prop extends FiniteStep s i where
  not_flat : isFlat s i = false

def ahead (s : Array α) (i : Nat) : Extremum :=
  if Rises s i then .peak else .trough

def behind (s : Array α) (i : Nat) : Extremum :=
  if Rises s i then .trough else .peak

theorem behind_ne_ahead (s : Array α) (i : Nat) : behind s i ≠ ahead s i := by
  unfold behind ahead
  by_cases h : Rises s i
  · rw [if_pos h, if_pos h]
    decide
  · rw [if_neg h, if_neg h]
    decide

theorem finiteStep (hs : allFinite s = true) (hi : i + 1 < s.size) : FiniteStep s i where
  start := isFinite_getD_of_lt hs (Nat.lt_of_succ_lt hi)
  stop := isFinite_getD_of_lt hs hi

theorem isMove_of_mem_moves (hs : allFinite s = true) (h : i ∈ moves s) : IsMove s i where
  toFiniteStep := finiteStep hs (mem_moves.mp h).2.1
  not_flat := (mem_moves.mp h).2.2

section Directions

variable [SignedDifferences α]

theorem FiniteStep.same_sub (h : FiniteStep s i) :
    same (s.getD (i + 1) 0 - s.getD i 0) 0 = isFlat s i :=
  SignedDifferences.same_sub_zero h.stop h.start

theorem FiniteStep.sub_pos (h : FiniteStep s i) :
    decide (0 < s.getD (i + 1) 0 - s.getD i 0) = decide (Rises s i) :=
  decide_eq_decide.mpr (SignedDifferences.sub_pos_iff h.stop h.start)

theorem IsMove.falls_iff (h : IsMove s i) : Falls s i ↔ ¬Rises s i := by
  constructor
  · exact fun hfall => SignedDifferences.not_lt h.stop h.start hfall
  · intro hnot
    rcases SignedDifferences.lt_or_lt h.stop h.start h.not_flat with hfall | hrise
    · exact hfall
    · exact absurd hrise hnot

/-- There is an extremum between moves of opposite directions, and none between others. -/
theorem turn?_eq (hi : IsMove s i) (hj : IsMove s j) :
    turn? s i j =
      if decide (Rises s i) = decide (Rises s j) then none else some (ahead s i, i + 1) := by
  unfold turn? ahead
  simp only [hi.falls_iff, hj.falls_iff]
  by_cases h : Rises s i <;> by_cases h' : Rises s j <;> simp [h, h']

end Directions

/-!
## The scan
-/

section Scan

variable [SignedDifferences α]

theorem extrema_of_flat (h : FiniteStep s i) (hflat : isFlat s i = true) (rest : List Nat)
    (after : Option Bool) : extrema s (i :: rest) after = extrema s rest after := by
  simp only [extrema, extremaBy, pure_bind, h.same_sub, hflat, if_true]

theorem extrema_of_move (h : IsMove s i) (rest : List Nat) :
    extrema s (i :: rest) none = extrema s rest (some (decide (Rises s i))) := by
  simp only [extrema, extremaBy, pure_bind, h.toFiniteStep.same_sub, h.not_flat,
    h.toFiniteStep.sub_pos]
  rfl

theorem extrema_of_moves (hi : IsMove s i) (hj : IsMove s j) (rest : List Nat) :
    extrema s (i :: rest) (some (decide (Rises s j))) =
      (turn? s i j).toList ++ extrema s rest (some (decide (Rises s i))) := by
  rw [turn?_eq hi hj]
  simp only [extrema, extremaBy, pure_bind, hi.toFiniteStep.same_sub, hi.not_flat,
    hi.toFiniteStep.sub_pos]
  unfold ahead
  by_cases h : Rises s i <;> by_cases h' : Rises s j <;> simp [h, h']

theorem extrema_filter {l : List Nat} (hl : ∀ i ∈ l, FiniteStep s i) (after : Option Bool) :
    extrema s l after = extrema s (l.filter fun i => !isFlat s i) after := by
  induction l generalizing after with
  | nil => rfl
  | cons i rest ih =>
    have hrest := ih fun j hj => hl j (List.mem_cons_of_mem i hj)
    cases hflat : isFlat s i with
    | true =>
      rw [extrema_of_flat (hl i List.mem_cons_self) hflat,
        List.filter_cons_of_neg (by simp [hflat])]
      exact hrest after
    | false =>
      have hread : ∀ after, extremaBy (fun i => (pure (s.getD i 0) : Id α)) rest after =
          extremaBy (fun i => pure (s.getD i 0)) (rest.filter fun i => !isFlat s i) after :=
        fun after => hrest after
      rw [List.filter_cons_of_pos (by simp [hflat])]
      simp only [extrema, extremaBy, hread]

/-- The scan has taken the move `j` and goes on with the moves before it. -/
theorem extrema_reverse_of_move {l : List Nat} (hl : ∀ i ∈ l, IsMove s i) (hj : IsMove s j) :
    extrema s l.reverse (some (decide (Rises s j))) = (turns s (l ++ [j])).reverse := by
  induction l using List.reverseRecOn generalizing j with
  | nil => rfl
  | append_singleton l i ih =>
    have hi : IsMove s i := hl i (by simp)
    have hscan := ih (fun k hk => hl k (by simp [hk])) hi
    have hturns : turns s (l ++ [i] ++ [j]) = turns s (l ++ [i]) ++ (turn? s i j).toList := by
      rw [List.append_assoc]
      exact turns_concat s l i j
    rw [List.reverse_concat, extrema_of_moves hi hj, hscan, hturns, List.reverse_append]
    cases turn? s i j <;> rfl

theorem extrema_reverse {l : List Nat} (hl : ∀ i ∈ l, IsMove s i) :
    extrema s l.reverse none = (turns s l).reverse := by
  cases l using List.reverseRecOn with
  | nil => rfl
  | append_singleton l i =>
    have hi : IsMove s i := hl i (by simp)
    rw [List.reverse_concat, extrema_of_move hi]
    exact extrema_reverse_of_move (fun k hk => hl k (by simp [hk])) hi

end Scan

/-!
## Order and kinds
-/

/-- The second turning point is of the other kind, and later. -/
def Alternates (p q : Extremum × Nat) : Prop :=
  p.1 ≠ q.1 ∧ p.2 < q.2

section Order

variable [SignedDifferences α]

-- The extremum behind the first move may lie before the window. Put in front of the turning points
-- it makes the chain one that a further move can be added to.
theorem isChain_turns {l : List Nat} (hl : ∀ k ∈ i :: l, IsMove s k)
    (hsorted : (i :: l).Pairwise (· < ·)) :
    ((behind s i, i) :: turns s (i :: l)).IsChain Alternates := by
  induction l generalizing i with
  | nil => exact List.isChain_singleton _
  | cons j rest ih =>
    have hi := hl i List.mem_cons_self
    have hj := hl j (by simp)
    have hij : i < j := List.rel_of_pairwise_cons hsorted List.mem_cons_self
    have hchain := ih (fun k hk => hl k (List.mem_cons_of_mem i hk)) hsorted.of_cons
    rw [turns, turn?_eq hi hj]
    by_cases hsame : decide (Rises s i) = decide (Rises s j)
    · have hbehind : behind s i = behind s j := by
        simp only [behind, decide_eq_decide.mp hsame]
      rw [if_pos hsame, hbehind]
      exact hchain.imp_head fun h => ⟨h.1, hij.trans h.2⟩
    · have hahead : ahead s i = behind s j := by
        unfold ahead behind
        by_cases h : Rises s i <;> by_cases h' : Rises s j <;> simp [h, h'] at hsame ⊢
      rw [if_neg hsame]
      refine List.IsChain.cons_cons ⟨behind_ne_ahead s i, Nat.lt_succ_self i⟩ ?_
      rw [hahead]
      exact hchain.imp_head fun h => ⟨h.1, lt_of_le_of_lt hij h.2⟩

theorem isChain_turningPoints (hs : allFinite s = true) :
    (turningPoints s).IsChain Alternates := by
  have hmoves := fun i hi => isMove_of_mem_moves (i := i) hs hi
  have hsorted := pairwise_moves s
  unfold turningPoints
  cases hm : moves s with
  | nil => exact List.isChain_nil
  | cons i l =>
    rw [hm] at hmoves hsorted
    exact (isChain_turns hmoves hsorted).tail

end Order

/-!
## The latest pair
-/

theorem exists_eq_append_pair {points : List (Extremum × Nat)} (h : 2 ≤ points.length) :
    ∃ earlier p q, points = earlier ++ [p, q] := by
  rcases List.eq_nil_or_concat points with rfl | ⟨l, q, rfl⟩
  · exact absurd h (by decide)
  · rcases List.eq_nil_or_concat l with rfl | ⟨earlier, p, rfl⟩
    · exact absurd h (by simp)
    · exact ⟨earlier, p, q, by simp⟩

theorem oppositePair_reverse (earlier : List (Extremum × Nat)) {p q : Extremum × Nat}
    (h : p.1 ≠ q.1) : oppositePair (earlier ++ [p, q]).reverse = some (q.2, p.2) := by
  have hother : (p.1 != q.1) = true := bne_iff_ne.mpr h
  have hreverse : (earlier ++ [p, q]).reverse = q :: p :: earlier.reverse := by
    rw [List.reverse_append]
    rfl
  rw [hreverse, oppositePair, List.find?_cons, hother]
  rfl

theorem oppositePair_reverse_of_lt {points : List (Extremum × Nat)} (h : points.length < 2) :
    oppositePair points.reverse = none := by
  cases points with
  | nil => rfl
  | cons p rest =>
    cases rest with
    | nil => rfl
    | cons q rest => exact absurd h (by simp)

theorem latestPair_eq (s : Array α) :
    latestPair s =
      oppositePair (extrema s (List.Ico (windowStart s) (s.size - 1)).reverse none) := by
  have hlength : s.size - 1 - windowStart s = windowLength s.size - 1 := by
    unfold windowStart windowLength
    omega
  unfold latestPair latestPairBy List.Ico
  rw [hlength]
  dsimp only
  split_ifs with hshort
  · have hnone : windowLength s.size - 1 = 0 := by
      unfold windowLength at hshort ⊢
      omega
    rw [hnone]
    rfl
  · rfl

section Latest

variable [SignedDifferences α]

theorem latestPair_eq_turningPoints (hs : allFinite s = true) :
    latestPair s = oppositePair (turningPoints s).reverse := by
  have hsteps : ∀ i ∈ (List.Ico (windowStart s) (s.size - 1)).reverse, FiniteStep s i := by
    intro i hi
    rw [List.mem_reverse, List.Ico.mem] at hi
    exact finiteStep hs (Nat.add_lt_of_lt_sub hi.2)
  rw [latestPair_eq, extrema_filter hsteps, List.filter_reverse]
  exact congrArg oppositePair (extrema_reverse fun i hi => isMove_of_mem_moves hs hi)

/-- The search finds the last two of the turning points, if there are two. They are of opposite
kinds and lie inside of the part that is looked at. -/
theorem latestPair_of_turningPoints (hs : allFinite s = true) :
    (2 ≤ (turningPoints s).length →
      ∃ earlier second first, turningPoints s = earlier ++ [second, first] ∧
        latestPair s = some (first.2, second.2) ∧ second.1 ≠ first.1 ∧
        windowStart s < second.2 ∧ second.2 < first.2 ∧ first.2 + 1 < s.size) ∧
    ((turningPoints s).length < 2 → latestPair s = none) := by
  rw [latestPair_eq_turningPoints hs]
  refine ⟨fun hlength => ?_, oppositePair_reverse_of_lt⟩
  obtain ⟨earlier, second, first, hpoints⟩ := exists_eq_append_pair hlength
  have halternates : Alternates second first := by
    have hchain := isChain_turningPoints hs
    rw [hpoints] at hchain
    exact List.isChain_pair.mp hchain.right_of_append
  have hsecond := lt_of_mem_turningPoints (s := s) (p := second) (by simp [hpoints])
  have hfirst := lt_of_mem_turningPoints (s := s) (p := first) (by simp [hpoints])
  refine ⟨earlier, second, first, hpoints, ?_, halternates.1, hsecond.1, halternates.2, hfirst.2⟩
  rw [hpoints]
  exact oppositePair_reverse earlier halternates.1

end Latest

def plateaus : Array Float :=
  #[9, 8, 7, 6, 5, 4, 3, 2, 1, 1, 2, 3, 3, 2, 1]

theorem latestPair_plateaus :
    allFinite plateaus = true ∧ turningPoints plateaus = [(.trough, 8), (.peak, 11)] ∧
      latestPair plateaus = some (11, 8) := by
  have hfinite : allFinite plateaus = true := by decide +kernel
  have hpoints : turningPoints plateaus = [(.trough, 8), (.peak, 11)] := by decide +kernel
  refine ⟨hfinite, hpoints, ?_⟩
  obtain ⟨earlier, second, first, hlast, hpair, -⟩ :=
    (latestPair_of_turningPoints hfinite).1 (by rw [hpoints]; decide)
  have hsplit : earlier ++ [second, first] = [] ++ [(.trough, 8), (.peak, 11)] :=
    hlast.symm.trans hpoints
  cases (List.append_inj' hsplit rfl).2
  exact hpair

end Oscillation
end SoftMargin
