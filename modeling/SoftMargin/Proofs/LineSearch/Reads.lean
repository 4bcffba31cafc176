import SoftMargin.Proofs.LineSearch.Oscillation
import SoftMargin.Proofs.Trace.Storage
import SoftMargin.LineSearch.Basic

/-!
# What a line search reads

The ends of the segment are computed from entries of the trace that are asked for
one by one. Whoever answers, on a trace that is filled only recorded entries are
asked for, so the ends are those of the plain reading. One that refuses all other
entries gives them too.
-/

namespace SoftMargin

open Scalar

variable {α : Type} [Scalar α] {m : Type → Type} [Monad m] [LawfulMonad m]

/-!
## Lists
-/

omit [Scalar α] in
theorem mapM_eq_pure_map {β γ : Type} {f : β → m γ} {g : β → γ} {l : List β}
    (h : ∀ x ∈ l, f x = pure (g x)) : l.mapM f = pure (l.map g) := by
  induction l with
  | nil => rfl
  | cons x rest ih =>
      rw [List.mapM_cons, h x List.mem_cons_self, pure_bind,
        ih fun y hy => h y (List.mem_cons_of_mem x hy), pure_bind]
      rfl

namespace Sorting

variable {β γ : Type} {lt : β → β → Bool} {lt' : γ → γ → Bool} {f : β → γ}

theorem insertBack_map (h : ∀ a b, lt' (f a) (f b) = lt a b) (x : β) (ys : List β) :
    insertBack lt' (f x) (ys.map f) = (insertBack lt x ys).map f := by
  induction ys with
  | nil => rfl
  | cons y rest ih =>
      simp only [List.map_cons, insertBack, h, ih]
      cases lt x y with
      | true => rfl
      | false => rfl

theorem stableSort_map (h : ∀ a b, lt' (f a) (f b) = lt a b) (xs : List β) :
    stableSort lt' (xs.map f) = (stableSort lt xs).map f := by
  suffices hplaced : ∀ placed : List β,
      (xs.map f).foldl (fun placed x => insertBack lt' x placed) (placed.map f) =
        (xs.foldl (fun placed x => insertBack lt x placed) placed).map f by
    unfold stableSort
    rw [List.map_reverse, ← hplaced []]
    rfl
  induction xs with
  | nil =>
      intro placed
      rfl
  | cons x rest ih =>
      intro placed
      rw [List.map_cons, List.foldl_cons, insertBack_map h]
      exact ih (insertBack lt x placed)

end Sorting

/-!
## The scan
-/

namespace Oscillation

variable {s : Array α} {read : Nat → m α}

theorem extremaBy_eq {steps : List Nat}
    (h : ∀ i ∈ steps, read (i + 1) = pure (s.getD (i + 1) 0) ∧ read i = pure (s.getD i 0))
    (after : Option Bool) : extremaBy read steps after = pure (extrema s steps after) := by
  induction steps generalizing after with
  | nil => rfl
  | cons i rest ih =>
      obtain ⟨hnext, hthis⟩ := h i List.mem_cons_self
      have hrest := ih fun j hj => h j (List.mem_cons_of_mem i hj)
      simp only [extrema, extremaBy, hnext, hthis, hrest, pure_bind]
      generalize s.getD (i + 1) 0 - s.getD i 0 = step
      cases after with
      | none => split_ifs <;> rfl
      | some later =>
          dsimp only
          split_ifs <;> rfl

/-- The scan asks for entries of the sequence only. -/
theorem latestPairBy_eq (h : ∀ i < s.size, read i = pure (s.getD i 0)) :
    latestPairBy read s.size = pure (latestPair s) := by
  have hsteps : ∀ i ∈ (List.range' (s.size - windowLength s.size)
      (windowLength s.size - 1)).reverse, i + 1 < s.size := by
    intro i hi
    have hrange := List.mem_range'_1.mp (List.mem_reverse.mp hi)
    have hwindow : windowLength s.size ≤ s.size := by
      unfold windowLength
      omega
    omega
  unfold latestPair latestPairBy
  dsimp only
  rw [extremaBy_eq fun i hi => ⟨h (i + 1) (hsteps i hi), h i (Nat.lt_of_succ_lt (hsteps i hi))⟩]
  split_ifs
  · rfl
  · rw [pure_bind]
    rfl

end Oscillation

/-!
## Readings
-/

namespace LineSearch

variable {t : Trace α} {r : Reading m α}

structure Reading.Answers (r : Reading m α) (t : Trace α) : Prop where
  dual : ∀ k < t.sNorm.size, r.dual t k = pure (t.sNorm.getD k 0)
  consensus : ∀ k < t.length, r.consensus t k = pure (t.consensusAt k)

/-- Whatever was not recorded is refused. -/
def Reading.checked : Reading Option α where
  dual t k := t.sNorm[k]?
  consensus := Trace.consensusAt?

theorem Reading.answers_checked (hfilled : t.IsFilled) : Reading.checked.Answers t := by
  constructor
  · intro k hk
    show t.sNorm[k]? = some _
    rw [getD_of_lt _ _ hk, Array.getElem?_eq_getElem hk]
  · intro k hk
    show slice? _ _ _ = some _
    unfold slice?
    rw [hfilled.size_consensus,
      if_pos ⟨Nat.mul_le_mul_right _ k.le_succ, Nat.mul_le_mul_right _ hk⟩]
    rfl

/-!
## The ends
-/

omit [Scalar α] [Monad m] [LawfulMonad m] in
theorem lt_of_mem_near {i n k : Nat} (h : k ∈ near i n) : k < n := by
  unfold near at h
  dsimp only at h
  have hk := List.mem_range'_1.mp h
  omega

theorem rankedBy_eq_pure (h : ∀ i < t.length, r.dual t i = pure (t.sNorm.getD i 0)) :
    rankedBy r t = pure (Sorting.stableSort (fun i j => t.sNorm.getD i 0 < t.sNorm.getD j 0)
      (List.range' (t.length - shallowWindow t.length) (shallowWindow t.length))) := by
  have hwindow : shallowWindow t.length ≤ t.length := Nat.min_le_right _ _
  have hkeyed : ∀ i ∈ List.range' (t.length - shallowWindow t.length) (shallowWindow t.length),
      (do return (← r.dual t i, i)) = (pure (t.sNorm.getD i 0, i) : m (α × Nat)) := by
    intro i hi
    have hrange := List.mem_range'_1.mp hi
    rw [h i (by omega), pure_bind]
  unfold rankedBy
  dsimp only
  rw [mapM_eq_pure_map hkeyed, pure_bind,
    Sorting.stableSort_map (f := fun i => (t.sNorm.getD i 0, i)) fun _ _ => rfl, List.map_map]
  simp only [Function.comp_def, List.map_id']

theorem ranked_eq (t : Trace α) : ranked t =
    Sorting.stableSort (fun i j => t.sNorm.getD i 0 < t.sNorm.getD j 0)
      (List.range' (t.length - shallowWindow t.length) (shallowWindow t.length)) :=
  rankedBy_eq_pure (r := .plain) fun _ _ => rfl

theorem lt_of_mem_ranked {k : Nat} (h : k ∈ ranked t) : k < t.length := by
  rw [ranked_eq] at h
  have hk := List.mem_range'_1.mp ((Sorting.stableSort_perm _ _).mem_iff.mp h)
  have hwindow : shallowWindow t.length ≤ t.length := Nat.min_le_right _ _
  omega

theorem meanBy_eq_pure {iterations : List Nat}
    (h : ∀ k ∈ iterations, r.consensus t k = pure (t.consensusAt k)) : meanBy r t iterations =
      let total := iterations.foldl (fun acc k => combine 1 (t.consensusAt k) 1 acc) (zeros t.width)
      pure (if iterations.isEmpty then total else scale total (recip (iterations.length : α))) := by
  unfold meanBy
  rw [mapM_eq_pure_map h, pure_bind, List.foldl_map]

theorem mean_eq (t : Trace α) (iterations : List Nat) : mean t iterations =
    let total := iterations.foldl (fun acc k => combine 1 (t.consensusAt k) 1 acc) (zeros t.width)
    if iterations.isEmpty then total else scale total (recip (iterations.length : α)) :=
  meanBy_eq_pure (r := .plain) fun _ _ => rfl

theorem deepEnds_eq (t : Trace α) : deepEnds? t =
    (Oscillation.latestPair t.sNorm).map fun (i, j) =>
      (mean t (near i t.length), mean t (near j t.length)) := by
  have hpair : Oscillation.latestPairBy (Reading.plain.dual t) t.sNorm.size =
      pure (Oscillation.latestPair t.sNorm) := rfl
  unfold deepEnds? deepEndsBy
  rw [hpair, pure_bind]
  cases Oscillation.latestPair t.sNorm with
  | none => rfl
  | some pair => rfl

theorem shallowEnds_eq {half : Nat}
    (hhalf : half = min (max ((ranked t).length / 2) 1) (ranked t).length) : shallowEnds t =
      (mean t ((ranked t).take half), if (ranked t).drop half = [] then
        mean t ((ranked t).take half) else mean t ((ranked t).drop half)) := by
  have horder : rankedBy Reading.plain t = pure (ranked t) := rfl
  unfold shallowEnds shallowEndsBy
  rw [horder, pure_bind, ← hhalf]
  dsimp only
  cases (ranked t).drop half with
  | nil => rfl
  | cons k rest => rfl

theorem ends_eq (deepMinIter : Nat) (t : Trace α) : ends deepMinIter t =
    match if deepMinIter < t.length then deepEnds? t else none with
    | some (first, last) => (.deep, first, last)
    | none => (.shallow, shallowEnds t) := by
  unfold ends endsBy
  by_cases hlong : deepMinIter < t.length
  · rw [if_pos hlong, if_pos hlong]
    show (match deepEnds? t with | some (first, last) => _ | none => _ : Id _) = _
    cases deepEnds? t with
    | none => rfl
    | some pair => rfl
  · rw [if_neg hlong, if_neg hlong]
    rfl

section Answers

variable (h : r.Answers t)

include h

theorem meanBy_eq {iterations : List Nat} (hrecorded : ∀ k ∈ iterations, k < t.length) :
    meanBy r t iterations = pure (mean t iterations) := by
  rw [mean_eq]
  exact meanBy_eq_pure fun k hk => h.consensus k (hrecorded k hk)

theorem deepEndsBy_eq : deepEndsBy r t = pure (deepEnds? t) := by
  unfold deepEndsBy
  rw [Oscillation.latestPairBy_eq h.dual, pure_bind, deepEnds_eq]
  cases Oscillation.latestPair t.sNorm with
  | none => rfl
  | some pair =>
      dsimp only
      rw [meanBy_eq h fun k => lt_of_mem_near, meanBy_eq h fun k => lt_of_mem_near, pure_bind,
        pure_bind]
      rfl

theorem rankedBy_eq (haligned : t.IsAligned) : rankedBy r t = pure (ranked t) := by
  rw [ranked_eq]
  exact rankedBy_eq_pure fun i hi => h.dual i (hi.trans_eq haligned.sNorm.symm)

theorem shallowEndsBy_eq (haligned : t.IsAligned) :
    shallowEndsBy r t = pure (shallowEnds t) := by
  have hbetter : ∀ half, meanBy r t ((ranked t).take half) = pure (mean t ((ranked t).take half)) :=
    fun half => meanBy_eq h fun k hk => lt_of_mem_ranked (List.mem_of_mem_take hk)
  have hworse : ∀ half, meanBy r t ((ranked t).drop half) = pure (mean t ((ranked t).drop half)) :=
    fun half => meanBy_eq h fun k hk => lt_of_mem_ranked (List.mem_of_mem_drop hk)
  obtain ⟨half, hhalf⟩ : ∃ half, half = min (max ((ranked t).length / 2) 1) (ranked t).length :=
    ⟨_, rfl⟩
  have hrest := hworse half
  unfold shallowEndsBy
  rw [rankedBy_eq h haligned, pure_bind, shallowEnds_eq hhalf]
  dsimp only
  rw [← hhalf, hbetter, pure_bind]
  cases hdrop : (ranked t).drop half with
  | nil => rfl
  | cons k rest =>
      rw [hdrop] at hrest
      dsimp only
      rw [hrest, pure_bind]
      rfl

theorem endsBy_eq (deepMinIter : Nat) (haligned : t.IsAligned) :
    endsBy r deepMinIter t = pure (ends deepMinIter t) := by
  rw [ends_eq]
  unfold endsBy
  dsimp only
  by_cases hlong : deepMinIter < t.length
  · rw [if_pos hlong, if_pos hlong, deepEndsBy_eq h, pure_bind]
    cases deepEnds? t with
    | none =>
        dsimp only
        rw [shallowEndsBy_eq h haligned, pure_bind]
    | some pair => rfl
  · rw [if_neg hlong, if_neg hlong, pure_bind]
    dsimp only
    rw [shallowEndsBy_eq h haligned, pure_bind]

end Answers

/-- The ends of the segment, if every entry of the trace that they are computed from was
recorded. -/
def readEnds (deepMinIter : Nat) (t : Trace α) :
    Option (LineSearchStrategy × Array α × Array α) :=
  endsBy .checked deepMinIter t

theorem readEnds_eq (deepMinIter : Nat) (haligned : t.IsAligned) (hfilled : t.IsFilled) :
    readEnds deepMinIter t = some (ends deepMinIter t) :=
  endsBy_eq (Reading.answers_checked hfilled) deepMinIter haligned

end LineSearch
end SoftMargin
