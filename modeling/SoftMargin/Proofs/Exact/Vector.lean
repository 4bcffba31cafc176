import SoftMargin.Proofs.Exact.Scalar
import SoftMargin.Vector.Basic

/-!
# Vectors of exact scalars

A vector is read through its entries, which are zero beyond its end. Each
operation is described by what it does to them. Over exact scalars the
blockwise sums are plain sums, whatever the length.
-/

namespace SoftMargin

open Scalar Finset

variable {K : Type} [ExactScalar K]

/-!
## Entries
-/

theorem getD_of_size_le {β : Type} (x : Array β) (d : β) {i : Nat} (h : x.size ≤ i) :
    x.getD i d = d := by
  rw [Array.getD_eq_getD_getElem?, Array.getElem?_eq_none h, Option.getD_none]

theorem getD_of_lt {β : Type} (x : Array β) (d : β) {i : Nat} (h : i < x.size) :
    x.getD i d = x[i] := by
  rw [Array.getD_eq_getD_getElem?, Array.getElem?_eq_getElem h, Option.getD_some]

theorem getElem?_eq_getD {β : Type} (xs : Array β) (d : β) {i : Nat} (h : i < xs.size) :
    xs[i]? = some (xs.getD i d) := by
  rw [Array.getElem?_eq_getElem h, getD_of_lt xs d h]

theorem ext_getD {β : Type} {x y : Array β} (d : β) (hsize : x.size = y.size)
    (h : ∀ i < x.size, x.getD i d = y.getD i d) : x = y := by
  apply Array.ext hsize
  intro i hx hy
  have hi := h i hx
  rwa [getD_of_lt x d hx, getD_of_lt y d hy] at hi

theorem isFinite_getD_of_lt {α : Type} [Scalar α] {x : Array α} (h : allFinite x = true) {i : Nat}
    (hi : i < x.size) : isFinite (x.getD i 0) = true := by
  rw [getD_of_lt x 0 hi]
  exact Array.all_eq_true_iff_forall_mem.mp h _ (Array.getElem_mem hi)

@[simp] theorem size_zeros {α : Type} [Scalar α] (n : Nat) : (zeros n : Array α).size = n :=
  Array.size_replicate

@[simp] theorem getD_zeros (n i : Nat) : (zeros n : Array K).getD i 0 = 0 := by
  by_cases h : i < n
  · rw [getD_of_lt _ _ (by simpa using h)]
    exact Array.getElem_replicate _
  · exact getD_of_size_le _ _ (by simpa using h)

@[simp] theorem size_combine (a b : K) (x y : Array K) :
    (combine a x b y).size = min x.size y.size :=
  Array.size_zipWith

theorem getD_combine (a b : K) {x y : Array K} (h : x.size = y.size) (i : Nat) :
    (combine a x b y).getD i 0 = a * x.getD i 0 + b * y.getD i 0 := by
  by_cases hi : i < x.size
  · have hiy : i < y.size := h ▸ hi
    rw [getD_of_lt x 0 hi, getD_of_lt y 0 hiy, getD_of_lt _ 0 (by rw [size_combine]; omega)]
    exact Array.getElem_zipWith _
  · rw [getD_of_size_le x 0 (by omega), getD_of_size_le y 0 (by omega),
      getD_of_size_le _ 0 (by rw [size_combine]; omega), mul_zero, mul_zero, add_zero]

@[simp] theorem size_positivePart (x : Array K) : (positivePart x).size = x.size :=
  Array.size_map

theorem getD_positivePart (x : Array K) (i : Nat) :
    (positivePart x).getD i 0 = max (x.getD i 0) 0 := by
  unfold positivePart
  by_cases hi : i < x.size
  · rw [getD_of_lt x 0 hi, getD_of_lt _ 0 (by simpa using hi), Array.getElem_map, pos_eq_max]
  · rw [getD_of_size_le x 0 (by omega), getD_of_size_le _ 0 (by simpa using hi), max_self]

theorem getD_append_left {β : Type} (x y : Array β) (d : β) {i : Nat} (h : i < x.size) :
    (x ++ y).getD i d = x.getD i d := by
  rw [getD_of_lt x d h, getD_of_lt _ d (by rw [Array.size_append]; omega),
    Array.getElem_append_left h]

theorem getD_append_right {β : Type} (x y : Array β) (d : β) {i : Nat} (h : x.size ≤ i) :
    (x ++ y).getD i d = y.getD (i - x.size) d := by
  by_cases hi : i < (x ++ y).size
  · have hy : i - x.size < y.size := by
      rw [Array.size_append] at hi
      omega
    rw [getD_of_lt _ d hi, getD_of_lt y d hy, Array.getElem_append_right h]
  · rw [getD_of_size_le _ d (by omega), getD_of_size_le y d (by
      rw [Array.size_append] at hi
      omega)]

theorem getD_extract {β : Type} (x : Array β) (d : β) {first last i : Nat}
    (h : i < last - first) : (x.extract first last).getD i d = x.getD (first + i) d := by
  by_cases hi : first + i < x.size
  · rw [getD_of_lt x d hi, getD_of_lt _ d (by rw [Array.size_extract]; omega),
      Array.getElem_extract]
  · rw [getD_of_size_le x d (by omega), getD_of_size_le _ d (by rw [Array.size_extract]; omega)]

theorem getD_map {β γ : Type} (f : β → γ) (x : Array β) (d : β) (d' : γ) {i : Nat}
    (h : i < x.size) : (x.map f).getD i d' = f (x.getD i d) := by
  rw [getD_of_lt x d h, getD_of_lt _ d' (by simpa using h), Array.getElem_map]

theorem getD_modify {β : Type} (x : Array β) (d : β) (f : β → β) (i j : Nat) :
    (x.modify i f).getD j d = if i = j ∧ i < x.size then f (x.getD j d) else x.getD j d := by
  rw [Array.getD_eq_getD_getElem?, Array.getD_eq_getD_getElem?, Array.getElem?_modify]
  by_cases hij : i = j
  · subst hij
    by_cases hi : i < x.size
    · rw [if_pos rfl, if_pos ⟨rfl, hi⟩, Array.getElem?_eq_getElem hi]
      rfl
    · rw [if_pos rfl, if_neg fun hand => hi hand.right, Array.getElem?_eq_none (by omega)]
      rfl
  · rw [if_neg hij, if_neg fun hand => hij hand.left]

omit [ExactScalar K] in
theorem overwriteMap_eq_map (f : K → K) {x v : Array K} (h : v.size = x.size) :
    overwriteMap f x v = v.map f := by
  simp [overwriteMap, h.symm]

/-!
## Loops
-/

theorem foldl_range_induction {σ : Type} (Inv : Nat → σ → Prop) (f : σ → Nat → σ) (n : Nat)
    (start : σ) (hstart : Inv 0 start) (hstep : ∀ k < n, ∀ s, Inv k s → Inv (k + 1) (f s k)) :
    Inv n ((List.range n).foldl f start) := by
  induction n with
  | zero => exact hstart
  | succ n ih =>
      rw [List.range_succ, List.foldl_append]
      exact hstep n (Nat.lt_succ_self n) _ (ih fun k hk => hstep k (hk.trans (Nat.lt_succ_self n)))

theorem foldl_eq_foldl_range {β σ : Type} (f : σ → β → σ) (xs : Array β) (d : β) (start : σ) :
    xs.foldl f start = (List.range xs.size).foldl (fun s i => f s (xs.getD i d)) start := by
  have hlist : xs.toList = (List.range xs.size).map fun i => xs.getD i d := by
    apply List.ext_getElem
    · simp
    · intro i hi hi'
      rw [List.getElem_map, List.getElem_range, Array.getElem_toList, getD_of_lt xs d]
  rw [← Array.foldl_toList, hlist, List.foldl_map]

theorem foldr_range_induction {σ : Type} (Inv : Nat → σ → Prop) (f : Nat → σ → σ) (n : Nat)
    (start : σ) (hstart : Inv n start) (hstep : ∀ k < n, ∀ s, Inv (k + 1) s → Inv k (f k s)) :
    Inv 0 ((List.range n).foldr f start) := by
  induction n generalizing start with
  | zero => exact hstart
  | succ n ih =>
      rw [List.range_succ, List.foldr_append]
      exact ih _ (hstep n (Nat.lt_succ_self n) _ hstart)
        fun k hk => hstep k (hk.trans (Nat.lt_succ_self n))

/-!
## Sums
-/

theorem foldl_add_eq (xs : List K) (start : K) :
    xs.foldl (· + ·) start = start + xs.sum := by
  induction xs generalizing start with
  | nil => simp
  | cons x rest ih =>
      rw [List.foldl_cons, ih, List.sum_cons, add_assoc]

theorem sum_range_of_zero {n j : Nat} (hj : j ≤ n) {f : Nat → K}
    (hf : ∀ m < n, j ≤ m → f m = 0) : ∑ m ∈ range n, f m = ∑ m ∈ range j, f m := by
  refine (sum_subset (range_mono hj) ?_).symm
  intro m hm hmj
  exact hf m (mem_range.mp hm) (Nat.not_lt.mp fun hlt => hmj (mem_range.mpr hlt))

namespace BlockSum

theorem sum_blockTotals (xs : List K) : (blockTotals xs).sum = xs.sum := by
  fun_induction blockTotals xs with
  | case1 xs h =>
      unfold runningTotal
      rw [List.sum_singleton, foldl_add_eq, zero_add]
  | case2 xs h ih =>
      unfold runningTotal
      rw [List.sum_cons, ih, foldl_add_eq, zero_add, List.sum_take_add_sum_drop]

theorem sum_addNeighbours (xs : List K) : (addNeighbours xs).sum = xs.sum := by
  fun_induction addNeighbours xs with
  | case1 x y rest ih =>
      rw [List.sum_cons, ih, List.sum_cons, List.sum_cons, add_assoc]
  | case2 rest h => rfl

theorem mergeTotals_eq_sum (totals : List K) : mergeTotals totals = totals.sum := by
  fun_induction mergeTotals totals with
  | case1 => rfl
  | case2 total => simp
  | case3 x y rest ih => rw [ih, sum_addNeighbours]

end BlockSum

theorem blockSum_eq_sum (xs : List K) : blockSum xs = xs.sum := by
  unfold blockSum
  rw [BlockSum.mergeTotals_eq_sum, BlockSum.sum_blockTotals]

theorem list_sum_map_eq_sum_range {β : Type} (xs : List β) (d : β) (g : β → K) :
    (xs.map g).sum = ∑ i ∈ range xs.length, g (xs.getD i d) := by
  induction xs with
  | nil => rfl
  | cons x rest ih =>
      rw [List.map_cons, List.sum_cons, List.length_cons, sum_range_succ', ih, add_comm]
      rfl

theorem list_sum_eq_sum_range (xs : List K) :
    xs.sum = ∑ i ∈ range xs.length, xs.getD i 0 := by
  rw [← list_sum_map_eq_sum_range xs 0 fun x => x, List.map_id']

theorem sum_eq_sum_range (x : Array K) {n : Nat} (h : x.size = n) :
    sum x = ∑ i ∈ range n, x.getD i 0 := by
  unfold sum
  rw [blockSum_eq_sum, list_sum_eq_sum_range, Array.length_toList, h]
  apply sum_congr rfl
  intro i _
  rw [Array.getD_eq_getD_getElem?, List.getD_eq_getElem?_getD, Array.getElem?_toList]

theorem dot_eq_sum (x y : Array K) {n : Nat} (hx : x.size = n) (hy : y.size = n) :
    dot x y = ∑ i ∈ range n, x.getD i 0 * y.getD i 0 := by
  have hsize : (Array.zipWith (· * ·) x y).size = n := by
    rw [Array.size_zipWith, hx, hy, min_self]
  refine (sum_eq_sum_range _ hsize).trans (sum_congr rfl ?_)
  intro i hi
  have hin := mem_range.mp hi
  rw [getD_of_lt x 0 (by omega), getD_of_lt y 0 (by omega), getD_of_lt _ 0 (by omega)]
  exact Array.getElem_zipWith _

theorem eq_zero_of_sum_sq {f : Nat → K} {n : Nat} (h : ∑ k ∈ range n, f k ^ 2 = 0) {k : Nat}
    (hk : k < n) : f k = 0 := by
  have hterm := (sum_eq_zero_iff_of_nonneg fun k _ => sq_nonneg (f k)).mp h k (mem_range.mpr hk)
  exact (pow_eq_zero_iff two_ne_zero).mp hterm

theorem eq_of_sum_sq_sub {x y : Array K} (hsize : x.size = y.size)
    (h : ∑ k ∈ range x.size, (x.getD k 0 - y.getD k 0) ^ 2 = 0) : x = y := by
  apply ext_getD 0 hsize
  intro k hk
  exact sub_eq_zero.mp (eq_zero_of_sum_sq h hk)

theorem squaredDistance_eq_sum (x y : Array K) {n : Nat} (hx : x.size = n) (hy : y.size = n) :
    squaredDistance x y = ∑ i ∈ range n, (x.getD i 0 - y.getD i 0) ^ 2 := by
  have hsize : (Array.zipWith (fun u v => square (u - v)) x y).size = n := by
    rw [Array.size_zipWith, hx, hy, min_self]
  refine (sum_eq_sum_range _ hsize).trans (sum_congr rfl ?_)
  intro i hi
  have hin := mem_range.mp hi
  rw [getD_of_lt x 0 (by omega), getD_of_lt y 0 (by omega), getD_of_lt _ 0 (by omega), pow_two]
  exact Array.getElem_zipWith _

/-!
## Extreme entries
-/

omit [ExactScalar K] in
/-- Picking one of two, over and over, ends with an entry that stands before all. -/
theorem foldl_pick {r : K → K → Prop} {pick : K → K → K} (hrefl : ∀ a, r a a)
    (htrans : ∀ a b c, r a b → r b c → r a c)
    (hpick : ∀ a b, (pick a b = a ∨ pick a b = b) ∧ r (pick a b) a ∧ r (pick a b) b)
    (first : K) (rest : List K) :
    rest.foldl pick first ∈ first :: rest ∧ ∀ x ∈ first :: rest, r (rest.foldl pick first) x := by
  induction rest generalizing first with
  | nil => simp [hrefl]
  | cons y rest ih =>
      rcases ih (pick first y) with ⟨hmem, hbefore⟩
      rcases hpick first y with ⟨hone, hfirst, hy⟩
      have hpicked := hbefore _ List.mem_cons_self
      constructor
      · rw [List.foldl_cons]
        rcases List.mem_cons.mp hmem with heq | hrest
        · rw [heq]
          rcases hone with h | h
          · simp [h]
          · simp [h]
        · simp [hrest]
      · intro x hx
        rcases List.mem_cons.mp hx with rfl | hx
        · exact htrans _ _ _ hpicked hfirst
        · rcases List.mem_cons.mp hx with rfl | hx
          · exact htrans _ _ _ hpicked hy
          · exact hbefore x (List.mem_cons_of_mem _ hx)

theorem smaller_eq_min (a b : K) : smaller a b = min a b := by
  unfold smaller
  by_cases h : b < a
  · rw [if_pos h, min_eq_right h.le]
  · rw [if_neg h, if_pos (le_refl a), min_eq_left (not_lt.mp h)]

theorem least_spec {x : Array K} (hx : 0 < x.size) :
    least x ∈ x ∧ ∀ v ∈ x, least x ≤ v := by
  have hdefined : x.toList.filter (fun v => !isUndefined v) = x.toList := by
    simp [isUndefined_exact]
  cases hlist : x.toList with
  | nil => simp [Array.toList_eq_nil_iff.mp hlist] at hx
  | cons first rest =>
      simp only [Array.mem_def, hlist]
      unfold least
      rw [hdefined, hlist]
      exact foldl_pick le_refl (fun _ _ _ => le_trans)
        (fun a b => by
          rw [smaller_eq_min]
          exact ⟨min_choice a b, min_le_left a b, min_le_right a b⟩) first rest

theorem greatest_spec {x : Array K} (hx : 0 < x.size) :
    greatest x ∈ x ∧ ∀ v ∈ x, v ≤ greatest x := by
  have hdefined : x.toList.filter (fun v => !isUndefined v) = x.toList := by
    simp [isUndefined_exact]
  cases hlist : x.toList with
  | nil => simp [Array.toList_eq_nil_iff.mp hlist] at hx
  | cons first rest =>
      simp only [Array.mem_def, hlist]
      unfold greatest
      rw [hdefined, hlist]
      exact foldl_pick (r := fun a b => b ≤ a) le_refl (fun _ _ _ hab hbc => hbc.trans hab)
        (fun a b => by
          rw [larger_eq_max]
          exact ⟨max_choice a b, le_max_left a b, le_max_right a b⟩) first rest

/-!
## The largest magnitude
-/

theorem maxNorm_eq_foldl (x : Array K) : maxNorm x =
    (x.map magnitude).foldl (fun best v => if best < v then v else best) 0 := by
  have hany : (x.map magnitude).any isUndefined = false := by
    rw [Array.any_eq_false]
    intro i hi
    rw [isUndefined_exact]
    exact Bool.false_ne_true
  unfold maxNorm
  dsimp only
  rw [hany, if_neg Bool.false_ne_true]

theorem maxNorm_nonneg (x : Array K) : 0 ≤ maxNorm x := by
  rw [maxNorm_eq_foldl, foldl_eq_foldl_range _ _ 0]
  exact foldl_range_induction (fun _ (best : K) => 0 ≤ best) _ _ 0 (le_refl 0) (by
    intro i _ best hbest
    by_cases hlt : best < (x.map magnitude).getD i 0
    · rw [if_pos hlt]
      exact hbest.trans hlt.le
    · rw [if_neg hlt]
      exact hbest)

theorem maxNorm_zeros (n : Nat) : maxNorm (zeros n : Array K) = 0 := by
  have hmagnitude : magnitude (0 : K) = 0 := by
    unfold magnitude
    rw [if_neg (lt_irrefl 0), sub_zero]
  rw [maxNorm_eq_foldl, foldl_eq_foldl_range _ _ 0]
  exact foldl_range_induction (fun _ (best : K) => best = 0) _ _ 0 rfl (by
    intro i hi best hbest
    have hzero : (((zeros n : Array K).map magnitude).getD i 0) = 0 := by
      rw [getD_map _ _ 0 _ (by simpa using hi), getD_zeros, hmagnitude]
    rw [hzero, hbest, if_neg (lt_irrefl 0)])

theorem magnitude_le_maxNorm (x : Array K) {i : Nat} (hi : i < x.size) :
    magnitude (x.getD i 0) ≤ maxNorm x := by
  have hfold := foldl_range_induction
    (fun n (best : K) => ∀ i < n, (x.map magnitude).getD i 0 ≤ best)
    (fun best i => if best < (x.map magnitude).getD i 0 then (x.map magnitude).getD i 0 else best)
    x.size 0 (fun i hi => absurd hi (Nat.not_lt_zero i)) (by
      intro n _ best hbest i hi
      by_cases hlt : best < (x.map magnitude).getD n 0
      · rw [if_pos hlt]
        rcases Nat.lt_succ_iff_lt_or_eq.mp hi with hin | rfl
        · exact (hbest i hin).trans hlt.le
        · exact le_refl _
      · rw [if_neg hlt]
        rcases Nat.lt_succ_iff_lt_or_eq.mp hi with hin | rfl
        · exact hbest i hin
        · exact not_lt.mp hlt)
  rw [maxNorm_eq_foldl, foldl_eq_foldl_range _ _ 0, Array.size_map, ← getD_map magnitude x 0 0 hi]
  exact hfold i hi

theorem maxNorm_eq_zero_or (x : Array K) :
    maxNorm x = 0 ∨ ∃ i < x.size, maxNorm x = magnitude (x.getD i 0) := by
  rw [maxNorm_eq_foldl, foldl_eq_foldl_range _ _ 0, Array.size_map]
  refine foldl_range_induction
    (fun _ (best : K) => best = 0 ∨ ∃ i < x.size, best = magnitude (x.getD i 0)) _ x.size 0
    (.inl rfl) ?_
  intro i hi best hbest
  rw [getD_map magnitude x 0 0 hi]
  by_cases hlt : best < magnitude (x.getD i 0)
  · rw [if_pos hlt]
    exact .inr ⟨i, hi, rfl⟩
  · rw [if_neg hlt]
    exact hbest

theorem maxNorm_isGreatest {x : Array K} (hx : 0 < x.size) :
    IsGreatest {v | ∃ i < x.size, |x.getD i 0| = v} (maxNorm x) := by
  have hle : ∀ i < x.size, |x.getD i 0| ≤ maxNorm x := by
    intro i hi
    rw [← magnitude_eq_abs]
    exact magnitude_le_maxNorm x hi
  constructor
  · rcases maxNorm_eq_zero_or x with hzero | ⟨i, hi, heq⟩
    · refine ⟨0, hx, le_antisymm (hle 0 hx) ?_⟩
      rw [hzero]
      exact abs_nonneg _
    · exact ⟨i, hi, (heq.trans (magnitude_eq_abs _)).symm⟩
  · rintro v ⟨i, hi, rfl⟩
    exact hle i hi
theorem getD_eq_zero_of_maxNorm {x : Array K} (h : maxNorm x = 0) (i : Nat) : x.getD i 0 = 0 := by
  rcases Nat.lt_or_ge i x.size with hi | hi
  · have hle := magnitude_le_maxNorm x hi
    rw [h] at hle
    unfold magnitude at hle
    by_cases hpos : 0 < x.getD i 0
    · rw [if_pos hpos] at hle
      exact absurd hpos (not_lt.mpr hle)
    · rw [if_neg hpos, zero_sub, neg_nonpos] at hle
      exact le_antisymm (not_lt.mp hpos) hle
  · exact getD_of_size_le x 0 hi

end SoftMargin
