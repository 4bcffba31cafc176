import SoftMargin.Proofs.Dual.Selection
import SoftMargin.Proofs.Exact.Matrix
import SoftMargin.Proofs.Ldl.Access
import SoftMargin.Proofs.Program.Duality

/-!
# The equations for the multipliers

The points fall into those that violate the margin, those that are free, and the
rest. A multiplier for each point that is at the bound on the first kind and zero
on the last is given by its free values, and the equations say of these values
what the loads of the supported weights and the sum over all points are.
-/

namespace SoftMargin
namespace Dual

open Scalar Finset

variable {K : Type} [ExactScalar K]

theorem activeTolerance_pos : (0 : K) < activeTolerance := by
  show (0 : K) < ((OfScientific.ofScientific 1 true 5 : ℚ≥0) : K)
  exact NNRat.cast_pos.mpr (by norm_num)

/-!
## Points of three kinds
-/

section Points

variable (P : Problem K) (x : PrimalSolution K) (beta marginTol : K)

def violatingPoints : List Nat :=
  (List.range P.points).filter fun j => activeTolerance < x.xi.getD j 0

def otherPoints : List Nat :=
  (List.range P.points).filter fun j => !decide (activeTolerance < x.xi.getD j 0)

def support : Array Nat :=
  (Array.range P.features).filter fun k => activeTolerance < x.a.getD k 0

def required : Nat :=
  requiredCount P.bound (violatingPoints P x).length

def freePoints : List Nat :=
  selectFree (P.margins x.a) x.threshold (otherPoints P x) (required P x) marginTol

def posed : System K where
  violating := violatingPoints P x
  free := freePoints P x marginTol
  matrix := Matrix.ofFn ((support P x).size + 1) (freePoints P x marginTol).length fun r c =>
    match (support P x)[r]? with
    | some k => P.data.entry k ((freePoints P x marginTol).toArray.getD c 0)
    | none => 1
  target := ((support P x).map fun k => beta - P.bound *
      (violatingPoints P x).foldl (fun acc j => acc + P.data.entry k j) 0).push
    (1 - P.bound * ((violatingPoints P x).length : K))

theorem system_eq : system P.data P.bound x beta marginTol =
    if (support P x).size < required P x then
      .error (.overDetermined (required P x) (support P x).size)
    else
      .ok (posed P x beta marginTol) := by
  unfold system
  rw [List.partition_eq_filter_filter]
  rfl

def System.leastSquares (s : System K) (bound : K) : BoundedLeastSquares.Problem K :=
  ⟨s.matrix, s.target, zeros s.free.length, Array.replicate s.free.length bound⟩

/-- By how much the equations are missed. -/
def System.defects (s : System K) (values : Array K) : Array K :=
  s.matrix.mulAdd 1 values (-1) s.target

end Points

variable {P : Problem K} {x : PrimalSolution K} {beta marginTol : K}

def System.recovered (s : System K) (definite : BoundedLeastSquares.DefiniteSolver K)
    (P : Problem K) (beta : K) (settings : Settings K) :
    Except (DualRecoveryError K) (DualSolution K) :=
  match (s.leastSquares P.bound).solveBy definite with
  | .error source => .error (.leastSquares source)
  | .ok values =>
      let residual := maxNorm (s.defects values)
      if settings.checkResidual && !(residual ≤ settings.recoveryTol) then
        .error (.inconsistent residual)
      else
        .ok ⟨assemble P.points P.bound s.violating s.free values, beta, residual⟩

section Recovery

variable {definite : BoundedLeastSquares.DefiniteSolver K} {value : K} {settings : Settings K}
  {dual : DualSolution K}

theorem recover_eq (ha : x.a.size = P.features) (hxi : x.xi.size = P.points)
    (hcomplete : P.data.Complete) : recover definite P.data P.bound x value settings =
      system P.data P.bound x (-value) settings.marginTol >>= fun s =>
        s.recovered definite P (-value) settings := by
  have hsize : ¬(x.a.size ≠ P.data.rows ∨ x.xi.size ≠ P.data.cols) := by
    rw [not_or, not_not, not_not]
    exact ⟨ha, hxi⟩
  unfold recover
  rw [if_neg hsize, decide_eq_true hcomplete]
  dsimp only
  have hnotlacking : ¬(!true) = true := Bool.false_ne_true
  rw [if_neg hnotlacking]
  cases system P.data P.bound x (-value) settings.marginTol with
  | error e => rfl
  | ok s =>
      rw [Ldl.ok_bind, Ldl.ok_bind]
      unfold System.recovered System.defects
      change (match (s.leastSquares P.bound).solveBy definite with
        | .error source => _
        | .ok values => _) = _
      cases (s.leastSquares P.bound).solveBy definite with
      | error source => rfl
      | ok values =>
          dsimp only
          split_ifs <;> rfl

theorem sizes_of_recover (h : recover definite P.data P.bound x value settings = .ok dual) :
    x.a.size = P.features ∧ x.xi.size = P.points ∧ P.data.Complete := by
  unfold recover at h
  by_cases hsize : x.a.size ≠ P.data.rows ∨ x.xi.size ≠ P.data.cols
  · rw [if_pos hsize] at h
    cases h
  · rw [if_neg hsize] at h
    rw [not_or, not_not, not_not] at hsize
    by_cases hcomplete : P.data.Complete
    · exact ⟨hsize.left, hsize.right, hcomplete⟩
    · rw [decide_eq_false hcomplete] at h
      cases h

theorem posed_of_recover (h : recover definite P.data P.bound x value settings = .ok dual) :
    system P.data P.bound x (-value) settings.marginTol =
        .ok (posed P x (-value) settings.marginTol) ∧
      (posed P x (-value) settings.marginTol).recovered definite P (-value) settings =
        .ok dual := by
  rcases sizes_of_recover h with ⟨ha, hxi, hcomplete⟩
  rw [recover_eq ha hxi hcomplete, system_eq] at h
  by_cases hlt : (support P x).size < required P x
  · rw [if_pos hlt] at h
    cases h
  · rw [if_neg hlt, Ldl.ok_bind] at h
    exact ⟨(system_eq P x (-value) settings.marginTol).trans (if_neg hlt), h⟩

theorem System.recovered_eq_ok {s : System K} {beta : K}
    (h : s.recovered definite P beta settings = .ok dual) :
    ∃ values, (s.leastSquares P.bound).solveBy definite = .ok values ∧
      dual = ⟨assemble P.points P.bound s.violating s.free values, beta,
        maxNorm (s.defects values)⟩ ∧
      (settings.checkResidual = true → dual.residual ≤ settings.recoveryTol) := by
  unfold System.recovered at h
  cases hsolved : (s.leastSquares P.bound).solveBy definite with
  | error source =>
      rw [hsolved] at h
      cases h
  | ok values =>
      rw [hsolved] at h
      dsimp only at h
      split_ifs at h with hrefused
      cases h
      refine ⟨values, rfl, rfl, ?_⟩
      intro hcheck
      rw [hcheck, Bool.true_and, Bool.not_eq_true', decide_eq_false_iff_not, not_not] at hrefused
      exact hrefused

theorem recover_eq_ok (h : recover definite P.data P.bound x value settings = .ok dual) :
    ∃ values, ((posed P x (-value) settings.marginTol).leastSquares P.bound).solveBy
        definite = .ok values ∧
      dual = ⟨assemble P.points P.bound (violatingPoints P x) (freePoints P x settings.marginTol)
        values, -value, maxNorm ((posed P x (-value) settings.marginTol).defects values)⟩ := by
  rcases System.recovered_eq_ok (posed_of_recover h).right with ⟨values, hsolved, hdual, _⟩
  exact ⟨values, hsolved, hdual⟩

theorem system_eq_ok (ha : x.a.size = P.features) (hxi : x.xi.size = P.points)
    (hcomplete : P.data.Complete) (h : ∀ needed available,
      recover definite P.data P.bound x value settings ≠
        .error (.overDetermined needed available)) :
    system P.data P.bound x (-value) settings.marginTol =
      .ok (posed P x (-value) settings.marginTol) := by
  rw [system_eq]
  apply if_neg
  intro hlt
  apply h (required P x) (support P x).size
  rw [recover_eq ha hxi hcomplete, system_eq, if_pos hlt]
  rfl

end Recovery

/-!
## Multipliers from the values of the free ones
-/

/-- Two kinds of points below `n`. None is listed twice or of both kinds. -/
structure AreKinds (n : Nat) (violating free : List Nat) : Prop where
  nodup : (violating ++ free).Nodup
  lt : ∀ j ∈ violating ++ free, j < n

variable (P x marginTol) in
theorem areKinds : AreKinds P.points (violatingPoints P x) (freePoints P x marginTol) := by
  have hother : ∀ j ∈ freePoints P x marginTol, j ∈ otherPoints P x :=
    fun j hj => mem_of_mem_selectFree hj
  constructor
  · refine List.nodup_append.mpr ⟨List.nodup_range.filter _,
      nodup_selectFree (List.nodup_range.filter _), ?_⟩
    intro i hi j hj hij
    have hviolating := (List.mem_filter.mp hi).right
    have hnot := (List.mem_filter.mp (hother j hj)).right
    rw [← hij, hviolating] at hnot
    exact Bool.false_ne_true hnot
  · intro j hj
    rcases List.mem_append.mp hj with hviolating | hfree
    · exact List.mem_range.mp (List.mem_filter.mp hviolating).left
    · exact List.mem_range.mp (List.mem_filter.mp (hother j hfree)).left

/-- Multipliers at the bound for the points of the first kind, with values of their own for those of
the second, and without any for the others. -/
structure HaveValues (n : Nat) (bound : K) (violating free : List Nat) (values : Array K)
    (nu : Nat → K) : Prop where
  violating_eq : ∀ j ∈ violating, nu j = bound
  free_eq : ∀ c < free.length, nu (free.getD c 0) = values.getD c 0
  rest_eq : ∀ j < n, j ∉ violating ++ free → nu j = 0

section Kinds

variable {n : Nat} {bound : K} {violating free : List Nat} {values : Array K} {nu : Nat → K}

theorem HaveValues.sum_eq (h : HaveValues n bound violating free values nu)
    (hkinds : AreKinds n violating free) (g : Nat → K) :
    ∑ j ∈ range n, g j * nu j = bound * (violating.map g).sum +
      ∑ c ∈ range free.length, g (free.getD c 0) * values.getD c 0 := by
  have hsubset : (violating ++ free).toFinset ⊆ range n := by
    intro j hj
    exact mem_range.mpr (hkinds.lt j (List.mem_toFinset.mp hj))
  have hviolating : (violating.map fun j => g j * nu j).sum = bound * (violating.map g).sum := by
    rw [← List.sum_map_mul_left]
    congr 1
    apply List.map_congr_left
    intro j hj
    rw [h.violating_eq j hj, mul_comm]
  have hfree : (free.map fun j => g j * nu j).sum =
      ∑ c ∈ range free.length, g (free.getD c 0) * values.getD c 0 := by
    rw [list_sum_map_eq_sum_range free 0]
    apply sum_congr rfl
    intro c hc
    rw [h.free_eq c (mem_range.mp hc)]
  calc
    ∑ j ∈ range n, g j * nu j = ∑ j ∈ (violating ++ free).toFinset, g j * nu j := by
      refine (sum_subset hsubset ?_).symm
      intro j hj hjkinds
      rw [h.rest_eq j (mem_range.mp hj) fun hmem => hjkinds (List.mem_toFinset.mpr hmem), mul_zero]
    _ = ((violating ++ free).map fun j => g j * nu j).sum :=
      List.sum_toFinset _ hkinds.nodup
    _ = bound * (violating.map g).sum +
        ∑ c ∈ range free.length, g (free.getD c 0) * values.getD c 0 := by
      rw [List.map_append, List.sum_append, hviolating, hfree]

variable (bound) in
theorem haveValues_assemble (hkinds : AreKinds n violating free)
    (hsize : values.size = free.length) : HaveValues n bound violating free values
      fun j => (assemble n bound violating free values).getD j 0 := by
  let moves := violating.map (fun j => (j, bound)) ++ free.zip values.toList
  have hlength : free.length ≤ values.toList.length := hsize.ge
  have hkeys : moves.map Prod.fst = violating ++ free := by
    show (violating.map (fun j => (j, bound)) ++ free.zip values.toList).map Prod.fst = _
    rw [List.map_append, List.map_map, List.map_fst_zip hlength]
    congr 1
    exact List.map_id _
  have hassemble : assemble n bound violating free values =
      moves.foldl (fun u m => u.setIfInBounds m.1 m.2) (zeros n) := by
    unfold assemble
    rw [List.foldl_append, List.foldl_map]
  have hset : ∀ m ∈ moves, (assemble n bound violating free values).getD m.1 0 = m.2 := by
    intro m hm
    rw [hassemble]
    apply Ldl.getD_foldl_set_of_mem 0 (hkeys ▸ hkinds.nodup) hm
    rw [size_zeros]
    exact hkinds.lt m.1 (hkeys ▸ List.mem_map_of_mem hm)
  refine ⟨?_, ?_, ?_⟩
  · intro j hj
    exact hset (j, bound) (List.mem_append_left _ (List.mem_map_of_mem hj))
  · intro c hc
    have hcv : c < values.size := hsize ▸ hc
    have hmem : (free.getD c 0, values.getD c 0) ∈ free.zip values.toList := by
      rw [List.mem_iff_getElem]
      refine ⟨c, by simp [hc, hcv], ?_⟩
      rw [List.getElem_zip, List.getD_eq_getElem?_getD, List.getElem?_eq_getElem hc,
        Option.getD_some, getD_of_lt values 0 hcv]
      rfl
    exact hset _ (List.mem_append_right _ hmem)
  · intro j _ hj
    show (assemble n bound violating free values).getD j 0 = 0
    rw [hassemble, Ldl.getD_foldl_set_of_not_mem 0 (hkeys ▸ hj), getD_zeros]

end Kinds

/-!
## What the equations say
-/

section Posed

variable (P x beta marginTol)

theorem size_target_posed :
    (posed P x beta marginTol).target.size = (support P x).size + 1 := by
  unfold posed
  rw [Array.size_push, Array.size_map]

theorem foldl_add_map {β : Type} (f : β → K) (js : List β) :
    js.foldl (fun acc j => acc + f j) 0 = (js.map f).sum := by
  rw [← zero_add (js.map f).sum, ← foldl_add_eq, List.foldl_map]

theorem target_posed_support {r : Nat} (hr : r < (support P x).size) :
    (posed P x beta marginTol).target.getD r 0 = beta - P.bound *
      ((violatingPoints P x).map fun j => P.data.entry ((support P x).getD r 0) j).sum := by
  unfold posed
  dsimp only
  rw [getD_of_lt _ 0 (by rw [Array.size_push, Array.size_map]; exact Nat.lt_succ_of_lt hr),
    Array.getElem_push_lt (by rwa [Array.size_map]), Array.getElem_map, foldl_add_map,
    getD_of_lt _ 0 hr]

theorem target_posed_sum : (posed P x beta marginTol).target.getD (support P x).size 0 =
    1 - P.bound * ((violatingPoints P x).length : K) := by
  unfold posed
  dsimp only
  rw [getD_of_lt _ 0 (by rw [Array.size_push, Array.size_map]; exact Nat.lt_succ_self _),
    Array.getElem_push, dif_neg (by rw [Array.size_map]; exact lt_irrefl _)]

theorem entry_posed_support {r c : Nat} (hr : r < (support P x).size)
    (hc : c < (freePoints P x marginTol).length) :
    (posed P x beta marginTol).matrix.entry r c =
      P.data.entry ((support P x).getD r 0) ((freePoints P x marginTol).getD c 0) := by
  refine (Matrix.entry_ofFn _ _ _ (Nat.lt_succ_of_lt hr) hc).trans ?_
  rw [Array.getElem?_eq_getElem hr, getD_of_lt _ 0 hr, Array.getD_eq_getD_getElem?,
    List.getElem?_toArray, List.getD_eq_getElem?_getD]

theorem entry_posed_sum {c : Nat} (hc : c < (freePoints P x marginTol).length) :
    (posed P x beta marginTol).matrix.entry (support P x).size c = 1 := by
  refine (Matrix.entry_ofFn _ _ _ (Nat.lt_succ_self _) hc).trans ?_
  rw [Array.getElem?_eq_none (le_refl _)]

end Posed

variable (beta) in
/-- The equations are missed by as much as the loads of the supported weights miss `beta` and the
sum of all multipliers misses one. -/
theorem posed_defects {values : Array K} {nu : Nat → K}
    (h : HaveValues P.points P.bound (violatingPoints P x) (freePoints P x marginTol) values nu) :
    ((posed P x beta marginTol).defects values).size = (support P x).size + 1 ∧
      (∀ r < (support P x).size, ((posed P x beta marginTol).defects values).getD r 0 =
        P.loadAt nu ((support P x).getD r 0) - beta) ∧
      ((posed P x beta marginTol).defects values).getD (support P x).size 0 =
        ∑ j ∈ range P.points, nu j - 1 := by
  have hsum := h.sum_eq (areKinds P x marginTol)
  rcases Matrix.mulAdd_spec (A := (posed P x beta marginTol).matrix)
    (Matrix.complete_ofFn _ _ _) 1 values (-1) (size_target_posed P x beta marginTol) with
    ⟨hsize, hrows⟩
  refine ⟨hsize, ?_, ?_⟩
  · intro r hr
    have hentries : ∑ c ∈ range (freePoints P x marginTol).length,
        (posed P x beta marginTol).matrix.entry r c * values.getD c 0 =
        ∑ c ∈ range (freePoints P x marginTol).length,
          P.data.entry ((support P x).getD r 0) ((freePoints P x marginTol).getD c 0) *
            values.getD c 0 := by
      apply sum_congr rfl
      intro c hc
      rw [entry_posed_support P x beta marginTol hr (mem_range.mp hc)]
    refine (hrows r (Nat.lt_succ_of_lt hr)).trans ?_
    unfold Problem.loadAt
    rw [hsum, target_posed_support P x beta marginTol hr]
    change 1 * ∑ c ∈ range (freePoints P x marginTol).length, _ + _ = _
    rw [hentries]
    ring
  · have hentries : ∑ c ∈ range (freePoints P x marginTol).length,
        (posed P x beta marginTol).matrix.entry (support P x).size c * values.getD c 0 =
        ∑ c ∈ range (freePoints P x marginTol).length, 1 * values.getD c 0 := by
      apply sum_congr rfl
      intro c hc
      rw [entry_posed_sum P x beta marginTol (mem_range.mp hc)]
    have htotal := hsum fun _ => 1
    rw [List.map_const', List.sum_replicate, nsmul_eq_mul, mul_one] at htotal
    refine (hrows _ (Nat.lt_succ_self _)).trans ?_
    rw [target_posed_sum]
    change 1 * ∑ c ∈ range (freePoints P x marginTol).length, _ + _ = _
    rw [hentries, sum_congr rfl fun j _ => (one_mul (nu j)).symm, htotal]
    ring

end Dual
end SoftMargin
