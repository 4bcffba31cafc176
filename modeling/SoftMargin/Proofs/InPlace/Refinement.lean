import SoftMargin.Proofs.Kkt.Corrections
import SoftMargin.InPlace.System

/-!
# The refinement of a system in place

The answer and the correction trade places, and the residual of a correction is
written over the one that it answers, before the correction is judged. Whenever
the refinement comes to its test the residual is that of the answer, however the
corrections before have turned out. The direct solver may be of no use at all.
-/

namespace SoftMargin

variable {K : Type} [ExactScalar K]

/-!
## Vectors written in place
-/

omit [ExactScalar K] in
theorem overwriteMap_id {x v : Array K} (h : v.size = x.size) : overwriteMap id x v = v := by
  rw [overwriteMap_eq_map id h, Array.map_id]

omit [ExactScalar K] in
theorem size_overwriteMap (f : K → K) (x v : Array K) : (overwriteMap f x v).size = x.size := by
  unfold overwriteMap
  rw [Array.size_append, Array.size_map, Array.size_extract, Array.size_extract]
  omega

theorem Csc.size_addSymmetricEntry (a : K) (x : Array K) (col : Nat) (acc : Array K) (row : Nat)
    (v : K) : (addSymmetricEntry a x col acc row v).size = acc.size := by
  unfold addSymmetricEntry
  dsimp only
  split_ifs
  · exact Array.size_modify
  · rw [Array.size_modify, Array.size_modify]

theorem Csc.size_symmetricMulAdd (A : Csc K) (a : K) (x : Array K) (b : K) (y : Array K) :
    (A.symmetricMulAdd a x b y).size = y.size := by
  have hcolumn : ∀ (col : Nat) (es : List (Nat × K)) (acc : Array K),
      (es.foldl (fun acc e => addSymmetricEntry a x col acc e.1 e.2) acc).size = acc.size := by
    intro col es
    induction es with
    | nil => exact fun acc => rfl
    | cons e rest ih =>
        intro acc
        rw [List.foldl_cons, ih, size_addSymmetricEntry]
  unfold symmetricMulAdd
  apply foldl_range_induction (fun _ (acc : Array K) => acc.size = y.size)
  · exact Array.size_map
  · intro col _ acc hacc
    exact (hcolumn col _ acc).trans hacc

namespace Refinement

variable {A : Csc K} {direct : Array K → Array K} {b : Array K} {s : State K}

theorem Reaches.norm_le (h : Reaches A direct b s) :
    s.norm ≤ (State.of A b (direct b)).norm := by
  induction h with
  | start => exact le_rfl
  | accept _ hsmaller ih => exact hsmaller.le.trans ih

theorem Reaches.eq_of (h : Reaches A direct b s) : s = State.of A b s.x := by
  cases h with
  | start => rfl
  | accept _ _ => rfl

end Refinement

namespace InPlace

open Refinement Scalar Finset

/-!
## Direct solvers
-/

namespace System

structure Sized (S : System K) : Prop where
  rhs : S.rhs.size = S.kkt.dimension
  answer : S.answer.size = S.kkt.dimension
  residual : S.residual.size = S.kkt.dimension
  correction : S.correction.size = S.kkt.dimension

structure Ready (k : KktSolver K) (b : Array K) (usable : Array K → Prop) (S : System K) :
    Prop where
  kkt_eq : S.kkt = k
  rhs_eq : S.rhs = b
  sized : S.Sized
  workspace : usable S.workspace

/-- The answer and the residual in place are those of a candidate. -/
structure Holds (k : KktSolver K) (b : Array K) (usable : Array K → Prop) (S : System K)
    (s : State K) : Prop extends S.Ready k b usable where
  answer_eq : S.answer = s.x
  residual_eq : S.residual = s.residual

end System

/-- The direct solver answers as a function does, and leaves a workspace that it can use again. -/
structure Direct.Answers (direct : Direct K) (k : KktSolver K) (usable : Array K → Prop)
    (f : Array K → Array K) : Prop where
  size_eq : ∀ v, v.size = k.dimension → (f v).size = k.dimension
  substitute_eq : ∀ {b S}, System.Ready k b usable S → ∃ w, usable w ∧
    direct.substitute S = { S with workspace := w, answer := f S.rhs }
  correct_eq : ∀ {b S}, System.Ready k b usable S → ∃ w, usable w ∧
    direct.correct S = { S with workspace := w, correction := combine 1 S.answer 1 (f S.residual) }

theorem Direct.ofFunction_answers {f : Array K → Array K} (hf : ∀ v, (f v).size = v.size)
    (k : KktSolver K) : (Direct.ofFunction f).Answers k (fun _ => True) f := by
  refine ⟨fun v hv => (hf v).trans hv, ?_, ?_⟩
  · intro b S h
    refine ⟨S.workspace, trivial, ?_⟩
    unfold Direct.ofFunction
    dsimp only
    rw [overwriteMap_id (h.sized.rhs.trans h.sized.answer.symm)]
  · intro b S h
    refine ⟨S.workspace, trivial, ?_⟩
    unfold Direct.ofFunction
    dsimp only
    rw [overwriteMap_id (h.sized.residual.trans h.sized.correction.symm)]

/-!
## One correction
-/

namespace System

variable {direct : Direct K} {k : KktSolver K} {b : Array K} {usable : Array K → Prop}
  {f : Array K → Array K} {S : System K} {s : State K}

theorem Sized.look_eq (h : S.Sized) (x : Array K) : S.look x =
    ((State.of S.kkt.system S.rhs x).norm,
      { S with residual := (State.of S.kkt.system S.rhs x).residual }) := by
  unfold look
  rw [overwriteMap_id (h.rhs.trans h.residual.symm)]
  rfl

theorem Sized.size_residual_of (h : S.Sized) (x : Array K) :
    (State.of S.kkt.system S.rhs x).residual.size = S.kkt.dimension :=
  (Csc.size_symmetricMulAdd ..).trans h.rhs

theorem Ready.start (h : S.Ready k b usable) (hdirect : direct.Answers k usable f) :
    let first := State.of k.system b (f b)
    let T := direct.substitute S
    (T.look T.answer).1 = first.norm ∧ (T.look T.answer).2.Holds k b usable first := by
  intro first T
  obtain ⟨w, hw, hT⟩ := hdirect.substitute_eq h
  obtain ⟨rfl, rfl, hsized, _⟩ := h
  have hx : first.x.size = S.kkt.dimension := hdirect.size_eq _ hsized.rhs
  have hsubstituted : T.Sized := by
    rw [show T = _ from hT]
    exact ⟨hsized.rhs, hx, hsized.residual, hsized.correction⟩
  have hlook : T.look T.answer = (first.norm,
      { S with workspace := w, answer := first.x, residual := first.residual }) := by
    rw [hsubstituted.look_eq, show T = _ from hT]
    rfl
  rw [hlook]
  have hresidual : first.residual.size = S.kkt.dimension := hsized.size_residual_of first.x
  exact ⟨rfl, ⟨⟨rfl, rfl, ⟨hsized.rhs, hx, hresidual, hsized.correction⟩, hw⟩, rfl, rfl⟩⟩

/-- An attempt puts the next candidate of the refinement into the correction and writes its residual
over that of the answer. The answer stays. -/
theorem Holds.attempt_eq (h : S.Holds k b usable s) (hdirect : direct.Answers k usable f) :
    let next := s.correct k.system f b
    ∃ w, usable w ∧ next.x.size = k.dimension ∧ next.residual.size = k.dimension ∧
      S.attempt direct = (next.norm,
        { S with workspace := w, correction := next.x, residual := next.residual }) := by
  intro next
  obtain ⟨w, hw, hcorrect⟩ := hdirect.correct_eq h.toReady
  obtain ⟨⟨rfl, rfl, hsized, _⟩, hanswer, hresidual⟩ := h
  have hx : combine 1 S.answer 1 (f S.residual) = next.x := by
    rw [hanswer, hresidual]
    rfl
  have hsize : next.x.size = S.kkt.dimension := by
    rw [← hx, size_combine, hsized.answer, hdirect.size_eq _ hsized.residual, min_self]
  rw [hx] at hcorrect
  have hcorrected : (direct.correct S).Sized := by
    rw [hcorrect]
    exact ⟨hsized.rhs, hsized.answer, hsized.residual, hsize⟩
  refine ⟨w, hw, hsize, hsized.size_residual_of next.x, ?_⟩
  unfold attempt
  dsimp only
  rw [hcorrected.look_eq, hcorrect]
  rfl

theorem Holds.norm_attempt (h : S.Holds k b usable s) (hdirect : direct.Answers k usable f) :
    (S.attempt direct).1 = (s.correct k.system f b).norm := by
  obtain ⟨w, _, _, _, heq⟩ := h.attempt_eq hdirect
  rw [heq]

/-- A correction that is turned down leaves its residual behind. The answer is the one before. -/
theorem Holds.attempt (h : S.Holds k b usable s) (hdirect : direct.Answers k usable f) :
    (S.attempt direct).2.Ready k b usable ∧ (S.attempt direct).2.answer = s.x := by
  obtain ⟨w, hw, hx, hresidual, heq⟩ := h.attempt_eq hdirect
  obtain ⟨⟨rfl, rfl, hsized, _⟩, hanswer, _⟩ := h
  rw [heq]
  exact ⟨⟨rfl, rfl, ⟨hsized.rhs, hsized.answer, hresidual, hx⟩, hw⟩, hanswer⟩

theorem Holds.accept (h : S.Holds k b usable s) (hdirect : direct.Answers k usable f) :
    (S.attempt direct).2.trade.Holds k b usable (s.correct k.system f b) := by
  obtain ⟨w, hw, hx, hresidual, heq⟩ := h.attempt_eq hdirect
  obtain ⟨⟨rfl, rfl, hsized, _⟩, _, _⟩ := h
  rw [heq]
  exact ⟨⟨rfl, rfl, ⟨hsized.rhs, hx, hresidual, hsized.answer⟩, hw⟩, rfl, rfl⟩

/-!
## A solve
-/

/-- The refinement in place gives what the refinement of the candidates gives. Nothing is said of
the residual at the end, which may be that of a correction turned down. -/
theorem Holds.refineBy (h : S.Holds k b usable s) (hdirect : direct.Answers k usable f)
    (target : K) (left : Nat) :
    let t := Refinement.refine k.system f b target left s
    let r := S.refineBy direct target left s.norm
    r.1 = t.norm ∧ r.2.answer = t.x ∧ r.2.Ready k b usable := by
  induction left generalizing S s with
  | zero => exact ⟨rfl, h.answer_eq, h.toReady⟩
  | succ left ih =>
      have hrejected := h.attempt hdirect
      have hrest := ih (h.accept hdirect)
      unfold System.refineBy Refinement.refine
      dsimp only
      rw [h.norm_attempt hdirect]
      split_ifs with hfinite hsmall hbetter
      · exact ⟨rfl, h.answer_eq, h.toReady⟩
      · exact ⟨rfl, h.answer_eq, h.toReady⟩
      · exact hrest
      · exact ⟨rfl, hrejected.right, hrejected.left⟩

theorem Ready.solveBy (h : S.Ready k b usable) (hdirect : direct.Answers k usable f) :
    (S.solveBy direct).2.Ready k b usable ∧
      ((S.solveBy direct).1, (S.solveBy direct).2.answer) =
        Refinement.solve k.system f k.limits b := by
  obtain ⟨hnorm, hholds⟩ := h.start hdirect
  obtain ⟨hlast, hanswer, hready⟩ :=
    hholds.refineBy hdirect (k.limits.target b) k.limits.maxIter
  unfold System.solveBy finish Refinement.solve
  dsimp only
  rw [hnorm, hholds.kkt_eq, hholds.rhs_eq, hlast, hanswer]
  exact ⟨hready, rfl⟩

/-!
## The heads of the loop
-/

/-- The refinement of a solve comes to its test with so many corrections kept, with this norm and
with the vectors of this system. -/
inductive Head {α : Type} [Scalar α] (direct : Direct α) (S : System α) :
    Nat → α → System α → Prop where
  | start : Head direct S 0 ((direct.substitute S).look (direct.substitute S).answer).1
      ((direct.substitute S).look (direct.substitute S).answer).2
  | accept {n : Nat} {norm : α} {T : System α} (h : Head direct S n norm T)
      (hleft : n < S.kkt.limits.maxIter) (hfinite : isFinite norm = true)
      (habove : ¬ norm ≤ S.kkt.limits.target S.rhs) (hbetter : (T.attempt direct).1 < norm) :
      Head direct S (n + 1) (T.attempt direct).1 (T.attempt direct).2.trade

section Heads

variable {n : Nat} {norm : K} {T : System K}

theorem Head.le_maxIter (h : Head direct S n norm T) : n ≤ S.kkt.limits.maxIter := by
  cases h with
  | start => exact Nat.zero_le _
  | accept _ hleft _ _ _ => exact hleft

theorem Head.exists_state (h : Head direct S n norm T) (hS : S.Ready k b usable)
    (hdirect : direct.Answers k usable f) :
    ∃ s, Reaches k.system f b s ∧ T.Holds k b usable s ∧ norm = s.norm := by
  induction h with
  | start =>
      obtain ⟨hnorm, hholds⟩ := hS.start hdirect
      exact ⟨_, .start, hholds, hnorm⟩
  | @accept n norm T h hleft hfinite habove hbetter ih =>
      obtain ⟨s, hreaches, hholds, rfl⟩ := ih
      have hnext := hholds.norm_attempt hdirect
      exact ⟨_, .accept hreaches (hnext ▸ hbetter), hholds.accept hdirect, hnext⟩

theorem Head.holds (h : Head direct S n norm T) (hS : S.Ready k b usable)
    (hdirect : direct.Answers k usable f) :
    let s := State.of k.system b T.answer
    Reaches k.system f b s ∧ T.Holds k b usable s ∧ norm = s.norm := by
  intro s
  obtain ⟨t, hreaches, hholds, hnorm⟩ := h.exists_state hS hdirect
  have hstate : t = s := by
    simp only [s]
    rw [hholds.answer_eq]
    exact hreaches.eq_of
  exact hstate ▸ ⟨hreaches, hholds, hnorm⟩

theorem Head.solveBy_eq (h : Head direct S n norm T) (hS : S.Ready k b usable)
    (hdirect : direct.Answers k usable f) : S.solveBy direct =
      T.finish direct (S.kkt.limits.target S.rhs) (S.kkt.limits.maxIter - n) norm := by
  induction h with
  | start =>
      have hready := (hS.start hdirect).right.toReady
      unfold solveBy
      dsimp only
      rw [hready.kkt_eq, hready.rhs_eq, hS.kkt_eq, hS.rhs_eq]
      rfl
  | @accept n norm T h hleft hfinite habove hbetter ih =>
      obtain ⟨left, hcount⟩ : ∃ left, S.kkt.limits.maxIter - n = left + 1 :=
        ⟨S.kkt.limits.maxIter - n - 1, by omega⟩
      rw [ih, hcount, show S.kkt.limits.maxIter - (n + 1) = left by omega]
      unfold finish
      conv_lhs => unfold System.refineBy
      simp only [hfinite, habove, hbetter, Bool.not_true, Bool.false_eq_true, if_false, if_true]

/-- A solve ends at a head: its answer is good enough, or all corrections are used up, or the next
one would not help. -/
theorem Head.exists_last (h : Head direct S n norm T) (hS : S.Ready k b usable)
    (hdirect : direct.Answers k usable f) : ∃ n norm T, Head direct S n norm T ∧
      (S.solveBy direct).2.answer = T.answer ∧ (norm ≤ S.kkt.limits.target S.rhs ∨
        n = S.kkt.limits.maxIter ∨ norm ≤ (T.attempt direct).1) := by
  obtain ⟨left, hcount⟩ : ∃ left, S.kkt.limits.maxIter - n = left := ⟨_, rfl⟩
  induction left generalizing n norm T with
  | zero =>
      have hsolve := h.solveBy_eq hS hdirect
      rw [hcount] at hsolve
      refine ⟨n, norm, T, h, congrArg (fun r => r.2.answer) hsolve, .inr (.inl ?_)⟩
      exact le_antisymm h.le_maxIter (Nat.sub_eq_zero_iff_le.mp hcount)
  | succ left ih =>
      by_cases hsmall : norm ≤ S.kkt.limits.target S.rhs
      · refine ⟨n, norm, T, h, ?_, .inl hsmall⟩
        rw [h.solveBy_eq hS hdirect, hcount]
        unfold finish System.refineBy
        simp only [hsmall, if_true, ite_self]
      · by_cases hbetter : (T.attempt direct).1 < norm
        · exact ih (h.accept (by omega) rfl hsmall hbetter) (by omega)
        · refine ⟨n, norm, T, h, ?_, .inr (.inr (not_lt.mp hbetter))⟩
          have hholds := (h.holds hS hdirect).right.left
          rw [h.solveBy_eq hS hdirect, hcount]
          unfold finish System.refineBy
          simp only [hsmall, hbetter, if_false]
          exact (hholds.attempt hdirect).right.trans hholds.answer_eq.symm

end Heads

/-!
## The system of a partition
-/

def residualAt (S : System K) (x : Array K) (i : Nat) : K :=
  S.rhs.getD i 0 - ∑ c ∈ range S.kkt.dimension, S.kkt.system.symmetricEntry i c * x.getD c 0

def IsResidualNorm (S : System K) (x : Array K) (norm : K) : Prop :=
  IsGreatest {v | ∃ i < S.kkt.dimension, |S.residualAt x i| = v} norm

section Kkt

variable {H : Matrix K} {rho δ : K}

theorem Sized.residual_eq (h : S.Sized)
    (hkkt : S.kkt.system = Kkt.clearEquationBlock (Kkt.Shape.of H) (Kkt.assemble H rho δ))
    (x : Array K) {i : Nat} (hi : i < S.kkt.dimension) :
    (State.of S.kkt.system S.rhs x).residual.getD i 0 = S.residualAt x i := by
  rw [Kkt.clearEquationBlock_assemble] at hkkt
  have hcols := Kkt.cols_assemble H rho 0
  have hdimension : S.kkt.dimension = (Kkt.Shape.of H).dimension := by
    rw [← hcols, ← hkkt]
    rfl
  have hresidual := (KktSolver.residual_of H rho (h.rhs.trans hdimension) x).right
  unfold residualAt
  rw [hkkt, hresidual i (hi.trans_eq hdimension), Csc.symmetricTimes_eq_sum
    (Kkt.isUpper_assemble H rho 0) (fun c hc => Kkt.nodup_rows_assemble H rho 0 (hc.trans_eq hcols))
    _ (hi.trans_eq (hdimension.trans hcols.symm)), hcols, hdimension]

theorem Sized.isResidualNorm (h : S.Sized)
    (hkkt : S.kkt.system = Kkt.clearEquationBlock (Kkt.Shape.of H) (Kkt.assemble H rho δ))
    (x : Array K) : S.IsResidualNorm x (State.of S.kkt.system S.rhs x).norm := by
  have hsize := h.size_residual_of x
  have hpositive : 0 < S.kkt.dimension := by
    have hcols : S.kkt.dimension = (Kkt.Shape.of H).dimension := by
      unfold KktSolver.dimension
      rw [hkkt, Kkt.clearEquationBlock_assemble, Kkt.cols_assemble]
    rw [hcols]
    exact Nat.succ_pos _
  have hgreatest := maxNorm_isGreatest (hpositive.trans_eq hsize.symm)
  rw [hsize] at hgreatest
  have hmagnitudes : {v | ∃ i < S.kkt.dimension, |S.residualAt x i| = v} =
      {v | ∃ i < S.kkt.dimension, |(State.of S.kkt.system S.rhs x).residual.getD i 0| = v} := by
    ext v
    constructor
    · rintro ⟨i, hi, rfl⟩
      exact ⟨i, hi, by rw [h.residual_eq hkkt x hi]⟩
    · rintro ⟨i, hi, rfl⟩
      exact ⟨i, hi, by rw [h.residual_eq hkkt x hi]⟩
  unfold IsResidualNorm
  rw [hmagnitudes]
  exact hgreatest

/-- Whatever the direct solver answers: at every head of the loop the residual in place is that of
the answer, and the norm is its largest entry. The answer that is given is no worse than the direct
one. It is good enough, or all corrections were kept, or the next one would not help and has been
turned down. -/
theorem solveBy_keeps_best {f : Array K → Array K} (hf : ∀ v, (f v).size = v.size)
    (hS : S.Sized)
    (hkkt : S.kkt.system = Kkt.clearEquationBlock (Kkt.Shape.of H) (Kkt.assemble H rho δ)) :
    let direct := Direct.ofFunction f
    let limits := S.kkt.limits
    let target := limits.abstol + limits.reltol * maxNorm S.rhs
    let answer := (S.solveBy direct).2.answer
    (∀ n norm T, Head direct S n norm T →
      n ≤ limits.maxIter ∧ S.solveBy direct = T.finish direct target (limits.maxIter - n) norm ∧
      T.residual.size = S.kkt.dimension ∧
      (∀ i < S.kkt.dimension, T.residual.getD i 0 = S.residualAt T.answer i) ∧
      S.IsResidualNorm T.answer norm) ∧
    (∃ first last, S.IsResidualNorm (f S.rhs) first ∧ S.IsResidualNorm answer last ∧
      last ≤ first) ∧
    ∃ n norm T, Head direct S n norm T ∧ answer = T.answer ∧
      (norm ≤ target ∨ n = limits.maxIter ∨
        ∃ next, S.IsResidualNorm (combine 1 T.answer 1 (f T.residual)) next ∧ norm ≤ next) := by
  intro direct limits target answer
  have hdirect : direct.Answers S.kkt (fun _ => True) f := Direct.ofFunction_answers hf S.kkt
  have hready : S.Ready S.kkt S.rhs fun _ => True := ⟨rfl, rfl, hS, trivial⟩
  have hnorm := hS.isResidualNorm hkkt
  have hstart : Head direct S 0 _ _ := .start
  obtain ⟨last, norm, T, hhead, hanswer, hexit⟩ := hstart.exists_last hready hdirect
  refine ⟨?_, ?_, last, norm, T, hhead, hanswer, ?_⟩
  · intro n norm T h
    obtain ⟨-, hholds, rfl⟩ := h.holds hready hdirect
    have hresidual := hholds.residual_eq
    refine ⟨h.le_maxIter, h.solveBy_eq hready hdirect, ?_, ?_, hnorm T.answer⟩
    · rw [hresidual]
      exact hS.size_residual_of T.answer
    · intro i hi
      rw [hresidual]
      exact hS.residual_eq hkkt T.answer hi
  · obtain ⟨hreaches, -, -⟩ := hhead.holds hready hdirect
    refine ⟨_, _, hnorm (f S.rhs), ?_, hreaches.norm_le⟩
    rw [show answer = T.answer from hanswer]
    exact hnorm T.answer
  · -- the attempt at the last head is the next candidate
    obtain ⟨-, hholds, -⟩ := hhead.holds hready hdirect
    refine hexit.imp_right (Or.imp_right fun hworse => ⟨_, ?_, hworse⟩)
    rw [hholds.norm_attempt hdirect]
    unfold State.correct
    rw [← hholds.residual_eq]
    exact hnorm _

/-- Two points on one feature, with at most five corrections and no factor to speak of. -/
def pointsSystem : System ℚ where
  kkt := {
    system := Kkt.clearEquationBlock (Kkt.Shape.of KktSolver.pointsOnLine)
      (Kkt.assemble KktSolver.pointsOnLine 1 0)
    factor := ⟨#[], Csc.ofColumns 0 [], #[], #[], 0, 0⟩
    limits := ⟨0, 0, 5⟩ }
  rhs := #[4, 0, 0, 0, 0, 0, 0, 0, 0]
  answer := zeros 9
  residual := zeros 9
  correction := zeros 9
  workspace := #[]

/-- A direct solver that takes a quarter of everything. Its first correction is kept. The second
one, which would raise the norm again, is not. -/
theorem solveBy_keeps_best_pointsSystem :
    let direct := Direct.ofFunction fun v : Array ℚ => v.map (· / 4)
    let answer : Array ℚ := #[7 / 4, 0, 0, 0, 0, 0, -1 / 4, 0, 0]
    (pointsSystem.solveBy direct).2.answer = answer ∧
      (∃ T, Head direct pointsSystem 1 (5 / 2) T ∧ T.answer = answer ∧
        (∀ i < 9, T.residual.getD i 0 = pointsSystem.residualAt answer i) ∧
        pointsSystem.IsResidualNorm answer (5 / 2)) ∧
      ∃ first last, pointsSystem.IsResidualNorm #[1, 0, 0, 0, 0, 0, 0, 0, 0] first ∧
        pointsSystem.IsResidualNorm answer last ∧ last ≤ first := by
  intro direct answer
  obtain ⟨hheads, hbest, _⟩ := solveBy_keeps_best (f := fun v : Array ℚ => v.map (· / 4))
    (fun v => Array.size_map) (S := pointsSystem) ⟨rfl, rfl, rfl, rfl⟩ rfl
  have hanswer : (pointsSystem.solveBy direct).2.answer = answer := by decide +kernel
  have hfirst : pointsSystem.rhs.map (· / 4) = #[1, 0, 0, 0, 0, 0, 0, 0, 0] := by decide +kernel
  let looked := (direct.substitute pointsSystem).look (direct.substitute pointsSystem).answer
  let attempted := looked.2.attempt direct
  have hkept : Head direct pointsSystem 1 attempted.1 attempted.2.trade :=
    Head.start.accept (by decide) rfl (by decide +kernel) (by decide +kernel)
  have hnorm : attempted.1 = 5 / 2 := by decide +kernel
  have hplace : attempted.2.trade.answer = answer := by decide +kernel
  rw [hnorm] at hkept
  obtain ⟨_, _, _, hresidual, hgreatest⟩ := hheads 1 (5 / 2) _ hkept
  rw [hplace] at hresidual hgreatest
  rw [hfirst, hanswer] at hbest
  exact ⟨hanswer, ⟨_, hkept, hplace, hresidual, hgreatest⟩, hbest⟩

end Kkt

end System
end InPlace
end SoftMargin
