import Mathlib.LinearAlgebra.FiniteDimensional.Basic
import SoftMargin.Proofs.Kkt.Quasidefinite
import SoftMargin.Proofs.Partition.Local

/-!
# Systems without regularization

With a positive penalty and at least one feature, a homogeneous system has only
the trivial answer: the variables have no norm, and then every multiplier stands
alone in an equation. So every right hand side has an answer, and there are
partitions that answer exactly.
-/

namespace SoftMargin

open Scalar Finset

variable {K : Type} [ExactScalar K]

namespace Kkt

variable {H : Matrix K} {rho : K}

theorem variables_eq_zero (hrho : 0 < rho) {w : Nat → K}
    (hw : ∀ i < (Shape.of H).dimension, (assemble H rho 0).symmetricTimes w i = 0) :
    ∀ i < (Shape.of H).variableCount, w i = 0 := by
  let s := Shape.of H
  have hvariable : ∀ i < s.variableCount, rho * w i +
      ∑ j ∈ range s.equationCount, equationEntry H j i * w (s.equationIndex j) = 0 := by
    intro i hi
    rw [← hw i (Nat.lt_add_right _ hi), symmetricTimes_variable H rho w hi]
  have hequation : ∀ j < s.equationCount,
      ∑ i ∈ range s.variableCount, equationEntry H j i * w i = 0 := by
    intro j hj
    rw [← hw (s.equationIndex j) (Nat.add_lt_add_left hj _), symmetricTimes_equation H rho w hj]
  -- the multipliers drop out of the product with the variables themselves
  have hsquares : rho * ∑ i ∈ range s.variableCount, w i ^ 2 = 0 := by
    have hterm : ∀ i ∈ range s.variableCount, rho * w i ^ 2 = -∑ j ∈ range s.equationCount,
        w (s.equationIndex j) * (equationEntry H j i * w i) := by
      intro i hi
      have hzero := congrArg (w i * ·) (hvariable i (mem_range.mp hi))
      rw [mul_zero, mul_add, mul_sum] at hzero
      rw [pow_two, ← sub_eq_zero, sub_neg_eq_add, ← hzero]
      congr 1
      · ring
      · apply sum_congr rfl
        intro j _
        ring
    rw [mul_sum, sum_congr rfl hterm, sum_neg_distrib, neg_eq_zero, sum_comm]
    apply sum_eq_zero
    intro j hj
    rw [← mul_sum, hequation j (mem_range.mp hj), mul_zero]
  intro i hi
  exact eq_zero_of_sum_sq ((mul_eq_zero.mp hsquares).resolve_left hrho.ne') hi

theorem eq_zero_of_symmetricTimes (hrows : 0 < H.rows) (hrho : 0 < rho) {w : Nat → K}
    (hw : ∀ i < (Shape.of H).dimension, (assemble H rho 0).symmetricTimes w i = 0) :
    ∀ i < (Shape.of H).dimension, w i = 0 := by
  let y := fun j => w ((Shape.of H).equationIndex j)
  have hvariables := variables_eq_zero hrho hw
  have hcount : (Shape.of H).variableCount = 2 * H.cols + (H.rows + 1) := rfl
  have hmultipliers : ∀ i < (Shape.of H).variableCount,
      ∑ j ∈ range (H.cols + 1), equationEntry H j i * y j = 0 := by
    intro i hi
    have hrow := hw i (Nat.lt_add_right _ hi)
    rw [symmetricTimes_variable H rho w hi, hvariables i hi, mul_zero, zero_add] at hrow
    exact hrow
  have hpoints : ∀ j < H.cols, y j = 0 := by
    intro j hj
    rw [← sum_equations_slack H y hj]
    exact hmultipliers j (by omega)
  have hnormalization : y H.cols = 0 := by
    have hweight := hmultipliers (2 * H.cols + 1 + 0) (by omega)
    rw [sum_equations_weight H y hrows, sum_eq_zero fun j hj => by
      rw [hpoints j (mem_range.mp hj), mul_zero], zero_add] at hweight
    exact hweight
  intro i hi
  rcases Nat.lt_or_ge i (Shape.of H).variableCount with hvar | hge
  · exact hvariables i hvar
  · have hdimension : (Shape.of H).dimension = (Shape.of H).variableCount + (H.cols + 1) := rfl
    have hindex : i = (Shape.of H).equationIndex (i - (Shape.of H).variableCount) :=
      (Nat.add_sub_of_le hge).symm
    rw [hindex]
    rcases Nat.lt_succ_iff_lt_or_eq.mp (by omega : i - (Shape.of H).variableCount < H.cols + 1) with
      hlt | heq
    · exact hpoints _ hlt
    · rw [heq]
      exact hnormalization

theorem symmetricTimes_assemble (H : Matrix K) (rho : K) (w : Nat → K) {i : Nat}
    (hi : i < (Shape.of H).dimension) : (assemble H rho 0).symmetricTimes w i =
      ∑ c ∈ range (Shape.of H).dimension, (assemble H rho 0).symmetricEntry i c * w c := by
  have hcols := cols_assemble H rho 0
  rw [Csc.symmetricTimes_eq_sum (isUpper_assemble H rho 0)
    (fun c hc => nodup_rows_assemble H rho 0 (hc.trans_eq hcols)) w (hi.trans_eq hcols.symm), hcols]

theorem exists_symmetricTimes_eq (hrows : 0 < H.rows) (hrho : 0 < rho) (b : Nat → K) :
    ∃ w : Nat → K, ∀ i < (Shape.of H).dimension,
      (assemble H rho 0).symmetricTimes w i = b i := by
  let n := (Shape.of H).dimension
  let A := assemble H rho 0
  have htimes : ∀ (w : Nat → K) (i : Fin n),
      A.symmetricTimes w i = ∑ j : Fin n, A.symmetricEntry i j * w j :=
    fun w i => (symmetricTimes_assemble H rho w i.isLt).trans (sum_range _)
  let T : (Fin n → K) →ₗ[K] (Fin n → K) :=
    { toFun := fun v i => ∑ j : Fin n, A.symmetricEntry i j * v j
      map_add' := by
        intro v v'
        funext i
        simp only [Pi.add_apply, mul_add, sum_add_distrib]
      map_smul' := by
        intro a v
        funext i
        simp only [Pi.smul_apply, smul_eq_mul, RingHom.id_apply, mul_sum]
        exact sum_congr rfl fun j _ => mul_left_comm _ _ _ }
  let extend : (Fin n → K) → Nat → K := fun v i => if h : i < n then v ⟨i, h⟩ else 0
  have hextend : ∀ (v : Fin n → K) (i : Fin n), extend v i = v i := fun v i => dif_pos i.isLt
  have hT : ∀ (v : Fin n → K) (i : Fin n), A.symmetricTimes (extend v) i = T v i := by
    intro v i
    rw [htimes]
    exact sum_congr rfl fun j _ => by rw [hextend]
  have hinjective : Function.Injective T := by
    rw [injective_iff_map_eq_zero]
    intro v hv
    funext i
    rw [← hextend v i]
    apply eq_zero_of_symmetricTimes hrows hrho _ i i.isLt
    intro r hr
    exact (hT v ⟨r, hr⟩).trans (congrFun hv ⟨r, hr⟩)
  rcases LinearMap.injective_iff_surjective.mp hinjective (fun i => b i) with ⟨v, hv⟩
  refine ⟨extend v, ?_⟩
  intro i hi
  exact (hT v ⟨i, hi⟩).trans (congrFun hv ⟨i, hi⟩)

end Kkt

theorem Partition.exists_isExact {P : Problem K} {settings : Settings K} (hP : P.IsProper)
    (hrho : 0 < settings.rho) (columns : Array Nat) (hcolumns : ∀ c ∈ columns, c < P.points) :
    ∃ p : Partition K, p.columns = columns ∧ p.IsExact P settings := by
  let H := P.data.select columns
  let A := Kkt.assemble H settings.rho 0
  let n := (Kkt.Shape.of H).dimension
  have hanswer : ∀ b : Array K, ∃ v : Array K, v.size = n ∧
      (b.size = n → A.symmetricMulAdd (-1) v 1 b = zeros n) := by
    intro b
    rcases Kkt.exists_symmetricTimes_eq (H := H) hP.features_pos hrho (fun i => b.getD i 0) with
      ⟨w, hw⟩
    refine ⟨(Array.range n).map w, by rw [Array.size_map, Array.size_range], ?_⟩
    intro hb
    have hproduct :=
      Kkt.symmetricMulAdd_assemble H settings.rho 0 (-1) ((Array.range n).map w) 1 hb
    apply ext_getD 0 (hproduct.left.trans (size_zeros n).symm)
    intro i hi
    have hin := hi.trans_eq hproduct.left
    have hsame : A.symmetricTimes (fun r => ((Array.range n).map w).getD r 0) i =
        A.symmetricTimes w i := by
      rw [Kkt.symmetricTimes_assemble H settings.rho _ hin,
        Kkt.symmetricTimes_assemble H settings.rho _ hin]
      apply sum_congr rfl
      intro c hc
      rw [Kkt.Shape.getD_map_range w (mem_range.mp hc)]
    rw [hproduct.right i hin, getD_zeros, hsame, hw i hin, one_mul, neg_one_mul, add_neg_cancel]
  choose answer hsize hresidual using hanswer
  refine ⟨⟨columns, P.features, costsFor P columns.size, fun b => (true, answer b)⟩, rfl, rfl, rfl,
    hcolumns, fun _ _ => rfl, fun b _ => hsize b, ?_⟩
  intro b hb
  refine Eq.trans ?_ (hresidual b hb)
  exact congrArg (Csc.symmetricMulAdd · (-1) (answer b) 1 b)
    (Kkt.clearEquationBlock_assemble H settings.rho (-settings.staticReg))

end SoftMargin
