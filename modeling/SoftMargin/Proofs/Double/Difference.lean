import Mathlib
import SoftMargin.Proofs.Exact.Scalar

/-!
# Differences of doubles

A difference of two finite doubles is rounded, and it may be so large that it
becomes an infinity. Its sign is right all the same. The exact difference is a
multiple of the least double above zero, so rounding never takes it to zero, and
an overflow keeps the sign. Hence a sequence of doubles may be read by the signs
of its steps.

Doubles are taken apart as in their logical model: a sign, a mantissa and an
exponent, or one of the special values.
-/

namespace SoftMargin
namespace Double

open Float.Model Float.Model.UnpackedFloat

/-!
## Rounding

Bits that a mantissa has beyond the leading 53 are dropped twice: once before
the mantissa is rounded, and once more because rounding up may carry.
-/

@[simp] theorem mantissa_shiftRight (k : Nat) (em : ExtendedMantissa) :
    (em >>> k).mantissa = em.mantissa / 2 ^ k := by
  induction k with
  | zero => exact (Nat.div_one _).symm
  | succ k ih =>
    have hstep : (em >>> (k + 1)).mantissa = (em >>> k).mantissa / 2 := rfl
    rw [hstep, ih, Nat.div_div_eq_div_mul, pow_succ]

@[simp] theorem mantissa_ofMantissaAndAccuracy (m : Nat) (a : Accuracy) :
    (ExtendedMantissa.ofMantissaAndAccuracy m a).mantissa = m := by
  cases a with
  | exact => rfl
  | inexact o => cases o <;> rfl

theorem mantissa_le_roundedMantissa (em : ExtendedMantissa) :
    em.mantissa ≤ em.roundedMantissa := by
  unfold ExtendedMantissa.roundedMantissa
  cases em.accuracy with
  | exact => exact le_refl _
  | inexact o => cases o <;> simp [Accuracy.roundToNearestEven]

theorem targetExponent_eq (t : Int) :
    Format.binary64.targetExponent t = max (t - 53) (-1074) :=
  rfl

theorem shiftToTargetExponent_eq {e : Int} (he : -1074 ≤ e) (m : Nat) (a : Accuracy) :
    shiftToTargetExponent .binary64 m e a =
      (ExtendedMantissa.ofMantissaAndAccuracy m a >>> (m.log2 - 52),
        e + (m.log2 - 52 : Nat)) := by
  have hk : (Format.binary64.targetExponent (totalExponent m e) - e).toNat = m.log2 - 52 := by
    rw [targetExponent_eq, totalExponent]
    omega
  simp only [shiftToTargetExponent, shiftToExponent, hk]

theorem leading_pos {m : Nat} (hm : 0 < m) : 0 < m / 2 ^ (m.log2 - 52) :=
  Nat.div_pos ((Nat.pow_le_pow_right (by decide) (Nat.sub_le _ _)).trans
    (Nat.log2_self_le hm.ne')) (Nat.two_pow_pos _)

theorem leading_lt (m : Nat) : m / 2 ^ (m.log2 - 52) < 2 ^ 53 := by
  rw [Nat.div_lt_iff_lt_mul (Nat.two_pow_pos _), ← pow_add]
  exact Nat.lt_log2_self.trans_le (Nat.pow_le_pow_right (by decide) (by omega))

/-- A number of the given sign, not zero, that is a double unless its exponent is too large. -/
def Signed (s : Sign) : UnpackedFloat → Prop
  | .finite t m e _ => t = s ∧ m < 2 ^ 53 ∧ -1074 ≤ e
  | _ => False

theorem signed_roundWithAccuracy (s : Sign) {m : Nat} (hm : 0 < m) {e : Int} (he : -1074 ≤ e)
    (a : Accuracy) : Signed s (roundWithAccuracy .binary64 s m e a) := by
  unfold roundWithAccuracy
  rw [shiftToTargetExponent_eq he]
  generalize hem : ExtendedMantissa.ofMantissaAndAccuracy m a >>> (m.log2 - 52) = em
  have hrounded : 0 < em.roundedMantissa := by
    refine lt_of_lt_of_le ?_ (mantissa_le_roundedMantissa em)
    rw [← hem, mantissa_shiftRight, mantissa_ofMantissaAndAccuracy]
    exact leading_pos hm
  have he' : -1074 ≤ e + (m.log2 - 52 : Nat) := by omega
  simp only [shiftToTargetExponent_eq he', mantissa_shiftRight, mantissa_ofMantissaAndAccuracy]
  rw [dif_neg (leading_pos hrounded).ne']
  exact ⟨rfl, leading_lt _, by omega⟩

theorem shiftLeft_pos {m : Nat} (hm : 0 < m) (k : Nat) : 0 < m <<< k := by
  rw [Nat.shiftLeft_eq]
  exact Nat.mul_pos hm (Nat.two_pow_pos k)

theorem signed_round (s : Sign) {m : Nat} (hm : 0 < m) {e : Int} (he : -1074 ≤ e) :
    Signed s (UnpackedFloat.round .binary64 s m e) := by
  unfold UnpackedFloat.round decreaseExponent
  apply signed_roundWithAccuracy
  · exact shiftLeft_pos hm _
  · rw [targetExponent_eq]
    omega

/-!
## Packing
-/

def order : Sign → Ordering
  | .negative => .lt
  | .positive => .gt

theorem compare_packComponents (s : Sign) {x : BitVec 11} {f : BitVec 52}
    (hdefined : x = -1#11 → f = 0#52) (hnonzero : x = 0#11 → f ≠ 0#52) :
    (UnpackedFloat.unpack .binary64 (packComponents .binary64 s x f)).compare (.zero .positive) =
      some (order s) := by
  unfold UnpackedFloat.unpack
  simp only [unpackExponent_packComponents, unpackMantissa_packComponents,
    unpackSign_packComponents, Sign.ofBitVec_toBitVec]
  split_ifs with hlast hf hfirst hf
  · cases s <;> rfl
  · exact absurd (hdefined hlast) hf
  · exact absurd hf (hnonzero hfirst)
  · cases s <;> rfl
  · cases s <;> rfl

/-- Packing keeps the sign, also where the exponent is too large and the result an infinity. -/
theorem compare_unpack_pack {s : Sign} {u : UnpackedFloat} (h : Signed s u) :
    (Float.Model.pack u).unpack.compare (.zero .positive) = some (order s) := by
  cases u with
  | finite t m e hm =>
    obtain ⟨rfl, hm53, he⟩ := h
    have hbias : Format.binary64.exponentBias = 1023 := by decide
    have hbits : Format.binary64.mantissaBits = 53 := by decide
    change (UnpackedFloat.unpack _ (UnpackedFloat.pack .binary64 _)).compare _ = _
    unfold UnpackedFloat.pack
    simp only [hbias, hbits]
    split_ifs with hlarge hnormal
    · exact compare_packComponents t (fun _ => rfl) (fun h => absurd h (by decide))
    · refine compare_packComponents t (fun hlast => ?_) (fun hfirst => ?_)
      · have hx : (e + (1023 : Nat) + (52 : Nat)).toNat % 2 ^ 11 = 2 ^ 11 - 1 :=
          congrArg BitVec.toNat hlast
        omega
      · have hx : (e + (1023 : Nat) + (52 : Nat)).toNat % 2 ^ 11 = 0 :=
          congrArg BitVec.toNat hfirst
        omega
    · refine compare_packComponents t (fun hlast => absurd hlast (by decide)) (fun _ hf => ?_)
      have hlog : m.log2 < 53 := (Nat.log2_lt hm.ne').mpr hm53
      have hm52 : m < 2 ^ 52 := (Nat.log2_lt hm.ne').mp (by omega)
      have hm0 : m % 2 ^ 52 = 0 := congrArg BitVec.toNat hf
      omega
  | _ => exact h.elim

/-!
## Comparison

Doubles compare by exponent first and mantissa second. That is the order of the
numbers because a mantissa has all of its 53 bits, unless the exponent is the
least one.
-/

def IsCanonical : UnpackedFloat → Prop
  | .finite _ m e _ => m < 2 ^ 53 ∧ -1074 ≤ e ∧ (m < 2 ^ 52 → e = -1074)
  | _ => True

theorem isCanonical_unpack (x : Float.Model) : IsCanonical x.unpack := by
  have hbias : Format.binary64.exponentBias = 1023 := by decide
  have hm : (@unpackMantissa .binary64 x.toBits.toBitVec).toNat < 2 ^ 52 := BitVec.isLt _
  unfold Float.Model.unpack UnpackedFloat.unpack
  dsimp only
  split_ifs with hlast hf hfirst hf
  · trivial
  · trivial
  · trivial
  · have hexp : (@unpackExponent .binary64 x.toBits.toBitVec).toNat = 0 :=
      congrArg BitVec.toNat hfirst
    simp only [IsCanonical, hbias, hexp]
    omega
  · have hexp : 0 < (@unpackExponent .binary64 x.toBits.toBitVec).toNat := by
      simpa [BitVec.toNat_pos, BitVec.pos_iff_ne_zero] using hfirst
    have hhidden : (1#1 ++ @unpackMantissa .binary64 x.toBits.toBitVec).toNat =
        2 ^ 52 + (@unpackMantissa .binary64 x.toBits.toBitVec).toNat := by
      rw [BitVec.toNat_append, ← Nat.shiftLeft_add_eq_or_of_lt hm]
      rfl
    simp only [IsCanonical, hbias, hhidden]
    omega

theorem compare_swap (u v : UnpackedFloat) :
    v.compare u = (u.compare v).map Ordering.swap := by
  cases u with
  | infinity s =>
    cases v with
    | infinity t => cases s <;> cases t <;> rfl
    | _ => cases s <;> rfl
  | notANumber => cases v <;> rfl
  | zero s =>
    cases v with
    | infinity t => cases t <;> rfl
    | finite t => cases t <;> rfl
    | _ => rfl
  | finite s m e =>
    cases v with
    | infinity t => cases s <;> cases t <;> rfl
    | finite t n f =>
      have he : compare f e = (compare e f).swap := Std.OrientedCmp.eq_swap
      have hm : compare n m = (compare m n).swap := Std.OrientedCmp.eq_swap
      cases s <;> cases t <;> simp [UnpackedFloat.compare, Ordering.swap_then, he, hm]
    | _ => cases s <;> rfl

theorem exists_compare {u v : UnpackedFloat} (hu : u.isFinite = true) (hv : v.isFinite = true) :
    ∃ o, u.compare v = some o := by
  cases u with
  | infinity s => cases hu
  | notANumber => cases hu
  | zero s =>
    cases v with
    | infinity t => cases hv
    | notANumber => cases hv
    | zero t => exact ⟨_, rfl⟩
    | finite t => cases t <;> exact ⟨_, rfl⟩
  | finite s =>
    cases v with
    | infinity t => cases hv
    | notANumber => cases hv
    | zero t => cases s <;> exact ⟨_, rfl⟩
    | finite t => cases s <;> cases t <;> exact ⟨_, rfl⟩

theorem lt_shiftLeft {m n k : Nat} (hm : m < 2 ^ 53) (hn : 2 ^ 52 ≤ n) (hk : 0 < k) :
    m < n <<< k := by
  rw [Nat.shiftLeft_eq]
  calc m < 2 ^ 52 * 2 ^ 1 := hm
    _ ≤ n * 2 ^ k := Nat.mul_le_mul hn (Nat.pow_le_pow_right (by decide) hk)

theorem compare_aligned {m n : Nat} {e f : Int} (hm : m < 2 ^ 53) (hn : n < 2 ^ 53)
    (hfe : f < e → 2 ^ 52 ≤ m) (hef : e < f → 2 ^ 52 ≤ n) :
    compare (m <<< (e - min e f).toNat) (n <<< (f - min e f).toNat) =
      (compare e f).then (compare m n) := by
  rcases lt_trichotomy e f with h | h | h
  · have hlt : m < n <<< (f - e).toNat := lt_shiftLeft hm (hef h) (by omega)
    rw [compare_lt_iff_lt.mpr h, min_eq_left h.le, sub_self]
    exact compare_lt_iff_lt.mpr hlt
  · subst h
    simp
  · have hlt : n < m <<< (e - f).toNat := lt_shiftLeft hn (hfe h) (by omega)
    rw [compare_gt_iff_gt.mpr h, min_eq_right h.le, sub_self]
    exact compare_gt_iff_gt.mpr hlt

theorem compare_natCast_sub (m n : Nat) : compare ((m : Int) - n) 0 = compare m n := by
  rcases lt_trichotomy m n with h | h | h
  · rw [compare_lt_iff_lt.mpr h]
    exact compare_lt_iff_lt.mpr (by omega)
  · subst h
    simp
  · rw [compare_gt_iff_gt.mpr h]
    exact compare_gt_iff_gt.mpr (by omega)

theorem compare_finite {s t : Sign} {m n : Nat} {e f : Int} {hm : 0 < m} {hn : 0 < n}
    (hu : IsCanonical (.finite s m e hm)) (hv : IsCanonical (.finite t n f hn)) :
    (UnpackedFloat.finite s m e hm).compare (.finite t n f hn) =
      some (compare (s.apply (m <<< (e - min e f).toNat : Nat) -
        t.apply (n <<< (f - min e f).toNat : Nat)) 0) := by
  obtain ⟨hm53, he, hm52⟩ := hu
  obtain ⟨hn53, hf, hn52⟩ := hv
  have haligned := compare_aligned hm53 hn53 (e := e) (f := f) (by omega) (by omega)
  have hmpos : 0 < m <<< (e - min e f).toNat := shiftLeft_pos hm _
  have hnpos : 0 < n <<< (f - min e f).toNat := shiftLeft_pos hn _
  generalize m <<< (e - min e f).toNat = a at *
  generalize n <<< (f - min e f).toNat = b at *
  cases s <;> cases t <;> simp only [UnpackedFloat.compare, Sign.apply, ← haligned]
  · have hswap : compare b a = (compare a b).swap := Std.OrientedCmp.eq_swap
    rw [neg_sub_neg, compare_natCast_sub, hswap]
  · exact congrArg some (compare_lt_iff_lt.mpr (by omega)).symm
  · exact congrArg some (compare_gt_iff_gt.mpr (by omega)).symm
  · rw [compare_natCast_sub]

/-!
## Subtraction
-/

theorem compare_normalize (d : Int) {e : Int} (he : -1074 ≤ e) :
    (Float.Model.pack (UnpackedFloat.normalize .binary64 d e .positive)).unpack.compare
      (.zero .positive) = some (compare d 0) := by
  unfold UnpackedFloat.normalize
  rcases lt_trichotomy d 0 with h | h | h
  · rw [compare_lt_iff_lt.mpr h]
    exact compare_unpack_pack (signed_round .negative (by omega) he)
  · have hzero : (Float.Model.pack (.zero .positive)).unpack = .zero .positive :=
      unpack_packedZero
    rw [compare_eq_iff_eq.mpr h]
    exact congrArg (fun u => u.compare (.zero .positive)) hzero
  · rw [compare_gt_iff_gt.mpr h]
    exact compare_unpack_pack (signed_round .positive (by omega) he)

theorem compare_sub {u v : UnpackedFloat} (hu : IsCanonical u) (hv : IsCanonical v)
    (hfu : u.isFinite = true) (hfv : v.isFinite = true) :
    (Float.Model.pack (u.sub .binary64 v)).unpack.compare (.zero .positive) = u.compare v := by
  cases u with
  | infinity s => cases hfu
  | notANumber => cases hfu
  | zero s =>
    cases v with
    | infinity t => cases hfv
    | notANumber => cases hfv
    | zero t => cases s <;> cases t <;> rfl
    | finite t n f hn =>
      have hneg : Signed (-t) (.finite (-t) n f hn) := ⟨rfl, hv.1, hv.2.1⟩
      exact (compare_unpack_pack hneg).trans (by cases t <;> rfl)
  | finite s m e hm =>
    cases v with
    | infinity t => cases hfv
    | notANumber => cases hfv
    | zero t =>
      have hpos : Signed s (.finite s m e hm) := ⟨rfl, hu.1, hu.2.1⟩
      exact (compare_unpack_pack hpos).trans (by cases s <;> rfl)
    | finite t n f hn =>
      rw [compare_finite hu hv]
      exact compare_normalize _ (le_min hu.2.1 hv.2.1)

theorem compare_sub_zero {a b : Float} (ha : a.isFinite = true) (hb : b.isFinite = true) :
    (a - b).toModel.unpack.compare (0 : Float).toModel.unpack =
      a.toModel.unpack.compare b.toModel.unpack :=
  compare_sub (isCanonical_unpack a.toModel) (isCanonical_unpack b.toModel) ha hb

theorem lt_iff_compare (a b : Float) :
    a < b ↔ a.toModel.unpack.compare b.toModel.unpack = some .lt := by
  simp [LT.lt, Float.lt, Float.Model.lt, UnpackedFloat.lt]

theorem gt_iff_compare (a b : Float) :
    b < a ↔ a.toModel.unpack.compare b.toModel.unpack = some .gt := by
  rw [lt_iff_compare, compare_swap a.toModel.unpack b.toModel.unpack]
  cases a.toModel.unpack.compare b.toModel.unpack with
  | none => simp
  | some o => cases o <;> simp

theorem le_iff_compare (a b : Float) :
    a ≤ b ↔ (a.toModel.unpack.compare b.toModel.unpack).any (·.isLE) = true :=
  decide_eq_true_iff

theorem same_iff_compare (a b : Float) :
    Scalar.same a b = true ↔ a.toModel.unpack.compare b.toModel.unpack = some .eq := by
  rw [Scalar.same, Bool.and_eq_true, decide_eq_true_iff, decide_eq_true_iff, le_iff_compare,
    le_iff_compare, compare_swap a.toModel.unpack b.toModel.unpack]
  cases a.toModel.unpack.compare b.toModel.unpack with
  | none => simp
  | some o => cases o <;> simp

instance : SignedDifferences Float where
  sub_pos_iff ha hb := by
    rw [gt_iff_compare, compare_sub_zero ha hb, gt_iff_compare]
  same_sub_zero ha hb := by
    rw [Bool.eq_iff_iff, same_iff_compare, same_iff_compare]
    exact Eq.congr_left (compare_sub_zero ha hb)
  lt_or_lt ha hb hne := by
    rw [← Bool.not_eq_true, same_iff_compare] at hne
    obtain ⟨o, ho⟩ := exists_compare ha hb
    rw [lt_iff_compare, gt_iff_compare, ho]
    rw [ho] at hne
    cases o with
    | lt => exact Or.inl rfl
    | eq => exact absurd rfl hne
    | gt => exact Or.inr rfl
  not_lt _ _ hlt := by
    rw [lt_iff_compare] at hlt
    rw [gt_iff_compare, hlt]
    decide

end Double
end SoftMargin
