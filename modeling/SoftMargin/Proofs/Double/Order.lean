import SoftMargin.Proofs.Double.Difference

/-!
# Order of doubles

Every double that is a number has a rank, and doubles compare as their ranks do.
So they are in a total order, in which only the value that is no number stands
nowhere. The difference of two finite doubles may overflow, but it always has a
rank.
-/

namespace SoftMargin
namespace Double

open Float.Model Float.Model.UnpackedFloat

/-!
## Ranks
-/

/-- Numbers above zero rank by exponent first and mantissa second, and those below zero the other
way round. Both zeros have one rank. -/
def rank : UnpackedFloat → Option (Int ×ₗ Int ×ₗ Int)
  | .notANumber => none
  | .infinity .negative => some (toLex (-2, toLex (0, 0)))
  | .finite .negative m e _ => some (toLex (-1, toLex (-e, -(m : Int))))
  | .zero _ => some (toLex (0, toLex (0, 0)))
  | .finite .positive m e _ => some (toLex (1, toLex (e, (m : Int))))
  | .infinity .positive => some (toLex (2, toLex (0, 0)))

theorem compare_toLex (a b c a' b' c' : Int) :
    compare (toLex (a, toLex (b, c))) (toLex (a', toLex (b', c'))) =
      (compare a a').then ((compare b b').then (compare c c')) := by
  simp only [Prod.Lex.compare_def, compareLex, compareOn, ofLex_toLex]

theorem compare_natCast (m n : Nat) : compare (m : Int) (n : Int) = compare m n := by
  rw [← cmp_eq_compare, ← cmp_eq_compare]
  exact Nat.strictMono_cast.cmp_map_eq m n

theorem compare_neg_neg (a b : Int) : compare (-a) (-b) = (compare a b).swap := by
  rw [← Std.OrientedCmp.eq_swap, ← cmp_eq_compare, ← cmp_eq_compare]
  exact StrictAnti.cmp_map_eq (fun _ _ => neg_lt_neg) a b

theorem compare_eq_rank (u v : UnpackedFloat) :
    u.compare v = (rank u).bind fun r => (rank v).map fun s => compare r s := by
  cases u with
  | notANumber => rfl
  | infinity s =>
    cases v with
    | infinity t => cases s <;> cases t <;> rfl
    | finite t => cases s <;> cases t <;> rfl
    | _ => cases s <;> rfl
  | zero s =>
    cases v with
    | infinity t => cases t <;> rfl
    | finite t => cases t <;> rfl
    | _ => rfl
  | finite s m e =>
    cases v with
    | infinity t => cases s <;> cases t <;> rfl
    | finite t n f =>
      cases s with
      | negative =>
        cases t with
        | negative =>
          simp only [UnpackedFloat.compare, rank, Option.bind_some, Option.map_some,
            compare_toLex, compare_neg_neg, compare_natCast, Ordering.swap_then]
          rfl
        | positive => rfl
      | positive =>
        cases t with
        | negative => rfl
        | positive =>
          simp only [UnpackedFloat.compare, rank, Option.bind_some, Option.map_some,
            compare_toLex, compare_natCast]
          rfl
    | _ => cases s <;> rfl

/-!
## Comparison by rank
-/

theorem le_iff_rank (a b : Float) : a ≤ b ↔
    ∃ r ∈ rank a.toModel.unpack, ∃ s ∈ rank b.toModel.unpack, r ≤ s := by
  rw [le_iff_compare, compare_eq_rank]
  cases rank a.toModel.unpack with
  | none => simp
  | some r =>
    cases rank b.toModel.unpack with
    | none => simp
    | some s =>
      have h : compare r s ≠ .gt ↔ r ≤ s := compare_le_iff_le
      simpa [Ordering.isLE_iff_ne_gt] using h

theorem lt_iff_rank (a b : Float) : a < b ↔
    ∃ r ∈ rank a.toModel.unpack, ∃ s ∈ rank b.toModel.unpack, r < s := by
  rw [lt_iff_compare, compare_eq_rank]
  cases rank a.toModel.unpack with
  | none => simp
  | some r =>
    cases rank b.toModel.unpack with
    | none => simp
    | some s =>
      have h : compare r s = .lt ↔ r < s := compare_lt_iff_lt
      simpa using h

theorem isUndefined_eq_false_iff (a : Float) :
    Scalar.isUndefined a = false ↔ ∃ r, r ∈ rank a.toModel.unpack := by
  rw [Scalar.isUndefined, Bool.not_eq_false', decide_eq_true_iff, le_iff_rank]
  constructor
  · rintro ⟨r, hr, _⟩
    exact ⟨r, hr⟩
  · rintro ⟨r, hr⟩
    exact ⟨r, hr, r, hr, le_refl r⟩

theorem isUndefined_sub {a b : Float} (ha : a.isFinite = true) (hb : b.isFinite = true) :
    Scalar.isUndefined (a - b) = false := by
  obtain ⟨o, ho⟩ := exists_compare ha hb
  rw [← compare_sub_zero ha hb, compare_eq_rank] at ho
  obtain ⟨r, hr, _⟩ := Option.bind_eq_some_iff.mp ho
  exact (isUndefined_eq_false_iff _).mpr ⟨r, hr⟩

instance : OrderedDifferences Float where
  le_trans {a b c} hab hbc := by
    rw [le_iff_rank] at hab hbc ⊢
    obtain ⟨r, hr, s, hs, hrs⟩ := hab
    obtain ⟨s', hs', t, ht, hst⟩ := hbc
    rw [Option.mem_unique hs' hs] at hst
    exact ⟨r, hr, t, ht, hrs.trans hst⟩
  lt_iff {a b} := by
    rw [le_iff_rank, le_iff_rank, lt_iff_rank]
    constructor
    · rintro ⟨r, hr, s, hs, hrs⟩
      refine ⟨⟨r, hr, s, hs, hrs.le⟩, ?_⟩
      rintro ⟨s', hs', r', hr', hsr⟩
      rw [Option.mem_unique hs' hs, Option.mem_unique hr' hr] at hsr
      exact absurd hrs (not_lt.mpr hsr)
    · rintro ⟨⟨r, hr, s, hs, _⟩, hnot⟩
      exact ⟨r, hr, s, hs, not_le.mp fun hsr => hnot ⟨s, hs, r, hr, hsr⟩⟩
  le_total {a b} ha hb := by
    rw [isUndefined_eq_false_iff] at ha hb
    obtain ⟨r, hr⟩ := ha
    obtain ⟨s, hs⟩ := hb
    rw [le_iff_rank, le_iff_rank]
    rcases le_total r s with hrs | hsr
    · exact Or.inl ⟨r, hr, s, hs, hrs⟩
    · exact Or.inr ⟨s, hs, r, hr, hsr⟩
  isUndefined_sub := isUndefined_sub

end Double
end SoftMargin
