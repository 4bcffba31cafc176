import Mathlib.Data.List.Basic
import SoftMargin.Text.Utf8

/-!
# Reading the UTF-8 of a text

A character is spelled by one byte up to four. The number that its bytes spell is
the number of the character, and they are taken for its front whatever follows.
-/

namespace SoftMargin
namespace Utf8

/-! ## Bytes -/

theorem payload_eq (b : UInt8) : payload b = b.toNat % 64 := by
  unfold payload
  rw [UInt8.toNat_and]
  exact Nat.and_two_pow_sub_one_eq_mod b.toNat 6

theorem within_iff (low high b : UInt8) :
    (decide (low ≤ b) && decide (b ≤ high)) = true ↔
      low.toNat ≤ b.toNat ∧ b.toNat ≤ high.toNat := by
  rw [Bool.and_eq_true, decide_eq_true_eq, decide_eq_true_eq, UInt8.le_iff_toNat_le,
    UInt8.le_iff_toNat_le]

theorem continues_of {b : UInt8} (h : 128 ≤ b.toNat ∧ b.toNat ≤ 191) : continues b = true :=
  (within_iff 0x80 0xbf b).mpr h

theorem mayFollow_of {a b : UInt8} (hb : 128 ≤ b.toNat ∧ b.toNat ≤ 191)
    (h224 : a.toNat = 224 → 160 ≤ b.toNat) (h237 : a.toNat = 237 → b.toNat ≤ 159)
    (h240 : a.toNat = 240 → 144 ≤ b.toNat) (h244 : a.toNat = 244 → b.toNat ≤ 143) :
    mayFollow a b = true := by
  unfold mayFollow
  simp only [beq_iff_eq, ← UInt8.toNat_inj]
  split_ifs with h h h h
  · exact (within_iff 0xa0 0xbf b).mpr ⟨h224 h, hb.right⟩
  · exact (within_iff 0x80 0x9f b).mpr ⟨hb.left, h237 h⟩
  · exact (within_iff 0x90 0xbf b).mpr ⟨h240 h, hb.right⟩
  · exact (within_iff 0x80 0x8f b).mpr ⟨hb.left, h244 h⟩
  · exact continues_of hb

/-! ## Characters of each width -/

theorem width_eq (a : UInt8) :
    width a =
      if a.toNat < 128 then 1
      else if 194 ≤ a.toNat ∧ a.toNat ≤ 223 then 2
      else if 224 ≤ a.toNat ∧ a.toNat ≤ 239 then 3
      else if 240 ≤ a.toNat ∧ a.toNat ≤ 244 then 4
      else 0 := by
  unfold width
  simp only [within_iff, UInt8.lt_iff_toNat_lt]
  rfl

theorem front_one {a : UInt8} (ha : a.toNat < 128) (rest : List UInt8) :
    front a rest = .character (Char.ofNat a.toNat) 1 := by
  unfold front
  rw [width_eq, if_pos ha]
  cases rest <;> rfl

theorem front_two {a b : UInt8} (ha : 194 ≤ a.toNat ∧ a.toNat ≤ 223)
    (hb : 128 ≤ b.toNat ∧ b.toNat ≤ 191) (rest : List UInt8) :
    front a (b :: rest) = .character (Char.ofNat (a.toNat % 32 * 64 + b.toNat % 64)) 2 := by
  have hfollow : mayFollow a b = true :=
    mayFollow_of hb (by omega) (by omega) (by omega) (by omega)
  have hlead : (a &&& 0x1f).toNat = a.toNat % 32 := by
    rw [UInt8.toNat_and]
    exact Nat.and_two_pow_sub_one_eq_mod a.toNat 5
  unfold front
  rw [width_eq, if_neg (by omega), if_pos ha]
  change (if mayFollow a b = true then _ else _) = _
  rw [if_pos hfollow, hlead, payload_eq]

theorem front_three {a b c : UInt8} (ha : 224 ≤ a.toNat ∧ a.toNat ≤ 239)
    (hb : 128 ≤ b.toNat ∧ b.toNat ≤ 191) (hc : 128 ≤ c.toNat ∧ c.toNat ≤ 191)
    (hlong : a.toNat = 224 → 160 ≤ b.toNat) (hsurrogate : a.toNat = 237 → b.toNat ≤ 159)
    (rest : List UInt8) :
    front a (b :: c :: rest) =
      .character (Char.ofNat ((a.toNat % 16 * 64 + b.toNat % 64) * 64 + c.toNat % 64)) 3 := by
  have hfollow : mayFollow a b = true :=
    mayFollow_of hb hlong hsurrogate (by omega) (by omega)
  have hlead : (a &&& 0x0f).toNat = a.toNat % 16 := by
    rw [UInt8.toNat_and]
    exact Nat.and_two_pow_sub_one_eq_mod a.toNat 4
  unfold front
  rw [width_eq, if_neg (by omega), if_neg (by omega), if_pos ha]
  change (if (!mayFollow a b) = true then _ else if (!continues c) = true then _ else _) = _
  rw [hfollow, continues_of hc, hlead, payload_eq, payload_eq]
  rfl

theorem front_four {a b c d : UInt8} (ha : 240 ≤ a.toNat ∧ a.toNat ≤ 244)
    (hb : 128 ≤ b.toNat ∧ b.toNat ≤ 191) (hc : 128 ≤ c.toNat ∧ c.toNat ≤ 191)
    (hd : 128 ≤ d.toNat ∧ d.toNat ≤ 191) (hlong : a.toNat = 240 → 144 ≤ b.toNat)
    (hlast : a.toNat = 244 → b.toNat ≤ 143) (rest : List UInt8) :
    front a (b :: c :: d :: rest) =
      .character (Char.ofNat (((a.toNat % 8 * 64 + b.toNat % 64) * 64 + c.toNat % 64) * 64 +
        d.toNat % 64)) 4 := by
  have hfollow : mayFollow a b = true :=
    mayFollow_of hb (by omega) (by omega) hlong hlast
  have hlead : (a &&& 0x07).toNat = a.toNat % 8 := by
    rw [UInt8.toNat_and]
    exact Nat.and_two_pow_sub_one_eq_mod a.toNat 3
  unfold front
  rw [width_eq, if_neg (by omega), if_neg (by omega), if_neg (by omega), if_pos ha]
  change (if (!mayFollow a b) = true then _ else if (!continues c) = true then _
    else if (!continues d) = true then _ else _) = _
  rw [hfollow, continues_of hc, continues_of hd, hlead, payload_eq, payload_eq, payload_eq]
  rfl

/-! ## Texts -/

theorem toNat_ofNat {n : Nat} (h : n < 256) : (UInt8.ofNat n).toNat = n := by
  rw [UInt8.toNat_ofNat', Nat.mod_eq_of_lt h]

theorem front_utf8EncodeChar (c : Char) : ∃ first more,
    String.utf8EncodeChar c = first :: more ∧
      ∀ rest, front first (more ++ rest) = .character c (more.length + 1) := by
  have hvalid : c.val.toNat < 0xd800 ∨ 0xdfff < c.val.toNat ∧ c.val.toNat < 0x110000 := c.valid
  have hc : Char.ofNat c.val.toNat = c := c.ofNat_toNat
  unfold String.utf8EncodeChar
  dsimp only
  generalize c.val.toNat = v at *
  split_ifs with hone htwo hthree
  · refine ⟨_, _, rfl, fun rest => ?_⟩
    have hfirst := toNat_ofNat (n := v) (by omega)
    rw [front_one (by omega), hfirst, hc]
    rfl
  · refine ⟨_, _, rfl, fun rest => ?_⟩
    have ha := toNat_ofNat (n := v / 64 % 32 + 192) (by omega)
    have hb := toNat_ofNat (n := v % 64 + 128) (by omega)
    have hv : (v / 64 % 32 + 192) % 32 * 64 + (v % 64 + 128) % 64 = v := by omega
    have hfront := front_two (a := UInt8.ofNat (v / 64 % 32 + 192))
      (b := UInt8.ofNat (v % 64 + 128)) (by omega) (by omega) rest
    rw [ha, hb, hv, hc] at hfront
    exact hfront
  · refine ⟨_, _, rfl, fun rest => ?_⟩
    have ha := toNat_ofNat (n := v / 4096 % 16 + 224) (by omega)
    have hb := toNat_ofNat (n := v / 64 % 64 + 128) (by omega)
    have hc' := toNat_ofNat (n := v % 64 + 128) (by omega)
    have hv : ((v / 4096 % 16 + 224) % 16 * 64 + (v / 64 % 64 + 128) % 64) * 64 +
        (v % 64 + 128) % 64 = v := by omega
    have hfront := front_three (a := UInt8.ofNat (v / 4096 % 16 + 224))
      (b := UInt8.ofNat (v / 64 % 64 + 128)) (c := UInt8.ofNat (v % 64 + 128))
      (by omega) (by omega) (by omega) (by omega) (by omega) rest
    rw [ha, hb, hc', hv, hc] at hfront
    exact hfront
  · refine ⟨_, _, rfl, fun rest => ?_⟩
    have ha := toNat_ofNat (n := v / 262144 % 8 + 240) (by omega)
    have hb := toNat_ofNat (n := v / 4096 % 64 + 128) (by omega)
    have hc' := toNat_ofNat (n := v / 64 % 64 + 128) (by omega)
    have hd := toNat_ofNat (n := v % 64 + 128) (by omega)
    have hv : (((v / 262144 % 8 + 240) % 8 * 64 + (v / 4096 % 64 + 128) % 64) * 64 +
        (v / 64 % 64 + 128) % 64) * 64 + (v % 64 + 128) % 64 = v := by omega
    have hfront := front_four (a := UInt8.ofNat (v / 262144 % 8 + 240))
      (b := UInt8.ofNat (v / 4096 % 64 + 128)) (c := UInt8.ofNat (v / 64 % 64 + 128))
      (d := UInt8.ofNat (v % 64 + 128))
      (by omega) (by omega) (by omega) (by omega) (by omega) (by omega) rest
    rw [ha, hb, hc', hd, hv, hc] at hfront
    exact hfront

theorem frontsWithin_utf8EncodeChar (cs : List Char) {fuel : Nat}
    (hfuel : (cs.flatMap String.utf8EncodeChar).length ≤ fuel) :
    (frontsWithin fuel (cs.flatMap String.utf8EncodeChar)).mapM Front.character? = some cs := by
  induction cs generalizing fuel with
  | nil => cases fuel <;> rfl
  | cons c cs ih =>
      rcases front_utf8EncodeChar c with ⟨first, more, hbytes, hfront⟩
      rw [List.flatMap_cons, hbytes, List.cons_append] at hfuel ⊢
      cases fuel with
      | zero => cases hfuel
      | succ fuel =>
          rw [List.length_cons, List.length_append] at hfuel
          rw [frontsWithin, hfront]
          dsimp only
          rw [Nat.add_sub_cancel, List.drop_left, List.mapM_cons, ih (by omega)]
          rfl

theorem text?_toUTF8 (s : String) : text? s.toUTF8.data.toList = some s := by
  have hbytes : s.toUTF8.data.toList = s.toList.flatMap String.utf8EncodeChar := by
    unfold String.toUTF8
    rw [← String.utf8Encode_toList, List.utf8Encode, List.toList_data_toByteArray]
  rw [hbytes]
  unfold text? fronts
  rw [frontsWithin_utf8EncodeChar s.toList (Nat.le_refl _), Option.map_some, String.ofList_toList]

end Utf8
end SoftMargin
