import SoftMargin.Proofs.Ldl.Tree

/-!
# Fill

Elimination of a column connects all later columns that it touches. The pattern
that this leads to is what symbolic elimination defines. The walks up the tree
never form it, and yet meet exactly its entries: a column takes up another one
if and only if the pattern has an entry there. So the parent of a column is the
first later column in its row of the pattern, and its count is the length of
that row.
-/

namespace SoftMargin
namespace Ldl

open Finset

variable {α : Type} {A : Csc α} {k i j : Nat}

/-!
## The pattern
-/

/-- The entries above the diagonal once all columns are eliminated: those that are stored, and with
each two in one row the one at the crossing. -/
inductive Fill (A : Csc α) : Nat → Nat → Prop where
  | stored {k j : Nat} (value : α) (hentry : (k, value) ∈ A.column j) (hlt : k < j)
      (hcol : j < A.cols) : Fill A k j
  | join {k i j : Nat} (hi : Fill A k i) (hj : Fill A k j) (hki : k < i) (hij : i < j) :
      Fill A i j

namespace Fill

theorem lt (h : Fill A k j) : k < j := by
  cases h with
  | stored value hentry hlt hcol => exact hlt
  | join hi hj hki hij => exact hij

theorem lt_cols (h : Fill A k j) : j < A.cols := by
  induction h with
  | stored value hentry hlt hcol => exact hcol
  | join hi hj hki hij ihi ihj => exact ihj

end Fill

/-!
## Paths and fill
-/

section Tree

variable {parent : Array (Option Nat)} (htree : IsEliminationTree A parent A.cols)

include htree

theorem Fill.takes (h : Fill A k j) : Takes A parent j k := by
  induction h with
  | stored value hentry hlt hcol => exact ⟨hlt, _, hentry, Climbs.refl parent _⟩
  | join hi hj hki hij ihi ihj =>
      rename_i k i j
      rcases ihi with ⟨_, d, hd, hdk⟩
      rcases ihj with ⟨_, e, he, hek⟩
      have hdi := htree.climbs i (hij.trans hj.lt_cols) d hd
      have hki' : Climbs parent k i := hdk.of_lt htree.rising hdi hki
      exact ⟨hij, e, he, hek.trans hki'⟩

theorem Takes.climbs (hj : j < A.cols) (h : Takes A parent j k) : Climbs parent k j := by
  rcases h with ⟨hkj, e, he, hek⟩
  exact hek.of_lt htree.rising (htree.climbs j hj e he) hkj

variable (hparent : ∀ i p, parent.getD i none = some p → Takes A parent p i)

include hparent

theorem Takes.fill (hj : j < A.cols) (h : Takes A parent j k) : Fill A k j := by
  induction j using Nat.strong_induction_on generalizing k with
  | h j ih =>
      rcases h with ⟨hkj, e, he, hek⟩
      -- along the path each node joins the row of the one before it
      induction hek with
      | refl => exact Fill.stored e.2 he hkj hj
      | @tail b c heb hbc ihb =>
          change parent.getD b none = some c at hbc
          have hlt := (htree.rising b c hbc).left
          have hb : Fill A b j := ihb (hlt.trans hkj)
          have hc : Fill A b c := ih c hkj (hkj.trans hj) (hparent b c hbc)
          exact Fill.join hc hb hlt hkj

theorem takes_iff_fill (hj : j < A.cols) : Takes A parent j k ↔ Fill A k j :=
  ⟨Takes.fill htree hparent hj, Fill.takes htree⟩

/-- The parent of a column is the first later column in its row of the pattern. -/
theorem parent_eq_some_iff : parent.getD k none = some j ↔ IsLeast {i | Fill A k i} j := by
  have hleast : ∀ p, parent.getD k none = some p → IsLeast {i | Fill A k i} p := by
    intro p hp
    have hpn := (htree.rising k p hp).right
    refine ⟨Takes.fill htree hparent hpn (hparent k p hp), ?_⟩
    intro i hi
    have hclimb := Takes.climbs htree hi.lt_cols (Fill.takes htree hi)
    rcases hclimb.of_ne hi.lt.ne with ⟨q, hq, hqi⟩
    rw [hp] at hq
    cases hq
    exact hqi.le htree.rising
  constructor
  · exact hleast j
  · intro hj
    have hclimb := Takes.climbs htree hj.left.lt_cols (Fill.takes htree hj.left)
    rcases hclimb.of_ne hj.left.lt.ne with ⟨p, hp, _⟩
    rw [hp, (hleast p hp).unique hj]

theorem parent_eq_none_iff : parent.getD k none = none ↔ ∀ j, ¬Fill A k j := by
  constructor
  · intro hnone j hj
    have hclimb := Takes.climbs htree hj.lt_cols (Fill.takes htree hj)
    rcases hclimb.of_ne hj.lt.ne with ⟨p, hp, _⟩
    rw [hnone] at hp
    cases hp
  · intro hempty
    cases hp : parent.getD k none with
    | none => rfl
    | some p =>
        exact absurd ((parent_eq_some_iff htree hparent).mp hp).left (hempty p)

open Classical in
theorem takenBy_eq_card_fill : takenBy A parent A.cols k = #{j ∈ range A.cols | Fill A k j} := by
  unfold takenBy
  congr 1
  refine filter_congr ?_
  intro j hj
  exact takes_iff_fill htree hparent (mem_range.mp hj)

end Tree

open Classical in
/-- The tree and the counts are those of symbolic elimination, for every upper triangular pattern,
with rows in any order and repeated. -/
theorem eliminationTree_isSymbolic (hA : A.IsUpper) :
    ∃ parent counts, eliminationTree A = .ok (parent, counts) ∧
      parent.size = A.cols ∧ counts.size = A.cols ∧
      ∀ k < A.cols,
        (∀ j, parent.getD k none = some j ↔ IsLeast {i | k < i ∧ Fill A k i} j) ∧
        (parent.getD k none = none ↔ ∀ j, k < j → ¬Fill A k j) ∧
        counts.getD k 0 = #{j ∈ range A.cols | k < j ∧ Fill A k j} := by
  rcases eliminationTree_eq_grown hA with ⟨s, hs, hgrown⟩
  have hlater : ∀ k j, k < j ∧ Fill A k j ↔ Fill A k j :=
    fun k j => and_iff_right_of_imp Fill.lt
  refine ⟨s.parent, s.counts, hs, hgrown.sized.parent, hgrown.sized.counts, ?_⟩
  intro k hk
  refine ⟨?_, ?_, ?_⟩
  · intro j
    simp only [hlater]
    exact parent_eq_some_iff hgrown.tree hgrown.parent_takes
  · rw [parent_eq_none_iff hgrown.tree hgrown.parent_takes]
    exact forall_congr' fun j => ⟨fun h _ => h, fun h hfill => h hfill.lt hfill⟩
  · simp only [hlater]
    rw [hgrown.counts k hk, takenBy_eq_card_fill hgrown.tree hgrown.parent_takes]

/-- A pattern with unsorted rows, a repeated entry, a column without a diagonal entry, and two
columns that are connected only by the elimination of a third. -/
def crossing : Csc Unit :=
  ⟨4, 4, #[0, 1, 2, 3, 6], #[0, 1, 0, 3, 0, 0], #[(), (), (), (), (), ()]⟩

theorem eliminationTree_isSymbolic_crossing :
    crossing.IsUpper ∧
      eliminationTree crossing = .ok (#[some 2, none, some 3, none], #[2, 0, 1, 0]) ∧
      (∀ e ∈ crossing.column 3, e.1 ≠ 2) ∧ IsLeast {i | 2 < i ∧ Fill crossing 2 i} 3 ∧
      ∀ j, 1 < j → ¬Fill crossing 1 j := by
  have hupper : crossing.IsUpper :=
    ⟨rfl, by decide, by decide, by decide, by decide, by decide +kernel⟩
  rcases eliminationTree_isSymbolic hupper with ⟨parent, counts, htree, _, _, hsymbolic⟩
  have hrun : (eliminationTree crossing).toOption =
      some (#[some 2, none, some 3, none], #[2, 0, 1, 0]) := by decide +kernel
  rw [htree] at hrun
  cases hrun
  refine ⟨hupper, htree, by decide +kernel, ?_, ?_⟩
  · exact ((hsymbolic 2 (by decide)).left 3).mp rfl
  · exact (hsymbolic 1 (by decide)).right.left.mp rfl

end Ldl
end SoftMargin
