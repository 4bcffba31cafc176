/-!
# Stable sorting by insertion

Elements are taken in the given order and each moves left past the elements it
is strictly smaller than. Elements that the order does not separate keep their
places, also when the order is not total.
-/

namespace SoftMargin
namespace Sorting

variable {β : Type}

/-- Inserts into a list that is held last element first. -/
def insertBack (lt : β → β → Bool) (x : β) : List β → List β
  | [] => [x]
  | y :: ys => if lt x y then y :: insertBack lt x ys else x :: y :: ys

def stableSort (lt : β → β → Bool) (xs : List β) : List β :=
  (xs.foldl (fun placed x => insertBack lt x placed) []).reverse

theorem insertBack_perm (lt : β → β → Bool) (x : β) (ys : List β) :
    (insertBack lt x ys).Perm (x :: ys) := by
  induction ys with
  | nil =>
      exact List.Perm.refl _
  | cons y rest ih =>
      by_cases h : lt x y
      · simpa [insertBack, h] using (ih.cons y).trans (List.Perm.swap x y rest)
      · simp [insertBack, h]

theorem foldl_insertBack_perm (lt : β → β → Bool) (xs placed : List β) :
    (xs.foldl (fun placed x => insertBack lt x placed) placed).Perm (xs ++ placed) := by
  induction xs generalizing placed with
  | nil =>
      exact List.Perm.refl _
  | cons x rest ih =>
      refine (ih (insertBack lt x placed)).trans ?_
      exact ((insertBack_perm lt x placed).append_left rest).trans List.perm_middle

theorem stableSort_perm (lt : β → β → Bool) (xs : List β) :
    (stableSort lt xs).Perm xs := by
  refine (List.reverse_perm _).trans ?_
  simpa using foldl_insertBack_perm lt xs []

/-!
## What a sorted list looks like
-/

/-- What the order is asked for among the elements of a list: of two at most one is smaller than the
other, and elements none of which is smaller than the next one are in order throughout. -/
structure Orders (lt : β → β → Bool) (xs : List β) : Prop where
  asymm : ∀ a ∈ xs, ∀ b ∈ xs, lt a b = true → lt b a = false
  trans : ∀ a ∈ xs, ∀ b ∈ xs, ∀ c ∈ xs, lt a b = false → lt b c = false → lt a c = false

/-- Whether `a` may stand before `b`: `b` is not smaller, and if `a` is not smaller either, `a` is
given before `b`. -/
def StandsBefore (lt : β → β → Bool) (xs : List β) (a b : β) : Prop :=
  lt b a = false ∧ (lt a b = false → [a, b].Sublist xs)

theorem StandsBefore.mono {lt : β → β → Bool} {xs ys : List β} {a b : β}
    (h : StandsBefore lt xs a b) (hsub : xs.Sublist ys) : StandsBefore lt ys a b :=
  ⟨h.left, fun htie => (h.right htie).trans hsub⟩

variable {lt : β → β → Bool}

/-- An element that stops at one place would stop at every later one. -/
theorem insertBack_pairwise {R : β → β → Prop} {x : β} {ys : List β} (h : ys.Pairwise R)
    (hpassed : ∀ y ∈ ys, lt x y = true → R y x) (hstopped : ∀ y ∈ ys, lt x y = false → R x y)
    (hstops : ys.Pairwise fun y z => lt x y = false → lt x z = false) :
    (insertBack lt x ys).Pairwise R := by
  induction ys with
  | nil =>
      exact List.pairwise_singleton _ _
  | cons y rest ih =>
      rcases List.pairwise_cons.mp h with ⟨hy, hrest⟩
      rcases List.pairwise_cons.mp hstops with ⟨hstop, hstops'⟩
      cases hxy : lt x y with
      | true =>
          rw [insertBack, if_pos hxy, List.pairwise_cons]
          constructor
          · intro z hz
            rcases List.mem_cons.mp ((insertBack_perm lt x rest).mem_iff.mp hz) with rfl | hmem
            · exact hpassed y List.mem_cons_self hxy
            · exact hy z hmem
          · exact ih hrest (fun z hz => hpassed z (List.mem_cons_of_mem y hz))
              (fun z hz => hstopped z (List.mem_cons_of_mem y hz)) hstops'
      | false =>
          rw [insertBack, if_neg (by simp [hxy]), List.pairwise_cons]
          constructor
          · intro z hz
            apply hstopped z hz
            rcases List.mem_cons.mp hz with rfl | hmem
            · exact hxy
            · exact hstop z hmem hxy
          · exact h

theorem insertBack_standsBefore {seen placed : List β} {x : β} (horders : Orders lt (seen ++ [x]))
    (hperm : placed.Perm seen) (h : placed.Pairwise fun b a => StandsBefore lt seen a b) :
    (insertBack lt x placed).Pairwise fun b a => StandsBefore lt (seen ++ [x]) a b := by
  have hx : x ∈ seen ++ [x] := List.mem_append_right seen (List.mem_singleton_self x)
  have hseen : ∀ y ∈ placed, y ∈ seen ++ [x] := fun y hy =>
    List.mem_append_left [x] (hperm.mem_iff.mp hy)
  apply insertBack_pairwise
  · exact h.imp fun hab => hab.mono (List.sublist_append_left seen [x])
  · intro y hy hlt
    refine ⟨horders.asymm x hx y (hseen y hy) hlt, ?_⟩
    intro hfalse
    rw [hlt] at hfalse
    cases hfalse
  · intro y hy hlt
    refine ⟨hlt, ?_⟩
    intro _
    exact (List.singleton_sublist.mpr (hperm.mem_iff.mp hy)).append (List.Sublist.refl [x])
  · refine h.imp_of_mem ?_
    intro y z hy hz hzy hxy
    exact horders.trans x hx y (hseen y hy) z (hseen z hz) hxy hzy.left

theorem foldl_insertBack_standsBefore {seen placed : List β} (rest : List β)
    (horders : Orders lt (seen ++ rest)) (hperm : placed.Perm seen)
    (h : placed.Pairwise fun b a => StandsBefore lt seen a b) :
    (rest.foldl (fun placed x => insertBack lt x placed) placed).Pairwise
      fun b a => StandsBefore lt (seen ++ rest) a b := by
  induction rest generalizing seen placed with
  | nil => simpa using h
  | cons x rest ih =>
      rw [List.append_cons] at horders ⊢
      have hfront : Orders lt (seen ++ [x]) := by
        have hmem : ∀ a ∈ seen ++ [x], a ∈ seen ++ [x] ++ rest := fun a ha =>
          List.mem_append_left rest ha
        exact ⟨fun a ha b hb => horders.asymm a (hmem a ha) b (hmem b hb),
          fun a ha b hb c hc => horders.trans a (hmem a ha) b (hmem b hb) c (hmem c hc)⟩
      apply ih horders
      · exact (insertBack_perm lt x placed).trans
          ((hperm.cons x).trans (List.perm_append_singleton x seen).symm)
      · exact insertBack_standsBefore hfront hperm h

/-- No element is smaller than one before it, and those that are tied stand as they are given. -/
theorem stableSort_pairwise {xs : List β} (h : Orders lt xs) :
    (stableSort lt xs).Pairwise (StandsBefore lt xs) := by
  have hstart : Orders lt ([] ++ xs) := h
  exact List.pairwise_reverse.mpr
    (foldl_insertBack_standsBefore xs hstart (List.Perm.refl []) List.Pairwise.nil)

end Sorting
end SoftMargin
