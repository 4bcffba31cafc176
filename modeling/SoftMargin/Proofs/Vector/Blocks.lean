import Mathlib.Data.Nat.Log
import SoftMargin.Proofs.Exact.Vector

/-!
# Blockwise sums

One pass over the items adds each of them to a running total, which is put aside
when its block is full. So the pass leaves the totals of the blocks, the last of
which may be empty. Rounds then add neighbours until one total is left to read,
and how many rounds there are follows from the number of items alone. Over exact
scalars no item is lost or added twice on the way.
-/

namespace SoftMargin
namespace BlockSum

variable {α : Type} [Scalar α]

/-!
## The pass over the items
-/

/-- The totals put aside, the running total of the block that is being filled, and the number of
items that it has. -/
structure Pass (α : Type) where
  totals : List α
  running : α
  count : Nat

namespace Pass

def start : Pass α :=
  ⟨[], 0, 0⟩

def add (p : Pass α) (x : α) : Pass α :=
  if p.count + 1 = blockLength then
    ⟨p.totals ++ [p.running + x], 0, 0⟩
  else
    ⟨p.totals, p.running + x, p.count + 1⟩

/-- The totals at the end. If none was put aside, the running total stands alone. -/
def finish (p : Pass α) : List α :=
  p.totals ++ [p.running]

theorem add_of_lt {p : Pass α} (h : p.count + 1 < blockLength) (x : α) :
    p.add x = ⟨p.totals, p.running + x, p.count + 1⟩ :=
  if_neg h.ne

theorem add_of_eq {p : Pass α} (h : p.count + 1 = blockLength) (x : α) :
    p.add x = ⟨p.totals ++ [p.running + x], 0, 0⟩ :=
  if_pos h

theorem foldl_add_of_lt {p : Pass α} {xs : List α} (h : p.count + xs.length < blockLength) :
    xs.foldl add p = ⟨p.totals, xs.foldl (· + ·) p.running, p.count + xs.length⟩ := by
  induction xs generalizing p with
  | nil => rfl
  | cons x rest ih =>
      rw [List.length_cons] at h
      rw [List.foldl_cons, add_of_lt (by omega), ih (by dsimp only; omega)]
      simp only [List.foldl_cons, List.length_cons, Nat.add_assoc, Nat.add_comm 1]

theorem foldl_add_of_eq {p : Pass α} {xs : List α} (hne : xs ≠ [])
    (h : p.count + xs.length = blockLength) :
    xs.foldl add p = ⟨p.totals ++ [xs.foldl (· + ·) p.running], 0, 0⟩ := by
  rcases List.eq_nil_or_concat' xs with hnil | ⟨front, last, rfl⟩
  · exact absurd hnil hne
  · rw [List.length_append, List.length_singleton] at h
    have hfront : front.foldl add p =
        ⟨p.totals, front.foldl (· + ·) p.running, p.count + front.length⟩ :=
      foldl_add_of_lt (by omega)
    rw [List.foldl_append, hfront, List.foldl_append]
    exact add_of_eq h last

theorem finish_foldl_add (xs totals : List α) :
    (xs.foldl add ⟨totals, 0, 0⟩).finish = totals ++ blockTotals xs := by
  fun_induction blockTotals xs generalizing totals with
  | case1 xs hshort =>
      rw [foldl_add_of_lt (by simpa using hshort)]
      rfl
  | case2 xs hlong ih =>
      have hlength : (xs.take blockLength).length = blockLength := by
        rw [List.length_take]
        omega
      have hne : xs.take blockLength ≠ [] :=
        List.ne_nil_of_length_pos (hlength.symm ▸ (by decide : 0 < blockLength))
      have hsplit : xs.foldl add ⟨totals, 0, 0⟩ =
          (xs.drop blockLength).foldl add ((xs.take blockLength).foldl add ⟨totals, 0, 0⟩) := by
        rw [← List.foldl_append, List.take_append_drop]
      rw [hsplit, foldl_add_of_eq hne (by rw [hlength, Nat.zero_add]), ih, List.append_assoc]
      rfl

end Pass

theorem length_blockTotals (xs : List α) :
    (blockTotals xs).length = xs.length / blockLength + 1 := by
  fun_induction blockTotals xs with
  | case1 xs hshort => rw [List.length_singleton, Nat.div_eq_of_lt hshort]
  | case2 xs hlong ih =>
      rw [List.length_cons, ih, List.length_drop]
      unfold blockLength at *
      omega

/-!
## The rounds
-/

/-- As long as there are several totals another round is made, and one that is left is read. If
there are none, there is nothing to read. -/
inductive Merges : List α → Nat → α → Prop
  | read (total : α) : Merges [total] 0 total
  | round {totals : List α} {rounds : Nat} {total : α} (several : 1 < totals.length)
      (rest : Merges (addNeighbours totals) rounds total) : Merges totals (rounds + 1) total

theorem Merges.unique {totals : List α} {rounds rounds' : Nat} {total total' : α}
    (h : Merges totals rounds total) (h' : Merges totals rounds' total') :
    rounds = rounds' ∧ total = total' := by
  induction h generalizing rounds' with
  | read total =>
      cases h' with
      | read => exact ⟨rfl, rfl⟩
      | round several => exact absurd several (Nat.lt_irrefl 1)
  | round several _ ih =>
      cases h' with
      | read => exact absurd several (Nat.lt_irrefl 1)
      | round _ rest =>
          rcases ih rest with ⟨hrounds, htotal⟩
          exact ⟨congrArg (· + 1) hrounds, htotal⟩

/-- Each round halves the number of totals, rounded up. -/
theorem merges_mergeTotals {totals : List α} (h : totals ≠ []) :
    Merges totals (Nat.clog 2 totals.length) (mergeTotals totals) := by
  fun_induction mergeTotals totals with
  | case1 => exact absurd rfl h
  | case2 total => exact Merges.read total
  | case3 x y rest ih =>
      have hlength := length_addNeighbours (x :: y :: rest)
      have hseveral : 2 ≤ (x :: y :: rest).length := by simp
      have hne : addNeighbours (x :: y :: rest) ≠ [] :=
        List.ne_nil_of_length_pos (by omega)
      have hrest := ih hne
      rw [hlength] at hrest
      rw [Nat.clog_of_two_le Nat.one_lt_two hseveral]
      exact Merges.round hseveral hrest

/-- The pass and the rounds after it come to the blockwise sum, in any arithmetic. -/
theorem merges_pass {β : Type} (items : List β) (op : β → α) (rounds : Nat) (total : α) :
    Merges (items.foldl (fun p item => p.add (op item)) Pass.start).finish rounds total ↔
      rounds = Nat.clog 2 (items.length / blockLength + 1) ∧ total = blockSum (items.map op) := by
  have hpass : (items.foldl (fun p item => p.add (op item)) Pass.start).finish =
      blockTotals (items.map op) := by
    rw [← List.foldl_map (f := op) (g := Pass.add)]
    exact Pass.finish_foldl_add (items.map op) []
  have hlength := length_blockTotals (items.map op)
  rw [List.length_map] at hlength
  have hne : blockTotals (items.map op) ≠ [] :=
    List.ne_nil_of_length_pos (hlength.symm ▸ Nat.succ_pos _)
  have hmerges := merges_mergeTotals hne
  rw [hlength] at hmerges
  rw [hpass]
  constructor
  · exact fun h => h.unique hmerges
  · rintro ⟨rfl, rfl⟩
    exact hmerges

end BlockSum

/-!
## Plain sums
-/

open BlockSum Finset

variable {K : Type} [ExactScalar K]

theorem blockSum_map_eq_foldl {β : Type} (items : List β) (op : β → K) :
    blockSum (items.map op) = items.foldl (fun acc item => acc + op item) 0 := by
  rw [blockSum_eq_sum, ← zero_add (items.map op).sum, ← foldl_add_eq, List.foldl_map]

theorem ifSameSize_congr {β γ δ : Type} {x : Array β} {y : Array γ} {v w : δ}
    (h : x.size = y.size → v = w) :
    ifSameSize x y v = if x.size = y.size then some w else none := by
  unfold ifSameSize
  by_cases hsize : x.size = y.size
  · rw [if_pos hsize, if_pos hsize, h hsize]
  · rw [if_neg hsize, if_neg hsize]

/-- There is one run from the items to a total, which is their sum from left to right. So the sums
over vectors are what they are by definition, and those over two vectors are refused only if these
differ in size. -/
theorem blockwise_sums_plain {β : Type} (items : List β) (op : β → K) :
    (∀ rounds total,
      Merges (items.foldl (fun p item => p.add (op item)) Pass.start).finish rounds total ↔
        rounds = Nat.clog 2 (items.length / blockLength + 1) ∧
          total = items.foldl (fun acc item => acc + op item) 0) ∧
      blockSum (items.map op) = items.foldl (fun acc item => acc + op item) 0 ∧
      (∀ x : Array K, sum x = ∑ i ∈ range x.size, x.getD i 0 ∧
        squaredNorm x = ∑ i ∈ range x.size, x.getD i 0 ^ 2) ∧
      ∀ x y : Array K,
        dot? x y = (if x.size = y.size then
          some (∑ i ∈ range x.size, x.getD i 0 * y.getD i 0) else none) ∧
        squaredDistance? x y = if x.size = y.size then
          some (∑ i ∈ range x.size, (x.getD i 0 - y.getD i 0) ^ 2) else none := by
  refine ⟨?_, blockSum_map_eq_foldl items op, ?_, ?_⟩
  · intro rounds total
    rw [merges_pass, blockSum_map_eq_foldl]
  · intro x
    refine ⟨sum_eq_sum_range x rfl, ?_⟩
    unfold squaredNorm
    rw [dot_eq_sum x x rfl rfl]
    exact sum_congr rfl fun i _ => (pow_two _).symm
  · intro x y
    exact ⟨ifSameSize_congr fun hsize => dot_eq_sum x y rfl hsize.symm,
      ifSameSize_congr fun hsize => squaredDistance_eq_sum x y rfl hsize.symm⟩

end SoftMargin
