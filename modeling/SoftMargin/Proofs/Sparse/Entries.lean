import SoftMargin.Proofs.Sparse.Columns

/-!
# Entries of a column

A list of entries stands for a column in two ways. Either the last of several
entries in one row counts, or they add up. The two agree where no row occurs
twice.
-/

namespace SoftMargin

open Finset

variable {K : Type} [ExactScalar K]

/-!
## The last entry
-/

def lastEntry (es : List (Nat × K)) (r : Nat) : K :=
  es.foldl (fun acc e => if e.1 = r then e.2 else acc) 0

@[simp] theorem lastEntry_nil (r : Nat) : lastEntry ([] : List (Nat × K)) r = 0 :=
  rfl

theorem lastEntry_concat (es : List (Nat × K)) (e : Nat × K) (r : Nat) :
    lastEntry (es ++ [e]) r = if e.1 = r then e.2 else lastEntry es r := by
  unfold lastEntry
  rw [List.foldl_append]
  rfl

theorem lastEntry_eq_zero {es : List (Nat × K)} {r : Nat} (h : ∀ e ∈ es, e.1 ≠ r) :
    lastEntry es r = 0 := by
  induction es using List.reverseRecOn with
  | nil => rfl
  | append_singleton es e ih =>
      rw [lastEntry_concat, if_neg (h e (by simp))]
      exact ih fun d hd => h d (List.mem_append_left _ hd)

namespace Csc

def symmetricEntry (A : Csc K) (r c : Nat) : K :=
  lastEntry (A.column (max r c)) (min r c)

theorem symmetricEntry_comm (A : Csc K) (r c : Nat) :
    A.symmetricEntry r c = A.symmetricEntry c r := by
  unfold symmetricEntry
  rw [max_comm, min_comm]

theorem symmetricEntry_of_le (A : Csc K) {r c : Nat} (h : r ≤ c) :
    A.symmetricEntry r c = lastEntry (A.column c) r := by
  unfold symmetricEntry
  rw [max_eq_right h, min_eq_left h]

end Csc

/-!
## The sum of the entries
-/

def entrySum (es : List (Nat × K)) (r : Nat) : K :=
  (es.map fun e => if e.1 = r then e.2 else 0).sum

@[simp] theorem entrySum_nil (r : Nat) : entrySum ([] : List (Nat × K)) r = 0 :=
  rfl

theorem entrySum_cons (e : Nat × K) (es : List (Nat × K)) (r : Nat) :
    entrySum (e :: es) r = (if e.1 = r then e.2 else 0) + entrySum es r :=
  rfl

theorem entrySum_append (es fs : List (Nat × K)) (r : Nat) :
    entrySum (es ++ fs) r = entrySum es r + entrySum fs r := by
  unfold entrySum
  rw [List.map_append, List.sum_append]

theorem entrySum_eq_zero {es : List (Nat × K)} {r : Nat} (h : ∀ e ∈ es, e.1 ≠ r) :
    entrySum es r = 0 := by
  induction es with
  | nil => rfl
  | cons e rest ih =>
      rw [entrySum_cons, if_neg (h e List.mem_cons_self), zero_add]
      exact ih fun d hd => h d (List.mem_cons_of_mem e hd)

theorem foldl_add_eq_entrySum (es : List (Nat × K)) (r : Nat) (start : K) :
    es.foldl (fun acc e => if e.1 = r then acc + e.2 else acc) start =
      start + entrySum es r := by
  induction es generalizing start with
  | nil => simp
  | cons e rest ih =>
      rw [List.foldl_cons, ih, entrySum_cons]
      by_cases he : e.1 = r
      · rw [if_pos he, if_pos he, add_assoc]
      · rw [if_neg he, if_neg he, zero_add]

theorem sum_map_eq_sum_entrySum (es : List (Nat × K)) {n : Nat} (h : ∀ e ∈ es, e.1 < n)
    (x : Nat → K) :
    (es.map fun e => e.2 * x e.1).sum = ∑ r ∈ range n, entrySum es r * x r := by
  induction es with
  | nil => simp
  | cons e rest ih =>
      have hrow : ∑ r ∈ range n, (if e.1 = r then e.2 else 0) * x r = e.2 * x e.1 := by
        simp only [ite_mul, zero_mul, sum_ite_eq, mem_range]
        rw [if_pos (h e List.mem_cons_self)]
      rw [List.map_cons, List.sum_cons, ih fun d hd => h d (List.mem_cons_of_mem e hd), ← hrow,
        ← sum_add_distrib]
      apply sum_congr rfl
      intro r _
      rw [entrySum_cons, add_mul]

end SoftMargin
