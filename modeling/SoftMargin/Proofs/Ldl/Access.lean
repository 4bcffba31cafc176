import SoftMargin.Proofs.Exact.Vector
import SoftMargin.Ldl.Access

/-!
# Checked access

A checked access within bounds succeeds and gives the entry. A loop of steps
that can fail is described by an invariant of the part that is done and by the
errors that a step may end in.
-/

namespace SoftMargin
namespace Ldl

variable {β γ σ ε : Type}

@[simp] theorem ok_bind (a : β) (f : β → Except ε γ) : (Except.ok a >>= f) = f a :=
  rfl

@[simp] theorem error_bind (e : ε) (f : β → Except ε γ) :
    ((Except.error e : Except ε β) >>= f) = .error e :=
  rfl

@[simp] theorem pure_eq_ok (a : β) : (pure a : Except ε β) = .ok a :=
  rfl

theorem bind_eq_ok {x : Except ε β} {f : β → Except ε γ} {c : γ} :
    (x >>= f) = .ok c ↔ ∃ a, x = .ok a ∧ f a = .ok c := by
  cases x with
  | error e => simp
  | ok a => simp

/-!
## Reading and writing
-/

theorem read_of_lt (xs : Array β) (d : β) {i : Nat} (h : i < xs.size) :
    read xs i = .ok (xs.getD i d) := by
  unfold read
  rw [Array.getElem?_eq_getElem h, getD_of_lt xs d h]

theorem read_eq_ok {xs : Array β} {i : Nat} {v : β} (h : read xs i = .ok v) :
    xs[i]? = some v := by
  unfold read at h
  cases hi : xs[i]? with
  | none =>
      rw [hi] at h
      cases h
  | some w =>
      rw [hi] at h
      cases h
      rfl

theorem write_of_lt {xs : Array β} {i : Nat} (v : β) (h : i < xs.size) :
    write xs i v = .ok (xs.setIfInBounds i v) := by
  unfold write
  rw [if_pos h]

theorem readSlice_of_le {xs : Array β} {first last : Nat} (h : first ≤ last)
    (hlast : last ≤ xs.size) : readSlice xs first last = .ok (xs.extract first last) := by
  unfold readSlice slice?
  rw [if_pos ⟨h, hlast⟩]

theorem readSlice_eq_ok {xs part : Array β} {first last : Nat}
    (h : readSlice xs first last = .ok part) : first ≤ last ∧ last ≤ xs.size := by
  unfold readSlice slice? at h
  by_cases hbounds : first ≤ last ∧ last ≤ xs.size
  · exact hbounds
  · rw [if_neg hbounds] at h
    cases h

theorem getD_setIfInBounds (xs : Array β) (d v : β) (i j : Nat) :
    (xs.setIfInBounds i v).getD j d =
      if i = j ∧ i < xs.size then v else xs.getD j d := by
  rw [Array.getD_eq_getD_getElem?, Array.getD_eq_getD_getElem?, Array.getElem?_setIfInBounds]
  by_cases hij : i = j
  · by_cases hi : i < xs.size
    · simp [hij, hij ▸ hi]
    · have hj : ¬ j < xs.size := hij ▸ hi
      simp [hij, hj]
  · simp [hij]

theorem getD_setIfInBounds_self (xs : Array β) (d v : β) {i : Nat} (h : i < xs.size) :
    (xs.setIfInBounds i v).getD i d = v := by
  rw [getD_setIfInBounds, if_pos ⟨rfl, h⟩]

theorem getD_setIfInBounds_ne (xs : Array β) (d v : β) {i j : Nat} (h : i ≠ j) :
    (xs.setIfInBounds i v).getD j d = xs.getD j d := by
  rw [getD_setIfInBounds, if_neg (fun hand => h hand.left)]

theorem getD_foldl_set_of_not_mem (d : β) {moves : List (Nat × β)} {j : Nat}
    (h : j ∉ moves.map Prod.fst) (u : Array β) :
    (moves.foldl (fun u m => u.setIfInBounds m.1 m.2) u).getD j d = u.getD j d := by
  induction moves generalizing u with
  | nil => rfl
  | cons m rest ih =>
      rw [List.map_cons, List.mem_cons, not_or] at h
      rw [List.foldl_cons, ih h.right, getD_setIfInBounds_ne _ _ _ (Ne.symm h.left)]

theorem getD_foldl_set_of_mem (d : β) {moves : List (Nat × β)}
    (hnodup : (moves.map Prod.fst).Nodup) {m : Nat × β} (hm : m ∈ moves) {u : Array β}
    (hu : m.1 < u.size) :
    (moves.foldl (fun u m => u.setIfInBounds m.1 m.2) u).getD m.1 d = m.2 := by
  induction moves generalizing u with
  | nil => exact absurd hm List.not_mem_nil
  | cons m' rest ih =>
      rw [List.map_cons, List.nodup_cons] at hnodup
      rw [List.foldl_cons]
      rcases List.mem_cons.mp hm with rfl | hrest
      · rw [getD_foldl_set_of_not_mem d hnodup.left, getD_setIfInBounds_self _ _ _ hu]
      · exact ih hnodup.right hrest (Array.size_setIfInBounds.symm ▸ hu)

theorem size_foldl_set (moves : List (Nat × β)) (u : Array β) :
    (moves.foldl (fun u m => u.setIfInBounds m.1 m.2) u).size = u.size := by
  induction moves generalizing u with
  | nil => rfl
  | cons m rest ih =>
      rw [List.foldl_cons, ih]
      exact Array.size_setIfInBounds

/-!
## Loops
-/

/-- What a computation comes to: a result with a property, or one of certain errors. -/
def Outcome (Good : σ → Prop) (Bad : ε → Prop) (x : Except ε σ) : Prop :=
  (∃ s, x = .ok s ∧ Good s) ∨ ∃ e, x = .error e ∧ Bad e

theorem Outcome.of_ok {Good : σ → Prop} {Bad : ε → Prop} {x : Except ε σ} {s : σ}
    (h : Outcome Good Bad x) (hok : x = .ok s) : Good s := by
  rcases h with ⟨t, hx, ht⟩ | ⟨e, hx, _⟩
  · rw [hok] at hx
    cases hx
    exact ht
  · rw [hok] at hx
    cases hx

theorem Outcome.exists_ok {Good : σ → Prop} {x : Except ε σ}
    (h : Outcome Good (fun _ => False) x) : ∃ s, x = .ok s ∧ Good s := by
  rcases h with hgood | ⟨_, _, hfalse⟩
  · exact hgood
  · exact hfalse.elim

theorem foldlM_outcome (Inv : List γ → σ → Prop) (Bad : ε → Prop) (f : σ → γ → Except ε σ)
    (xs : List γ) (start : σ) (hstart : Inv [] start)
    (hstep : ∀ done x todo s, xs = done ++ x :: todo → Inv done s →
      Outcome (Inv (done ++ [x])) Bad (f s x)) :
    Outcome (Inv xs) Bad (xs.foldlM f start) := by
  suffices hrest : ∀ todo done s, xs = done ++ todo → Inv done s →
      Outcome (Inv xs) Bad (todo.foldlM f s) from hrest xs [] start rfl hstart
  intro todo
  induction todo with
  | nil =>
      intro done s hsplit hs
      rw [List.append_nil] at hsplit
      exact Or.inl ⟨s, rfl, hsplit ▸ hs⟩
  | cons x rest ih =>
      intro done s hsplit hs
      rw [List.foldlM_cons]
      rcases hstep done x rest s hsplit hs with ⟨t, ht, hgood⟩ | ⟨e, he, hbad⟩
      · rw [ht, ok_bind]
        exact ih (done ++ [x]) t (by rw [hsplit, List.append_assoc]; rfl) hgood
      · rw [he, error_bind]
        exact Or.inr ⟨e, rfl, hbad⟩

theorem foldlM_range'_outcome (Inv : Nat → σ → Prop) (Bad : ε → Prop) (f : σ → Nat → Except ε σ)
    (first len : Nat) (start : σ) (hstart : Inv 0 start)
    (hstep : ∀ k < len, ∀ s, Inv k s → Outcome (Inv (k + 1)) Bad (f s (first + k))) :
    Outcome (Inv len) Bad ((List.range' first len).foldlM f start) := by
  have hloop := foldlM_outcome (fun done s => Inv done.length s) Bad f (List.range' first len)
    start hstart (by
      intro done x todo s hsplit hs
      have hlen := congrArg List.length hsplit
      rw [List.length_range', List.length_append, List.length_cons] at hlen
      have hx : x = first + done.length := by
        have hget : (List.range' first len)[done.length]? = some x := by
          rw [hsplit, List.getElem?_append_right (le_refl _), Nat.sub_self]
          rfl
        rw [List.getElem?_range' (by omega)] at hget
        rw [← Option.some.inj hget, Nat.one_mul]
      rw [List.length_append, List.length_singleton, hx]
      exact hstep done.length (by omega) s hs)
  simpa only [List.length_range'] using hloop

theorem foldlM_range_outcome (Inv : Nat → σ → Prop) (Bad : ε → Prop) (f : σ → Nat → Except ε σ)
    (n : Nat) (start : σ) (hstart : Inv 0 start)
    (hstep : ∀ k < n, ∀ s, Inv k s → Outcome (Inv (k + 1)) Bad (f s k)) :
    Outcome (Inv n) Bad ((List.range n).foldlM f start) := by
  rw [List.range_eq_range']
  apply foldlM_range'_outcome Inv Bad f 0 n start hstart
  intro k hk s hs
  rw [Nat.zero_add]
  exact hstep k hk s hs

theorem foldlM_eq_ok (Inv : List γ → σ → Prop) (f : σ → γ → Except ε σ) (xs : List γ)
    (start : σ) (hstart : Inv [] start)
    (hstep : ∀ done x todo s, xs = done ++ x :: todo → Inv done s →
      ∃ t, f s x = .ok t ∧ Inv (done ++ [x]) t) :
    ∃ t, xs.foldlM f start = .ok t ∧ Inv xs t := by
  have hloop := foldlM_outcome Inv (fun _ => False) f xs start hstart
    (fun done x todo s hsplit hs => Or.inl (hstep done x todo s hsplit hs))
  exact hloop.exists_ok

end Ldl
end SoftMargin
