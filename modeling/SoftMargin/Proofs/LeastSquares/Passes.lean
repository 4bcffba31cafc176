import SoftMargin.Proofs.Exact.Matrix
import SoftMargin.Proofs.LeastSquares.Box

/-!
# Passes of the bounded least squares

The search has two loops. The outer one looks for a variable to free; the inner
one makes passes over the free variables until they are settled. A pass takes a
variable back that would move the wrong way, moves the free variables to their
minimizer if it lies strictly within the bounds, or steps towards it. Of the
scalars no more is assumed here than a statement says.
-/

namespace SoftMargin
namespace BoundedLeastSquares

open Scalar

deriving instance DecidableEq for State

/-- Where one of the loops begins a round. `entering` is the variable that has just been freed, with
the bound it was on. -/
inductive Head (α : Type) where
  | outer (state : State α)
  | inner (state : State α) (entering : Option (Nat × BoundState))
deriving DecidableEq

def Head.state {α : Type} : Head α → State α
  | .outer s => s
  | .inner s _ => s

namespace Problem

variable {α : Type}

def Pass.head : Pass α → Head α
  | .settled s => .outer s
  | .unsettled s => .inner s none

theorem Pass.state_head (r : Pass α) : r.head.state = r.state := by
  cases r with
  | settled s => rfl
  | unsettled s => rfl

variable [Scalar α] {P : Problem α} {solver : DefiniteSolver α} {s t : State α}
  {entering : Option (Nat × BoundState)} {z : Array α}

/-!
## Choosing a variable
-/

section Gain

variable {j : Nat} (hblocked : s.blocked.getD j false = false)

include hblocked

theorem gain?_lower (hbound : s.bound[j]? = some .lower) :
    gain? s j = some (s.gradient.getD j 0) := by
  unfold gain?
  rw [hblocked, s.bound.getD_eq_getD_getElem?, hbound]
  rfl

theorem gain?_upper (hbound : s.bound[j]? = some .upper) :
    gain? s j = some (-s.gradient.getD j 0) := by
  unfold gain?
  rw [hblocked, s.bound.getD_eq_getD_getElem?, hbound]
  rfl

theorem gain?_free (hbound : s.bound[j]? = some .free) : gain? s j = none := by
  unfold gain?
  rw [hblocked, s.bound.getD_eq_getD_getElem?, hbound]
  rfl

end Gain

def withGain (s : State α) (best : Option Nat × α) (j : Nat) : Option Nat × α :=
  (gain? s j).elim best fun gain => if best.2 < gain then (some j, gain) else best

theorem entering?_eq_foldl (P : Problem α) (s : State α) :
    P.entering? s = ((List.range P.size).foldl (withGain s) (none, P.tolerance)).1 := by
  unfold entering?
  congr 2
  funext best j
  unfold withGain
  cases gain? s j with
  | none => rfl
  | some gain => rfl

theorem entering?_cases [IsStrictOrder α (· < ·)] (P : Problem α) (s : State α) :
    (P.entering? s = none ∧
        ∀ j < P.size, ∀ gain, gain? s j = some gain → ¬P.tolerance < gain) ∨
      ∃ j < P.size, P.entering? s = some j ∧
        ∃ gain, gain? s j = some gain ∧ P.tolerance < gain := by
  rw [entering?_eq_foldl]
  have hloop := foldl_range_induction
    (fun n (best : Option Nat × α) =>
      (best = (none, P.tolerance) ∧
          ∀ j < n, ∀ gain, gain? s j = some gain → ¬P.tolerance < gain) ∨
        ∃ j < n, best.1 = some j ∧ gain? s j = some best.2 ∧ P.tolerance < best.2)
    (withGain s) P.size (none, P.tolerance)
    (Or.inl ⟨rfl, fun j hj => absurd hj (Nat.not_lt_zero j)⟩) ?_
  · rcases hloop with ⟨hbest, hnone⟩ | ⟨j, hj, hbest, hgain, hlt⟩
    · exact Or.inl ⟨congrArg Prod.fst hbest, hnone⟩
    · exact Or.inr ⟨j, hj, hbest, _, hgain, hlt⟩
  · intro n _ best hinv
    have hkept : ∀ {j}, j < n → j < n + 1 := fun hj => hj.trans (Nat.lt_succ_self n)
    unfold withGain
    cases hgain : gain? s n with
    | none =>
        rw [Option.elim_none]
        rcases hinv with ⟨hbest, hnone⟩ | ⟨j, hj, hrest⟩
        · refine Or.inl ⟨hbest, ?_⟩
          intro j hj gain hj'
          rcases Nat.lt_succ_iff_lt_or_eq.mp hj with hlt | rfl
          · exact hnone j hlt gain hj'
          · rw [hgain] at hj'
            cases hj'
        · exact Or.inr ⟨j, hkept hj, hrest⟩
    | some gain =>
        rw [Option.elim_some]
        rcases hinv with ⟨rfl, hnone⟩ | ⟨j, hj, hbest, hj', hlt⟩
        · by_cases hless : P.tolerance < gain
          · rw [if_pos hless]
            exact Or.inr ⟨n, Nat.lt_succ_self n, rfl, hgain, hless⟩
          · rw [if_neg hless]
            refine Or.inl ⟨rfl, ?_⟩
            intro j hj gain' hj'
            rcases Nat.lt_succ_iff_lt_or_eq.mp hj with hlt | rfl
            · exact hnone j hlt gain' hj'
            · rw [hgain] at hj'
              cases hj'
              exact hless
        · by_cases hless : best.2 < gain
          · rw [if_pos hless]
            exact Or.inr ⟨n, Nat.lt_succ_self n, rfl, hgain, IsTrans.trans _ _ _ hlt hless⟩
          · rw [if_neg hless]
            exact Or.inr ⟨j, hkept hj, hbest, hj', hlt⟩

/-!
## Rounds
-/

theorem release_cases (P : Problem α) (s : State α) :
    (P.entering? (P.look s) = none ∧ P.release s = (P.look s, none)) ∨
      ∃ j, P.entering? (P.look s) = some j ∧ P.release s =
        ({ P.look s with bound := s.bound.setIfInBounds j .free },
          some (j, s.bound.getD j .lower)) := by
  unfold release
  dsimp only
  cases P.entering? (P.look s) with
  | none => exact Or.inl ⟨rfl, rfl⟩
  | some j => exact Or.inr ⟨j, rfl, rfl⟩

/-- The rounds that a search comes to, with the number of passes made before. -/
inductive Reaches (P : Problem α) (solver : DefiniteSolver α) : Nat → Head α → Prop where
  | start : Reaches P solver 0 (.outer P.initial)
  | release {n : Nat} {s t : State α} {e : Nat × BoundState}
      (h : Reaches P solver n (.outer s)) (hrelease : P.release s = (t, some e)) :
      Reaches P solver n (.inner t (some e))
  | pass {n : Nat} {s : State α} {entering : Option (Nat × BoundState)} {r : Pass α}
      (h : Reaches P solver n (.inner s entering)) (hleft : n < P.passLimit)
      (hpass : P.pass solver s entering = .ok r) : Reaches P solver (n + 1) r.head

theorem search_eq_ok {n left : Nat} {x : Array α} (hlimit : n + left = P.passLimit)
    (h : P.Reaches solver n (.inner s entering))
    (hsearch : P.search solver left s entering = .ok x) :
    ∃ n s, P.Reaches solver n (.outer s) ∧ P.entering? (P.look s) = none ∧ x = s.x := by
  induction left generalizing n s entering with
  | zero => cases hsearch
  | succ left ih =>
      unfold search at hsearch
      rcases Ldl.bind_eq_ok.mp hsearch with ⟨r, hpass, hsearch⟩
      have hleft : n < P.passLimit := by omega
      have hnext := h.pass hleft hpass
      have hlimit' : n + 1 + left = P.passLimit := by omega
      cases r with
      | unsettled t => exact ih hlimit' hnext hsearch
      | settled t =>
          dsimp only at hsearch
          rcases release_cases P t with ⟨hnone, hrelease⟩ | ⟨j, _, hrelease⟩
          · rw [hrelease] at hsearch
            cases hsearch
            exact ⟨n + 1, t, hnext, hnone, rfl⟩
          · rw [hrelease] at hsearch
            exact ih hlimit' (hnext.release hrelease) hsearch

theorem solveBy_eq_ok {x : Array α} (h : P.solveBy solver = .ok x) :
    ∃ n s, P.Reaches solver n (.outer s) ∧ P.entering? (P.look s) = none ∧ x = s.x := by
  unfold solveBy at h
  rcases Ldl.bind_eq_ok.mp h with ⟨⟨⟩, _, h⟩
  rcases release_cases P P.initial with ⟨hnone, hrelease⟩ | ⟨j, _, hrelease⟩
  · rw [hrelease] at h
    cases h
    exact ⟨0, P.initial, .start, hnone, rfl⟩
  · rw [hrelease] at h
    exact search_eq_ok (Nat.zero_add _) (Reaches.start.release hrelease) h

def next? (P : Problem α) (solver : DefiniteSolver α) : Nat × Head α → Option (Nat × Head α)
  | (n, .outer s) => (P.release s).2.map fun e => (n, .inner (P.release s).1 (some e))
  | (n, .inner s entering) =>
      if n < P.passLimit then
        (P.pass solver s entering).toOption.map fun r => (n + 1, r.head)
      else
        none

def rounds (P : Problem α) (solver : DefiniteSolver α) : Nat → Nat × Head α → List (Nat × Head α)
  | 0, _ => []
  | left + 1, round => round :: (P.next? solver round).elim [] (rounds P solver left)

theorem mem_rounds_next {left : Nat} {start round round' : Nat × Head α}
    (hended : (P.rounds solver left start).length < left)
    (hmem : round ∈ P.rounds solver left start) (hnext : P.next? solver round = some round') :
    round' ∈ P.rounds solver left start := by
  induction left generalizing start with
  | zero => exact absurd hended (Nat.not_lt_zero _)
  | succ left ih =>
      unfold rounds at hended hmem ⊢
      rcases List.mem_cons.mp hmem with rfl | hrest
      · rw [hnext, Option.elim_some, List.length_cons] at hended
        rw [hnext, Option.elim_some]
        apply List.mem_cons_of_mem
        cases left with
        | zero => exact absurd hended (Nat.lt_irrefl _ ∘ Nat.lt_of_succ_lt_succ)
        | succ left => exact List.mem_cons_self
      · cases hstart : P.next? solver start with
        | none =>
            rw [hstart] at hrest
            exact absurd hrest List.not_mem_nil
        | some start' =>
            rw [hstart, Option.elim_some] at hrest hended
            rw [Option.elim_some]
            exact List.mem_cons_of_mem _ (ih (Nat.lt_of_succ_lt_succ hended) hrest)

theorem Reaches.next {n n' : Nat} {head head' : Head α} (h : P.Reaches solver n head)
    (hnext : P.next? solver (n, head) = some (n', head')) : P.Reaches solver n' head' := by
  cases head with
  | outer s =>
      rcases Option.map_eq_some_iff.mp hnext with ⟨e, he, heq⟩
      cases heq
      exact h.release (Prod.ext rfl he)
  | inner s entering =>
      rw [next?] at hnext
      split_ifs at hnext with hleft
      rcases Option.map_eq_some_iff.mp hnext with ⟨r, hr, heq⟩
      cases heq
      cases hpass : P.pass solver s entering with
      | error e =>
          rw [hpass] at hr
          cases hr
      | ok r' =>
          rw [hpass] at hr
          cases hr
          exact h.pass hleft hpass

theorem reaches_of_mem_rounds (left : Nat) {n : Nat} {head : Head α}
    (h : (n, head) ∈ P.rounds solver left (0, .outer P.initial)) : P.Reaches solver n head := by
  suffices hall : ∀ left (start : Nat × Head α), P.Reaches solver start.1 start.2 →
      (n, head) ∈ P.rounds solver left start → P.Reaches solver n head from
    hall left _ .start h
  intro left
  induction left with
  | zero => exact fun _ _ hmem => absurd hmem List.not_mem_nil
  | succ left ih =>
      intro start hstart hmem
      unfold rounds at hmem
      rcases List.mem_cons.mp hmem with rfl | hrest
      · exact hstart
      · cases hnext : P.next? solver start with
        | none =>
            rw [hnext] at hrest
            exact absurd hrest List.not_mem_nil
        | some start' =>
            rw [hnext] at hrest
            exact ih start' (hstart.next hnext) hrest

/-- A search that ends comes to no other rounds than those that are found by following it. -/
theorem Reaches.mem_rounds {left n : Nat} {head : Head α} (h : P.Reaches solver n head)
    (hended : (P.rounds solver left (0, .outer P.initial)).length < left) :
    (n, head) ∈ P.rounds solver left (0, .outer P.initial) := by
  induction h with
  | start =>
      cases left with
      | zero => exact absurd hended (Nat.not_lt_zero _)
      | succ left => exact List.mem_cons_self
  | release _ hrelease ih =>
      apply mem_rounds_next hended ih
      rw [next?, hrelease]
      rfl
  | pass _ hleft hpass ih =>
      apply mem_rounds_next hended ih
      rw [next?, if_pos hleft, hpass]
      rfl

/-!
## What a pass comes to
-/

def moves (P : Problem α) (s : State α) (z : Array α) : List (Nat × α) :=
  ((P.freeVariables s).zip z).toList

def goingBack? (P : Problem α) (s : State α) (z : Array α)
    (entering : Option (Nat × BoundState)) : Option (Nat × BoundState) :=
  entering.filter fun (j, source) => goesBack s source j
    ((((P.moves s z).find? fun m => m.1 == j).map (·.2)).getD (z.getD 0 0))

def isInside (P : Problem α) (moves : List (Nat × α)) : Bool :=
  moves.all fun (k, z) => P.lowerAt k < z && z < P.upperAt k

theorem isInside_iff {moves : List (Nat × α)} :
    P.isInside moves = true ↔ ∀ m ∈ moves, P.lowerAt m.1 < m.2 ∧ m.2 < P.upperAt m.1 := by
  unfold isInside
  rw [List.all_eq_true]
  simp only [Bool.and_eq_true, decide_eq_true_eq]

def arrived (s : State α) (moves : List (Nat × α)) : State α :=
  unblock { s with x := moves.foldl (fun x (k, z) => x.setIfInBounds k z) s.x }

/-- The pass that takes a step. It settles the variables if none is left free. -/
def stepped (P : Problem α) (s : State α) (moves : List (Nat × α)) : Pass α :=
  let t := partialStep P s moves
  if t.bound.all (· ≠ .free) then .settled (unblock t) else .unsettled t

def passTo (P : Problem α) (s : State α) (entering : Option (Nat × BoundState)) (z : Array α) :
    Pass α :=
  match P.goingBack? s z entering with
  | some (j, source) => .settled { s with
      bound := s.bound.setIfInBounds j source
      blocked := s.blocked.setIfInBounds j true }
  | none =>
      if P.isInside (P.moves s z) then .settled (arrived s (P.moves s z))
      else P.stepped s (P.moves s z)

theorem pass_eq (hz : P.freeMinimizer solver s.x (P.freeVariables s) = .ok z) :
    P.pass solver s entering = .ok (P.passTo s entering z) := by
  unfold pass
  dsimp only
  rw [hz, Ldl.ok_bind]
  unfold passTo
  change (match P.goingBack? s z entering with
    | some (j, source) => _
    | none => if P.isInside (P.moves s z) = true then _ else _) = _
  cases P.goingBack? s z entering with
  | some e => rfl
  | none =>
      cases P.isInside (P.moves s z) with
      | true => rfl
      | false =>
          change (if (P.partialStep s (P.moves s z)).bound.all (· ≠ .free) = true then _ else _) =
            Except.ok (P.stepped s (P.moves s z))
          unfold stepped
          dsimp only
          split_ifs <;> rfl

theorem pass_eq_ok {r : Pass α} (h : P.pass solver s entering = .ok r) :
    ∃ z, P.freeMinimizer solver s.x (P.freeVariables s) = .ok z ∧ r = P.passTo s entering z := by
  rcases Ldl.bind_eq_ok.mp h with ⟨z, hz, _⟩
  rw [pass_eq hz] at h
  exact ⟨z, hz, (Except.ok.inj h).symm⟩

/-!
## Steps
-/

/-- No bound stops the moves before they are made. -/
def Unlimited (P : Problem α) (s : State α) (moves : List (Nat × α)) : Prop :=
  ∀ m ∈ moves, ∀ ratio, ratio? P s m.1 m.2 = some ratio → ¬ratio < 1

/-- A bound stops the move of variable `hit` at a share of the way, and no other move earlier. -/
structure LimitedBy (P : Problem α) (s : State α) (moves : List (Nat × α)) (share : α)
    (hit : Nat) : Prop where
  exists_move : ∃ m ∈ moves, m.1 = hit ∧ ratio? P s m.1 m.2 = some share
  lt_one : share < 1
  least : ∀ m ∈ moves, ∀ ratio, ratio? P s m.1 m.2 = some ratio → ¬ratio < share

theorem stepLength_cases [IsStrictOrder α (· < ·)] (P : Problem α) (s : State α)
    (moves : List (Nat × α)) :
    (stepLength P s moves = (1, (moves.head?.map (·.1)).getD 0) ∧ P.Unlimited s moves) ∨
      P.LimitedBy s moves (stepLength P s moves).1 (stepLength P s moves).2 := by
  suffices hfold : ∀ (todo : List (Nat × α)) (best : α × Nat),
      (todo.foldl (shareWith P s) best = best ∧
        ∀ m ∈ todo, ∀ ratio, ratio? P s m.1 m.2 = some ratio → ¬ratio < best.1) ∨
      ((∃ m ∈ todo, m.1 = (todo.foldl (shareWith P s) best).2 ∧
          ratio? P s m.1 m.2 = some (todo.foldl (shareWith P s) best).1) ∧
        (todo.foldl (shareWith P s) best).1 < best.1 ∧
        ∀ m ∈ todo, ∀ ratio, ratio? P s m.1 m.2 = some ratio →
          ¬ratio < (todo.foldl (shareWith P s) best).1) by
    rw [stepLength_eq_foldl]
    rcases hfold moves (1, (moves.head?.map (·.1)).getD 0) with h | ⟨hmove, hlt, hleast⟩
    · exact Or.inl h
    · exact Or.inr ⟨hmove, hlt, hleast⟩
  intro todo
  induction todo with
  | nil => exact fun best => Or.inl ⟨rfl, fun m hm => absurd hm List.not_mem_nil⟩
  | cons m rest ih =>
      intro best
      rw [List.foldl_cons]
      by_cases hless : ∃ ratio, ratio? P s m.1 m.2 = some ratio ∧ ratio < best.1
      · rcases hless with ⟨ratio, hratio, hlt⟩
        have hnext : shareWith P s best m = (ratio, m.1) := by
          unfold shareWith
          rw [hratio, Option.elim_some, if_pos hlt]
        rw [hnext]
        right
        rcases ih (ratio, m.1) with ⟨heq, hleast⟩ | ⟨⟨m', hm', hmove⟩, hlt', hleast⟩
        · rw [heq]
          refine ⟨⟨m, List.mem_cons_self, rfl, hratio⟩, hlt, ?_⟩
          intro m' hm' ratio' hratio'
          rcases List.mem_cons.mp hm' with rfl | hrest
          · rw [hratio] at hratio'
            cases hratio'
            exact irrefl _
          · exact hleast m' hrest ratio' hratio'
        · refine ⟨⟨m', List.mem_cons_of_mem m hm', hmove⟩, IsTrans.trans _ _ _ hlt' hlt, ?_⟩
          intro m'' hm'' ratio' hratio'
          rcases List.mem_cons.mp hm'' with rfl | hrest
          · rw [hratio] at hratio'
            cases hratio'
            exact asymm hlt'
          · exact hleast m'' hrest ratio' hratio'
      · have hnext : shareWith P s best m = best := by
          unfold shareWith
          cases hratio : ratio? P s m.1 m.2 with
          | none => rfl
          | some ratio =>
              have hnot : ¬ratio < best.1 := fun hlt => hless ⟨ratio, hratio, hlt⟩
              rw [Option.elim_some, if_neg hnot]
        rw [hnext]
        rcases ih best with ⟨heq, hleast⟩ | ⟨⟨m', hm', hmove⟩, hlt', hleast⟩
        · left
          refine ⟨heq, ?_⟩
          intro m' hm' ratio' hratio' hlt
          rcases List.mem_cons.mp hm' with rfl | hrest
          · exact hless ⟨ratio', hratio', hlt⟩
          · exact hleast m' hrest ratio' hratio' hlt
        · right
          refine ⟨⟨m', List.mem_cons_of_mem m hm', hmove⟩, hlt', ?_⟩
          intro m'' hm'' ratio' hratio' hlt
          rcases List.mem_cons.mp hm'' with rfl | hrest
          · exact hless ⟨ratio', hratio', IsTrans.trans _ _ _ hlt hlt'⟩
          · exact hleast m'' hrest ratio' hratio' hlt

/-- Where variable `k` comes from `old` on a step towards `z`, and the bound it then is on. -/
def landing (P : Problem α) (step : α) (hit k : Nat) (old z : α) : α × BoundState :=
  let new := old + step * (z - old)
  if k = hit ∨ new ≤ P.lowerAt k + P.slack k ∨ P.upperAt k - P.slack k ≤ new then
    if z ≤ P.lowerAt k ∨ new ≤ P.lowerAt k + P.slack k then (P.lowerAt k, .lower)
    else (P.upperAt k, .upper)
  else
    (new, .free)

theorem moveTowards_eq (P : Problem α) (step : α) (hit : Nat) (s : State α) {k : Nat}
    (hfree : s.bound[k]? = some .free) (z : α) :
    moveTowards P step hit s k z = { s with
      x := s.x.setIfInBounds k (landing P step hit k (s.x.getD k 0) z).1
      bound := s.bound.setIfInBounds k (landing P step hit k (s.x.getD k 0) z).2 } := by
  rcases Array.getElem?_eq_some_iff.mp hfree with ⟨hk, hget⟩
  have hkept : s.bound.setIfInBounds k .free = s.bound := by
    rw [← hget, Array.setIfInBounds, dif_pos hk, Array.set_getElem_self]
  unfold moveTowards landing
  generalize s.x.getD k 0 = old
  dsimp only
  split_ifs
  · rfl
  · rfl
  · rw [hkept]

structure Lands (P : Problem α) (step : α) (hit : Nat) (s : State α) (moves : List (Nat × α))
    (t : State α) : Prop where
  size_x : t.x.size = s.x.size
  size_bound : t.bound.size = s.bound.size
  blocked_eq : t.blocked = s.blocked
  gradient_eq : t.gradient = s.gradient
  x_moved : ∀ m ∈ moves,
    t.x.getD m.1 0 = (landing P step hit m.1 (s.x.getD m.1 0) m.2).1
  bound_moved : ∀ m ∈ moves,
    t.bound[m.1]? = some (landing P step hit m.1 (s.x.getD m.1 0) m.2).2
  x_kept : ∀ k, k ∉ moves.map (·.1) → t.x.getD k 0 = s.x.getD k 0
  bound_kept : ∀ k, k ∉ moves.map (·.1) → t.bound[k]? = s.bound[k]?

theorem foldl_moveTowards_lands (step : α) (hit : Nat) {moves : List (Nat × α)}
    (hnodup : (moves.map (·.1)).Nodup) (hx : ∀ m ∈ moves, m.1 < s.x.size)
    (hfree : ∀ m ∈ moves, s.bound[m.1]? = some .free) :
    P.Lands step hit s moves (moves.foldl (fun s (k, z) => moveTowards P step hit s k z) s) := by
  induction moves generalizing s with
  | nil =>
      exact ⟨rfl, rfl, rfl, rfl, fun m hm => absurd hm List.not_mem_nil,
        fun m hm => absurd hm List.not_mem_nil, fun _ _ => rfl, fun _ _ => rfl⟩
  | cons m rest ih =>
      rw [List.map_cons, List.nodup_cons] at hnodup
      have hmx := hx m List.mem_cons_self
      have hmfree := hfree m List.mem_cons_self
      have hbound : m.1 < s.bound.size := (Array.getElem?_eq_some_iff.mp hmfree).1
      have hne : ∀ m' ∈ rest, m.1 ≠ m'.1 := fun m' hm' heq =>
        hnodup.left (heq ▸ List.mem_map_of_mem hm')
      rw [List.foldl_cons]
      change P.Lands step hit s (m :: rest)
        (rest.foldl _ (moveTowards P step hit s m.1 m.2))
      rw [moveTowards_eq P step hit s hmfree m.2]
      have hrest := ih (s := { s with
          x := s.x.setIfInBounds m.1 (landing P step hit m.1 (s.x.getD m.1 0) m.2).1
          bound := s.bound.setIfInBounds m.1 (landing P step hit m.1 (s.x.getD m.1 0) m.2).2 })
        hnodup.right
        (fun m' hm' => Array.size_setIfInBounds.symm ▸ hx m' (List.mem_cons_of_mem m hm'))
        (fun m' hm' => by
          rw [Array.getElem?_setIfInBounds_ne (hne m' hm')]
          exact hfree m' (List.mem_cons_of_mem m hm'))
      refine ⟨hrest.size_x.trans Array.size_setIfInBounds,
        hrest.size_bound.trans Array.size_setIfInBounds, hrest.blocked_eq, hrest.gradient_eq,
        ?_, ?_, ?_, ?_⟩
      · intro m' hm'
        rcases List.mem_cons.mp hm' with rfl | hmem
        · rw [hrest.x_kept m'.1 hnodup.left, Ldl.getD_setIfInBounds_self _ _ _ hmx]
        · rw [hrest.x_moved m' hmem, Ldl.getD_setIfInBounds_ne _ _ _ (hne m' hmem)]
      · intro m' hm'
        rcases List.mem_cons.mp hm' with rfl | hmem
        · rw [hrest.bound_kept m'.1 hnodup.left, Array.getElem?_setIfInBounds_self_of_lt hbound]
        · rw [hrest.bound_moved m' hmem, Ldl.getD_setIfInBounds_ne _ _ _ (hne m' hmem)]
      · intro k hk
        rw [List.map_cons, List.mem_cons, not_or] at hk
        rw [hrest.x_kept k hk.right, Ldl.getD_setIfInBounds_ne _ _ _ (Ne.symm hk.left)]
      · intro k hk
        rw [List.map_cons, List.mem_cons, not_or] at hk
        rw [hrest.bound_kept k hk.right, Array.getElem?_setIfInBounds_ne (Ne.symm hk.left)]

/-!
## Sizes
-/

structure IsSized (P : Problem α) (s : State α) : Prop where
  x : s.x.size = P.size
  bound : s.bound.size = P.size
  blocked : s.blocked.size = P.size
  gradient : s.gradient.size = P.size

theorem IsSized.look (h : P.IsSized s) : P.IsSized (P.look s) :=
  ⟨h.x, h.bound, h.blocked, Matrix.size_transposeMulAdd _ _ _ _ h.gradient⟩

omit [Scalar α] in
theorem of_mem_moves {m : Nat × α} (hm : m ∈ P.moves s z) :
    m.1 ∈ P.freeVariables s ∧ m.2 ∈ z := by
  have hmem : (m.1, m.2) ∈ (P.freeVariables s).toList.zip z.toList := by
    rw [← Array.toList_zip]
    exact hm
  have hboth := List.of_mem_zip hmem
  exact ⟨Array.mem_toList_iff.mp hboth.left, Array.mem_toList_iff.mp hboth.right⟩

omit [Scalar α] in
theorem mem_moves {m : Nat × α} (hm : m ∈ P.moves s z) :
    m.1 < P.size ∧ s.bound.getD m.1 .lower = .free := by
  have hfree := (of_mem_moves hm).left
  unfold freeVariables at hfree
  rw [Array.mem_filter, Array.mem_range, decide_eq_true_eq] at hfree
  exact hfree

omit [Scalar α] in
theorem IsSized.bound_moves (h : P.IsSized s) {m : Nat × α} (hm : m ∈ P.moves s z) :
    s.bound[m.1]? = some .free := by
  rcases mem_moves hm with ⟨hlt, hfree⟩
  have hsize : m.1 < s.bound.size := h.bound.symm ▸ hlt
  rw [getD_of_lt _ _ hsize] at hfree
  rw [Array.getElem?_eq_getElem hsize, hfree]

theorem mem_moves_getD (hz : z.size = (P.freeVariables s).size) {i : Nat}
    (hi : i < (P.freeVariables s).size) :
    ((P.freeVariables s).getD i 0, z.getD i 0) ∈ P.moves s z := by
  have hzip : i < ((P.freeVariables s).zip z).size := by
    rw [Array.size_zip]
    omega
  have hmem := Array.getElem_mem hzip
  rw [Array.getElem_zip] at hmem
  rw [getD_of_lt _ _ hi, getD_of_lt _ _ (hz.symm ▸ hi)]
  exact Array.mem_toList_iff.mpr hmem

theorem getD_arrived_of_mem (hs : P.IsSized s) {m : Nat × α} (hm : m ∈ P.moves s z) :
    (arrived s (P.moves s z)).x.getD m.1 0 = m.2 :=
  Ldl.getD_foldl_set_of_mem 0 (areMoves_zip s z).nodup hm
    (hs.x.symm ▸ (areMoves_zip s z).lt m hm)

theorem getD_arrived_of_not_mem {k : Nat} (hk : k ∉ (P.moves s z).map (·.1)) :
    (arrived s (P.moves s z)).x.getD k 0 = s.x.getD k 0 :=
  Ldl.getD_foldl_set_of_not_mem 0 hk s.x

theorem getD_arrived_of_bound {k : Nat} (hk : k ∉ P.freeVariables s) :
    (arrived s (P.moves s z)).x.getD k 0 = s.x.getD k 0 := by
  apply getD_arrived_of_not_mem
  intro hmem
  rcases List.mem_map.mp hmem with ⟨m, hm, rfl⟩
  exact hk (of_mem_moves hm).left

theorem partialStep_lands (h : P.IsSized s) (z : Array α) :
    P.Lands (clip (stepLength P s (P.moves s z)).1 0 1) (stepLength P s (P.moves s z)).2 s
      (P.moves s z) (partialStep P s (P.moves s z)) :=
  foldl_moveTowards_lands _ _ (areMoves_zip s z).nodup
    (fun m hm => h.x.symm ▸ (areMoves_zip s z).lt m hm) fun _ hm => h.bound_moves hm

theorem Lands.isSized {step : α} {hit : Nat} {moves : List (Nat × α)}
    (hlands : P.Lands step hit s moves t) (h : P.IsSized s) : P.IsSized t :=
  ⟨hlands.size_x.trans h.x, hlands.size_bound.trans h.bound,
    (congrArg Array.size hlands.blocked_eq).trans h.blocked,
    (congrArg Array.size hlands.gradient_eq).trans h.gradient⟩

omit [Scalar α] in
theorem IsSized.unblock (h : P.IsSized s) : P.IsSized (unblock s) :=
  ⟨h.x, h.bound, Array.size_map.trans h.blocked, h.gradient⟩

theorem IsSized.pass (h : P.IsSized s) {r : Pass α} (hpass : P.pass solver s entering = .ok r) :
    P.IsSized r.state := by
  rcases pass_eq_ok hpass with ⟨z, _, rfl⟩
  unfold passTo
  cases P.goingBack? s z entering with
  | some e =>
      exact ⟨h.x, Array.size_setIfInBounds.trans h.bound,
        Array.size_setIfInBounds.trans h.blocked, h.gradient⟩
  | none =>
      cases P.isInside (P.moves s z) with
      | true =>
          exact ⟨(Ldl.size_foldl_set _ _).trans h.x, h.bound, Array.size_map.trans h.blocked,
            h.gradient⟩
      | false =>
          have hlands := (partialStep_lands h z).isSized h
          change P.IsSized (P.stepped s (P.moves s z)).state
          unfold stepped
          dsimp only
          split_ifs
          · exact hlands.unblock
          · exact hlands

theorem isSized_initial (h : P.lower.size = P.size) : P.IsSized P.initial :=
  ⟨h, Array.size_replicate, Array.size_replicate,
    Matrix.size_transposeMulAdd _ _ _ _ Array.size_replicate⟩

theorem IsSized.release (h : P.IsSized s) {e : Option (Nat × BoundState)}
    (hrelease : P.release s = (t, e)) : P.IsSized t := by
  have hlook := h.look
  rcases release_cases P s with ⟨_, heq⟩ | ⟨j, _, heq⟩
  · rw [heq] at hrelease
    cases hrelease
    exact hlook
  · rw [heq] at hrelease
    cases hrelease
    exact ⟨hlook.x, Array.size_setIfInBounds.trans hlook.bound, hlook.blocked, hlook.gradient⟩

theorem Reaches.isSized (hlower : P.lower.size = P.size) {n : Nat} {head : Head α}
    (h : P.Reaches solver n head) : P.IsSized head.state := by
  induction h with
  | start => exact isSized_initial hlower
  | release _ hrelease ih => exact ih.release hrelease
  | pass _ _ hpass ih =>
      rw [Pass.state_head]
      exact ih.pass hpass

end Problem
end BoundedLeastSquares
end SoftMargin
