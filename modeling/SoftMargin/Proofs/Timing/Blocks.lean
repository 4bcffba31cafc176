import Mathlib.Algebra.Ring.Nat
import Mathlib.Order.Monotone.Defs
import SoftMargin.Proofs.Timing.Readings

/-!
# Timed blocks

A program starts and stops its timers in blocks, one inside the other or one
after the other, and has pauses that no timer counts. When it ends, each timer
has the time from the start to the stop of every block on its path, less the
pauses in them, each from the time at which the timer was suspended to the time
at which it was resumed.

In a suspension a timer reads the clock before those inside it. They count the
time that passes in between, and it does not. So a timer has at least the time
of those directly inside it, but for that.
-/

namespace SoftMargin
namespace Timers

/-- What the clock shows in one event after the other, at the readings that each of them takes. -/
structure Nondecreasing (clock : Nat → Nat → Nat) : Prop where
  within : ∀ k, Monotone (clock k)
  next : ∀ k i, clock k i ≤ clock (k + 1) 0

variable {clock : Nat → Nat → Nat} {k now later : Nat} {around path : TimerPath} {key : String}

theorem Nondecreasing.first_le (h : Nondecreasing clock) {l : Nat} (hkl : k ≤ l) :
    clock k 0 ≤ clock l 0 :=
  monotone_nat_of_le_succ (f := fun k => clock k 0) (fun k => h.next k 0) hkl

theorem Nondecreasing.le_next_at (h : Nondecreasing clock) (k i : Nat) :
    clock k i ≤ clock (k + 1) i :=
  (h.next k i).trans (h.within (k + 1) i.zero_le)

/-!
## Programs
-/

/-- What timers see of a program: blocks that are timed, and pauses. -/
inductive Phases where
  | done
  | pause (next : Phases)
  | block (key : String) (inside next : Phases)
deriving Repr, DecidableEq

namespace Phases

def events : Phases → List Event
  | done => []
  | pause next => untimed ++ next.events
  | block key inside next => timed key inside.events ++ next.events

theorem add_length_pause (k : Nat) (next : Phases) :
    k + (pause next).events.length = k + 2 + next.events.length := by
  simp [events, untimed]
  omega

theorem add_length_block (k : Nat) (key : String) (inside next : Phases) :
    k + (block key inside next).events.length =
      k + 1 + inside.events.length + 1 + next.events.length := by
  simp [events, timed]
  omega

/-- The time of all pauses for the timer that is reached at place `i`, if the first event is the
one numbered `k`. -/
def paused (clock : Nat → Nat → Nat) (i : Nat) : Nat → Phases → Nat
  | _, done => 0
  | k, pause next => (clock (k + 1) i - clock k i) + paused clock i (k + 2) next
  | k, block _ inside next =>
      paused clock i (k + 1) inside + paused clock i (k + 1 + inside.events.length + 1) next

/-- The time in all suspensions from when the timer at place `i` is reached to when the next one
is. -/
def delayed (clock : Nat → Nat → Nat) (i : Nat) : Nat → Phases → Nat
  | _, done => 0
  | k, pause next => (clock k (i + 1) - clock k i) + delayed clock i (k + 2) next
  | k, block _ inside next =>
      delayed clock i (k + 1) inside + delayed clock i (k + 1 + inside.events.length + 1) next

end Phases

/-- A timed block: the keys around it and its own, the number of the event that starts it, and what
is inside. -/
structure Block where
  path : TimerPath
  first : Nat
  inside : Phases
deriving Repr, DecidableEq

namespace Block

def last (b : Block) : Nat :=
  b.first + 1 + b.inside.events.length

def span (clock : Nat → Nat → Nat) (b : Block) : Nat :=
  clock b.last 0 - clock b.first 0

/-- The time of all pauses inside a block, at any depth, for its own timer. -/
def paused (clock : Nat → Nat → Nat) (b : Block) : Nat :=
  b.inside.paused clock (b.path.length - 1) (b.first + 1)

def counted (clock : Nat → Nat → Nat) (b : Block) : Nat :=
  b.span clock - b.paused clock

/-- The time in all suspensions inside a block from when the timer around it is reached to when its
own one is. -/
def delayed (clock : Nat → Nat → Nat) (b : Block) : Nat :=
  b.inside.delayed clock (b.path.length - 2) (b.first + 1)

end Block

def Phases.blocks : TimerPath → Nat → Phases → List Block
  | _, _, done => []
  | around, k, pause next => blocks around (k + 2) next
  | around, k, block key inside next =>
      ⟨around ++ [key], k, inside⟩ :: blocks (around ++ [key]) (k + 1) inside ++
        blocks around (k + 1 + inside.events.length + 1) next

def totalOf (value : Block → Nat) (P : TimerPath → Prop) [DecidablePred P] (bs : List Block) :
    Nat :=
  ((bs.filter fun b => P b.path).map value).sum

section Total

variable {value : Block → Nat} {P : TimerPath → Prop} [DecidablePred P] {bs cs : List Block}
  {b : Block}

@[simp]
theorem totalOf_nil : totalOf value P [] = 0 :=
  rfl

@[simp]
theorem totalOf_append : totalOf value P (bs ++ cs) = totalOf value P bs + totalOf value P cs := by
  simp [totalOf]

@[simp]
theorem totalOf_cons :
    totalOf value P (b :: bs) = (if P b.path then value b else 0) + totalOf value P bs := by
  by_cases hb : P b.path <;> simp [totalOf, hb]

theorem totalOf_eq_zero (h : ∀ b ∈ bs, ¬ P b.path) : totalOf value P bs = 0 := by
  have hnil : bs.filter (fun b => P b.path) = [] := by simpa using h
  simp [totalOf, hnil]

end Total

namespace Phases

variable {p inside : Phases} {b : Block}

theorem length_lt_of_mem_blocks (h : b ∈ p.blocks around k) : around.length < b.path.length := by
  induction p generalizing around k with
  | done => simp [blocks] at h
  | pause next ih => exact ih h
  | block key inside next ihInside ihNext =>
      simp only [blocks, List.cons_append, List.mem_cons, List.mem_append] at h
      rcases h with rfl | hinside | hnext
      · simp
      · have hlt := ihInside hinside
        simp only [List.length_append, List.length_singleton] at hlt
        omega
      · exact ihNext hnext

theorem ne_nil_of_mem_blocks (h : b ∈ p.blocks around k) : b.path ≠ [] :=
  List.ne_nil_of_length_pos (Nat.zero_lt_of_lt (length_lt_of_mem_blocks h))

theorem totalOf_deeper (value : Block → Nat) (p : Phases) (around : TimerPath) (key : String)
    (k : Nat) : totalOf value (·.dropLast = around) (p.blocks (around ++ [key]) k) = 0 :=
  totalOf_eq_zero fun b hb heq => by
    have hlt := length_lt_of_mem_blocks hb
    have hlen := congrArg List.length heq
    simp only [List.length_append, List.length_dropLast, List.length_singleton] at hlt hlen
    omega

theorem paused_le (hclock : Nondecreasing clock) (p : Phases) (i k : Nat) :
    clock k 0 + p.paused clock i k ≤ clock (k + p.events.length) 0 := by
  induction p generalizing k with
  | done => simp [paused, events]
  | pause next ih =>
      have hnext := ih (k + 2)
      have h₁ : clock k 0 ≤ clock k i := hclock.within k i.zero_le
      have h₂ : clock k i ≤ clock (k + 1) i := hclock.le_next_at k i
      have h₃ : clock (k + 1) i ≤ clock (k + 2) 0 := hclock.next (k + 1) i
      rw [add_length_pause]
      simp only [paused]
      omega
  | block key inside next ihInside ihNext =>
      have hin := ihInside (k + 1)
      have hnext := ihNext (k + 1 + inside.events.length + 1)
      have h₁ : clock k 0 ≤ clock (k + 1) 0 := hclock.next k 0
      have h₂ : clock (k + 1 + inside.events.length) 0 ≤
          clock (k + 1 + inside.events.length + 1) 0 := hclock.next _ 0
      rw [add_length_block]
      simp only [paused]
      omega

/-- A timer may be resumed later than the one around it, so only the suspensions count. -/
theorem paused_le_succ (hclock : Nondecreasing clock) (p : Phases) (i k : Nat) :
    p.paused clock i k ≤ p.paused clock (i + 1) k + p.delayed clock i k := by
  induction p generalizing k with
  | done => simp [paused]
  | pause next ih =>
      have hnext := ih (k + 2)
      have h₁ : clock (k + 1) i ≤ clock (k + 1) (i + 1) := hclock.within (k + 1) i.le_succ
      simp only [paused, delayed]
      omega
  | block key inside next ihInside ihNext =>
      have hin := ihInside (k + 1)
      have hnext := ihNext (k + 1 + inside.events.length + 1)
      simp only [paused, delayed]
      omega

theorem delayed_of_still (hstill : ∀ k i, clock k i = clock k 0) (p : Phases) (i k : Nat) :
    p.delayed clock i k = 0 := by
  induction p generalizing k with
  | done => rfl
  | pause next ih => simp only [delayed, hstill k (i + 1), hstill k i, ih, Nat.sub_self]
  | block key inside next ihInside ihNext => simp only [delayed, ihInside, ihNext]

theorem paused_block_le (hclock : Nondecreasing clock) (b : Block) :
    b.paused clock ≤ b.span clock := by
  have hle := b.inside.paused_le hclock (b.path.length - 1) (b.first + 1)
  have h₁ : clock b.first 0 ≤ clock (b.first + 1) 0 := hclock.next b.first 0
  simp only [Block.paused, Block.span, Block.last]
  omega

/-- The outermost blocks of a program, without the pauses in them, and all its pauses for the timer
around it fit into its time, but for the delays in the blocks. -/
theorem counted_outermost_le (hclock : Nondecreasing clock) (p : Phases) {around : TimerPath}
    {i : Nat} (haround : around.length = i + 1) (k : Nat) :
    clock k 0 + (totalOf (·.counted clock) (·.dropLast = around) (p.blocks around k) +
        p.paused clock i k) ≤
      clock (k + p.events.length) 0 +
        totalOf (·.delayed clock) (·.dropLast = around) (p.blocks around k) := by
  induction p generalizing k with
  | done => simp [blocks, paused, events]
  | pause next ih =>
      have hnext := ih (k + 2)
      have h₁ : clock k 0 ≤ clock k i := hclock.within k i.zero_le
      have h₂ : clock k i ≤ clock (k + 1) i := hclock.le_next_at k i
      have h₃ : clock (k + 1) i ≤ clock (k + 2) 0 := hclock.next (k + 1) i
      rw [add_length_pause]
      simp only [blocks, paused]
      omega
  | block key inside next ihInside ihNext =>
      have hnext := ihNext (k + 1 + inside.events.length + 1)
      have hown : Block.counted clock ⟨around ++ [key], k, inside⟩ + inside.paused clock i (k + 1) ≤
          Block.span clock ⟨around ++ [key], k, inside⟩ +
            Block.delayed clock ⟨around ++ [key], k, inside⟩ := by
        have hle := paused_block_le hclock ⟨around ++ [key], k, inside⟩
        have hsucc := inside.paused_le_succ hclock i (k + 1)
        simp only [Block.counted, Block.paused, Block.delayed, List.length_append,
          List.length_singleton, haround, Nat.add_sub_cancel, Nat.reduceSubDiff] at hle ⊢
        omega
      have h₁ : clock k 0 ≤ clock (k + 1 + inside.events.length) 0 := hclock.first_le (by omega)
      have h₂ : clock (k + 1 + inside.events.length) 0 ≤
          clock (k + 1 + inside.events.length + 1) 0 := hclock.next _ 0
      rw [add_length_block]
      simp only [blocks, paused, totalOf_append, totalOf_cons, totalOf_deeper,
        List.dropLast_concat, if_true]
      simp only [Block.span, Block.last] at hown
      omega

/-- On any path, the blocks directly inside take no more time than the blocks they are in, but for
their delays. -/
theorem counted_inside_le (hclock : Nondecreasing clock) (p : Phases) (around : TimerPath) (k : Nat)
    (hnil : path ≠ []) (hpath : path ≠ around) :
    totalOf (·.counted clock) (·.dropLast = path) (p.blocks around k) ≤
      totalOf (·.counted clock) (· = path) (p.blocks around k) +
        totalOf (·.delayed clock) (·.dropLast = path) (p.blocks around k) := by
  induction p generalizing around k with
  | done => simp [blocks]
  | pause next ih => exact ih around (k + 2) hpath
  | block key inside next ihInside ihNext =>
      have hnext := ihNext around (k + 1 + inside.events.length + 1) hpath
      -- the block itself is what its outermost blocks fit into; deeper paths are by induction
      have hin : totalOf (·.counted clock) (·.dropLast = path)
            (inside.blocks (around ++ [key]) (k + 1)) ≤
          (if around ++ [key] = path then Block.counted clock ⟨around ++ [key], k, inside⟩ else 0) +
            totalOf (·.counted clock) (· = path) (inside.blocks (around ++ [key]) (k + 1)) +
            totalOf (·.delayed clock) (·.dropLast = path)
              (inside.blocks (around ++ [key]) (k + 1)) := by
        split_ifs with heq
        · have hlength : path.length = path.length - 1 + 1 :=
            (Nat.sub_add_cancel (List.length_pos_of_ne_nil hnil)).symm
          have hle := inside.counted_outermost_le hclock hlength (k + 1)
          have hcounted : Block.counted clock ⟨around ++ [key], k, inside⟩ =
              clock (k + 1 + inside.events.length) 0 - clock k 0 -
                inside.paused clock (path.length - 1) (k + 1) := by
            rw [heq]
            rfl
          have h₁ : clock k 0 ≤ clock (k + 1) 0 := hclock.next k 0
          rw [hcounted, heq]
          omega
        · have hle := ihInside (around ++ [key]) (k + 1) (Ne.symm heq)
          omega
      simp only [blocks, totalOf_append, totalOf_cons, List.dropLast_concat, Ne.symm hpath,
        if_false]
      omega

end Phases

/-!
## Runs
-/

theorem run_append (clock : Nat → Nat → Nat) (k : Nat) (es fs : List Event) (t : Timers) :
    run clock k (es ++ fs) t = run clock (k + es.length) fs (run clock k es t) := by
  induction es generalizing k t with
  | nil => rfl
  | cons e rest ih =>
      simp only [List.cons_append, run, List.length_cons, ih]
      congr 1
      omega

/-- What becomes of a stopped timer when blocks on its path have been run. -/
def credit (clock : Nat → Nat → Nat) (bs : List Block) (r : Option TimerReading) :
    Option TimerReading :=
  if bs = [] then r else some ⟨none, (r.getD .zero).elapsed + (bs.map (·.counted clock)).sum⟩

theorem credit_append (bs cs : List Block) (r : Option TimerReading) :
    credit clock (bs ++ cs) r = credit clock cs (credit clock bs r) := by
  by_cases hbs : bs = []
  · simp [credit, hbs]
  · by_cases hcs : cs = []
    · simp [credit, hcs]
    · simp [credit, hbs, hcs, Nat.add_assoc]

/-- The timers before and after a part of a program, with its pauses for the timer at each place and
its blocks. The timers around it go on and lose their pauses, whenever they are read next. All
others have stopped, and got the time of their blocks. -/
structure Advance (clock : Nat → Nat → Nat) (later : Nat) (paused : Nat → Nat) (bs : List Block)
    (t t' : Timers) : Prop where
  current : t'.current = t.current
  nested : Nested later t'
  around : ∀ q r, q <+: t.current → t.reading? q = some r →
    ∃ r', t'.reading? q = some r' ∧
      ∀ now, later ≤ now → r'.banked now + paused (q.length - 1) = r.banked now
  within : ∀ q, ¬ q <+: t.current →
    t'.reading? q = credit clock (bs.filter fun b => b.path = q) (t.reading? q)

namespace Advance

variable {paused paused' : Nat → Nat} {bs cs : List Block} {t t' t'' : Timers}

theorem refl (h : Nested now t) : Advance clock now (fun _ => 0) [] t t where
  current := rfl
  nested := h
  around _ r _ hr := ⟨r, hr, fun _ _ => rfl⟩
  within _ _ := rfl

theorem trans (h : Advance clock now paused bs t t') (h' : Advance clock later paused' cs t' t'')
    (hle : now ≤ later) :
    Advance clock later (fun i => paused i + paused' i) (bs ++ cs) t t'' where
  current := h'.current.trans h.current
  nested := h'.nested
  around q r hq hr := by
    obtain ⟨r₁, hr₁, hbanked₁⟩ := h.around q r hq hr
    obtain ⟨r₂, hr₂, hbanked₂⟩ := h'.around q r₁ (h.current ▸ hq) hr₁
    refine ⟨r₂, hr₂, fun now hnow => ?_⟩
    have h₁ := hbanked₁ now (hle.trans hnow)
    have h₂ := hbanked₂ now hnow
    omega
  within q hq := by
    rw [h'.within q (h.current ▸ hq), h.within q hq, List.filter_append, credit_append]

theorem pause (hclock : Nondecreasing clock) (h : Nested (clock k 0) t) :
    Advance clock (clock (k + 2) 0) (fun i => clock (k + 1) i - clock k i) [] t
      ((t.suspend (clock k)).resume (clock (k + 1))) where
  current := rfl
  nested := (h.suspend (clock k)).resume (hclock.next (k + 1))
  around q r hq hr := by
    refine ⟨(r.suspend (clock k (q.length - 1))).start (clock (k + 1) (q.length - 1)),
      by simp [h.reading?_pause, hr, hq], fun now hnow => ?_⟩
    have hne : q ≠ [] := fun hnil => by simp [hnil, h.unnamed] at hr
    obtain ⟨since, elapsed, hrunning, hsince⟩ := h.running q hne hq
    rw [hrunning] at hr
    cases hr
    generalize q.length - 1 = i
    have h₁ : clock k 0 ≤ clock k i := hclock.within k i.zero_le
    have h₂ : clock k i ≤ clock (k + 1) i := hclock.le_next_at k i
    have h₃ : clock (k + 1) i ≤ clock (k + 2) 0 := hclock.next (k + 1) i
    simp only [TimerReading.banked, TimerReading.start, TimerReading.suspend]
    omega
  within q hq := by simp [h.reading?_pause, hq, credit]

theorem block {inside : Phases} (hclock : Nondecreasing clock) (h : Nested (clock k 0) t)
    (hinside : Advance clock (clock (k + 1 + inside.events.length) 0)
      (fun i => inside.paused clock i (k + 1)) (inside.blocks (t.current ++ [key]) (k + 1))
      (t.start (clock k 0) key) t') :
    Advance clock (clock (k + 1 + inside.events.length) 0)
      (fun i => inside.paused clock i (k + 1))
      (⟨t.current ++ [key], k, inside⟩ :: inside.blocks (t.current ++ [key]) (k + 1)) t
      (t'.stop (clock (k + 1 + inside.events.length) 0)) where
  current := Nested.current_stop hinside.current
  nested := hinside.nested.stop hinside.current
  around q r hq hr := by
    have hother : q ≠ t.current ++ [key] := fun heq => by
      have hlen := hq.length_le
      simp [heq] at hlen
    have hstart : (t.start (clock k 0) key).reading? q = some r := by
      simp [h.reading?_start, hother, hr]
    obtain ⟨r', hr', hbanked⟩ := hinside.around q r (hq.trans (List.prefix_append _ _)) hstart
    exact ⟨r', by simp [hinside.nested.reading?_stop _ hinside.current, hr', hother], hbanked⟩
  within q hq := by
    rw [hinside.nested.reading?_stop _ hinside.current]
    by_cases heq : q = t.current ++ [key]
    · subst heq
      have hstart : (t.start (clock k 0) key).reading? (t.current ++ [key]) =
          some (((t.reading? (t.current ++ [key])).getD .zero).start (clock k 0)) := by
        simp [h.reading?_start]
      obtain ⟨r', hr', hbanked⟩ :=
        hinside.around (t.current ++ [key]) _ (List.prefix_refl _) hstart
      have hdeeper : (inside.blocks (t.current ++ [key]) (k + 1)).filter
          (fun b => b.path = t.current ++ [key]) = [] := by
        rw [List.filter_eq_nil_iff]
        intro b hb
        simpa using fun heq => (Phases.length_lt_of_mem_blocks hb).ne (by rw [heq])
      have hcounted : r'.banked (clock (k + 1 + inside.events.length) 0) =
          ((t.reading? (t.current ++ [key])).getD .zero).elapsed +
            Block.counted clock ⟨t.current ++ [key], k, inside⟩ := by
        have hle := Phases.paused_block_le hclock ⟨t.current ++ [key], k, inside⟩
        have hstop := hbanked _ le_rfl
        simp only [TimerReading.banked_start, Block.counted, Block.paused, Block.span,
          Block.last] at hle hstop ⊢
        omega
      simp [hr', credit, hdeeper, TimerReading.stop, hcounted]
    · have hstart : (t.start (clock k 0) key).reading? q = t.reading? q := by
        simp [h.reading?_start, heq]
      have hinner : ¬ q <+: (t.start (clock k 0) key).current := fun hpre =>
        (List.prefix_concat_iff.mp hpre).elim heq hq
      rw [hinside.within q hinner, hstart]
      simp [heq, Ne.symm heq]

end Advance

theorem run_pause (t : Timers) (next : Phases) :
    run clock k (next.pause).events t =
      run clock (k + 2) next.events ((t.suspend (clock k)).resume (clock (k + 1))) :=
  rfl

theorem run_block (t : Timers) (inside next : Phases) :
    run clock k (Phases.block key inside next).events t =
      run clock (k + 1 + inside.events.length + 1) next.events
        ((run clock (k + 1) inside.events (t.start (clock k 0) key)).stop
          (clock (k + 1 + inside.events.length) 0)) := by
  simp [Phases.events, timed, run, apply, run_append]

theorem run_advance (hclock : Nondecreasing clock) (p : Phases) (k : Nat) (t : Timers)
    (h : Nested (clock k 0) t) :
    Advance clock (clock (k + p.events.length) 0) (fun i => p.paused clock i k)
      (p.blocks t.current k) t (run clock k p.events t) := by
  induction p generalizing k t with
  | done => exact .refl h
  | pause next ih =>
      have hpause := Advance.pause hclock h
      have hnext := ih (k + 2) _ hpause.nested
      rw [run_pause, Phases.add_length_pause]
      exact hpause.trans hnext (hclock.first_le (by omega))
  | block key inside next ihInside ihNext =>
      have hinside := ihInside (k + 1) (t.start (clock k 0) key)
        ((h.start key).mono (hclock.next k 0))
      have hblock := Advance.block hclock h hinside
      have hnext := ihNext (k + 1 + inside.events.length + 1) _
        (hblock.nested.mono (hclock.next _ 0))
      rw [hblock.current] at hnext
      rw [run_block, Phases.add_length_block]
      exact hblock.trans hnext (hclock.first_le (by omega))

end Timers
end SoftMargin
