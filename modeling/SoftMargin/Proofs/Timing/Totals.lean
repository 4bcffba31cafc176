import Mathlib.Algebra.BigOperators.Group.Finset.Piecewise
import SoftMargin.Proofs.Timing.Blocks

/-!
# What timers show in the end

When a program is over, no timer runs, and each has the time of the blocks on
its path less their pauses. The time of the timers inside another one is the
time of the blocks inside its blocks, hence no more than its own and what their
suspensions came later than its own. It is no more than its own if the clock
stands still during a suspension.
-/

namespace SoftMargin
namespace Timers

variable {clock : Nat → Nat → Nat} {path : TimerPath} {bs : List Block} {t : Timers}
  {r : TimerReading}

/-- The time of the timers directly inside the one on a path, and of the outermost timers if the
path is empty. -/
def timeInside (t : Timers) (path : TimerPath) : Nat :=
  ((t.readings.filter fun e => e.1 ≠ [] ∧ e.1.dropLast = path).map (·.2.elapsed)).sum

theorem totalTime_eq (t : Timers) : t.totalTime = ⟨t.timeInside []⟩ := by
  have hfilter : t.readings.filter (fun e => e.1.length = 1) =
      t.readings.filter fun e => e.1 ≠ [] ∧ e.1.dropLast = [] :=
    List.filter_congr fun e _ => by
      rcases e with ⟨_ | ⟨key, _ | ⟨key', rest⟩⟩, r⟩ <;> simp
  have hfold (es : List (TimerPath × TimerReading)) (n : Nat) :
      es.foldl (fun total e => total + e.2.elapsed) n = n + (es.map (·.2.elapsed)).sum := by
    induction es generalizing n with
    | nil => rfl
    | cons e rest ih => simp [ih, Nat.add_assoc]
  simp only [totalTime, timeInside, hfilter, hfold, Nat.zero_add]

theorem sum_totalOf (value : Block → Nat) {P : TimerPath → Prop} [DecidablePred P]
    {paths : List TimerPath} (hnodup : paths.Nodup) (hmem : ∀ b ∈ bs, b.path ∈ paths ↔ P b.path) :
    (paths.map fun q => totalOf value (· = q) bs).sum = totalOf value P bs := by
  induction bs with
  | nil => simp
  | cons b rest ih =>
      have hrest := ih fun b hb => hmem b (List.mem_cons_of_mem _ hb)
      have hown : (paths.map fun q => if b.path = q then value b else 0).sum =
          if P b.path then value b else 0 := by
        rw [← List.sum_toFinset _ hnodup, Finset.sum_ite_eq]
        simp [hmem b List.mem_cons_self]
      simp only [totalOf_cons, List.sum_map_add, hown, hrest]

theorem sum_counted_add_paused (hclock : Nondecreasing clock) (bs : List Block) :
    (bs.map (·.counted clock)).sum + (bs.map (·.paused clock)).sum =
      (bs.map (·.span clock)).sum := by
  rw [← List.sum_map_add]
  congr 1
  exact List.map_congr_left fun b _ => Nat.sub_add_cancel (Phases.paused_block_le hclock b)

/-!
## Timers that have stopped
-/

structure Credited (clock : Nat → Nat → Nat) (bs : List Block) (t : Timers) : Prop where
  ne_nil : ∀ b ∈ bs, b.path ≠ []
  inOrder : InOrder t.readings
  reading?_eq : ∀ path, t.reading? path =
    credit clock (bs.filter fun b => b.path = path) none

namespace Credited

theorem isSome_iff (h : Credited clock bs t) (path : TimerPath) :
    (t.reading? path).isSome ↔ ∃ b ∈ bs, b.path = path := by
  rw [h.reading?_eq, credit]
  split_ifs with hnil
  · simpa using hnil
  · simpa using hnil

theorem ne_nil_of_reading? (h : Credited clock bs t) (hr : t.reading? path = some r) :
    path ≠ [] := by
  rcases (h.isSome_iff path).mp (by simp [hr]) with ⟨b, hb, rfl⟩
  exact h.ne_nil b hb

theorem eq_of_reading? (h : Credited clock bs t) (hr : t.reading? path = some r) :
    r = ⟨none, totalOf (·.counted clock) (· = path) bs⟩ := by
  rw [h.reading?_eq, credit] at hr
  split_ifs at hr
  cases hr
  simp [totalOf, TimerReading.zero]

theorem eq_of_mem (h : Credited clock bs t) {e : TimerPath × TimerReading} (he : e ∈ t.readings) :
    e.2 = ⟨none, totalOf (·.counted clock) (· = e.1) bs⟩ :=
  h.eq_of_reading? ((h.inOrder.mem_iff t.current).mp he)

theorem timeInside_eq (h : Credited clock bs t) (path : TimerPath) :
    t.timeInside path = totalOf (·.counted clock) (·.dropLast = path) bs := by
  have helapsed : (t.readings.filter fun e => e.1 ≠ [] ∧ e.1.dropLast = path).map (·.2.elapsed) =
      ((t.readings.filter fun e => e.1 ≠ [] ∧ e.1.dropLast = path).map (·.1)).map
        fun q => totalOf (·.counted clock) (· = q) bs := by
    rw [List.map_map]
    refine List.map_congr_left fun e he => ?_
    rw [h.eq_of_mem (List.mem_of_mem_filter he)]
    rfl
  rw [timeInside, helapsed]
  refine sum_totalOf _ (h.inOrder.nodup.sublist (List.filter_sublist.map _)) fun b hb => ?_
  obtain ⟨r, hr⟩ := Option.isSome_iff_exists.mp ((h.isSome_iff b.path).mpr ⟨b, hb, rfl⟩)
  have hmem := (h.inOrder.mem_iff t.current).mpr hr
  simp only [List.mem_map, List.mem_filter, decide_eq_true_eq]
  constructor
  · rintro ⟨e, ⟨-, -, hlast⟩, heq⟩
    rw [← heq]
    exact hlast
  · intro hlast
    exact ⟨(b.path, r), ⟨hmem, h.ne_nil b hb, hlast⟩, rfl⟩

end Credited

theorem run_credited (hclock : Nondecreasing clock) (p : Phases) (k : Nat) :
    Credited clock (p.blocks [] k) (run clock k p.events empty) where
  ne_nil b hb := Phases.ne_nil_of_mem_blocks hb
  inOrder := (run_advance hclock p k empty (.empty _)).nested.inOrder
  reading?_eq path := by
    have hadvance := run_advance hclock p k empty (.empty _)
    by_cases hpath : path = []
    · have hnone : (p.blocks [] k).filter (fun b => b.path = path) = [] := by
        rw [List.filter_eq_nil_iff]
        intro b hb
        simpa [hpath] using Phases.ne_nil_of_mem_blocks hb
      rw [hnone, hpath]
      exact hadvance.nested.unnamed
    · exact hadvance.within path fun hpre => hpath (List.prefix_nil.mp hpre)

/-- What the timers show once a program with the given blocks is over. The time of a timer covers
that of the timers directly inside it but for their delays, and the total is the time of the
outermost ones. -/
structure Accounts (clock : Nat → Nat → Nat) (bs : List Block) (t : Timers) : Prop where
  current : t.current = []
  stopped : ∀ e ∈ t.readings, e.2.since = none
  nodup : (t.readings.map (·.1)).Nodup
  /-- There is a timer on just the paths that have a block. -/
  present : ∀ path, (t.reading? path).isSome ↔ ∃ b ∈ bs, b.path = path
  /-- A timer has the time of all blocks on its path, less the pauses in them. -/
  elapsed : ∀ path r, t.reading? path = some r →
    r.elapsed + ((bs.filter fun b => b.path = path).map (·.paused clock)).sum =
      ((bs.filter fun b => b.path = path).map (·.span clock)).sum
  inside : ∀ path r, t.reading? path = some r →
    t.timeInside path ≤
      r.elapsed + ((bs.filter fun b => b.path.dropLast = path).map (·.delayed clock)).sum
  total : t.totalTime = ⟨t.timeInside []⟩
  /-- So the total is the time of the outermost blocks, less the pauses in them. -/
  outermost : t.totalTime.nanoseconds +
      ((bs.filter fun b => b.path.length = 1).map (·.paused clock)).sum =
    ((bs.filter fun b => b.path.length = 1).map (·.span clock)).sum

theorem Accounts.inside_of_still (h : Accounts clock bs t)
    (hstill : ∀ k i, clock k i = clock k 0) (hr : t.reading? path = some r) :
    t.timeInside path ≤ r.elapsed := by
  have hdelayed : ∀ b ∈ bs.filter (fun b => b.path.dropLast = path), b.delayed clock = 0 :=
    fun b _ => b.inside.delayed_of_still hstill _ _
  have hinside := h.inside path r hr
  rwa [List.map_congr_left hdelayed, List.sum_map_zero, Nat.add_zero] at hinside

/-- However the blocks of a program are nested, its timers account for the time in them. -/
theorem run_accounts (hclock : Nondecreasing clock) (p : Phases) (k : Nat) :
    Accounts clock (p.blocks [] k) (run clock k p.events empty) where
  current := (run_advance hclock p k empty (.empty _)).current
  stopped e he := by rw [(run_credited hclock p k).eq_of_mem he]
  nodup := (run_credited hclock p k).inOrder.nodup
  present := (run_credited hclock p k).isSome_iff
  elapsed path r hr := by
    rw [(run_credited hclock p k).eq_of_reading? hr]
    exact sum_counted_add_paused hclock _
  inside path r hr := by
    have hcredited := run_credited hclock p k
    rw [hcredited.timeInside_eq, hcredited.eq_of_reading? hr]
    have hnil := hcredited.ne_nil_of_reading? hr
    exact p.counted_inside_le hclock [] k hnil hnil
  total := totalTime_eq _
  outermost := by
    have hfilter : (p.blocks [] k).filter (fun b => b.path.length = 1) =
        (p.blocks [] k).filter fun b => b.path.dropLast = [] :=
      List.filter_congr fun b hb => by
        have hlt := Phases.length_lt_of_mem_blocks hb
        simp only [List.length_nil] at hlt
        rw [decide_eq_decide, ← List.length_eq_zero_iff, List.length_dropLast]
        omega
    rw [totalTime_eq, (run_credited hclock p k).timeInside_eq, hfilter]
    exact sum_counted_add_paused hclock _

/-- Two solves, the first with a pause inside an update and one between two updates. -/
def twoSolves : Phases :=
  .block "solve" (.block "x-update" (.pause .done) (.pause (.block "x-update" .done .done)))
    (.pause (.block "solve" .done .done))

/-- The two updates take 15 - 5 and 5, the two solves 45 - 5 - 5 and 5. In the pause inside the
update its timer is reached by one later than that of the solve. -/
theorem run_accounts_twoSolves :
    let clock := fun n i => 5 * n + min i 4
    let t := run clock 0 twoSolves.events empty
    Nondecreasing clock ∧ Accounts clock (twoSolves.blocks [] 0) t ∧
      t.readings = [(["solve"], ⟨none, 40⟩), (["solve", "x-update"], ⟨none, 15⟩)] ∧
      t.totalTime = ⟨40⟩ := by
  intro clock t
  have hclock : Nondecreasing clock := by
    constructor
    · intro n i j hij
      exact Nat.add_le_add_left (min_le_min_right 4 hij) _
    · intro n i
      simp only [clock]
      omega
  exact ⟨hclock, run_accounts hclock twoSolves 0, by decide +kernel, by decide +kernel⟩

def pausedInside : Phases :=
  .block "solve" (.block "x-update" (.pause .done) .done) .done

/-- In the event that suspends them, the clock shows one to the first timer and five to the
second. -/
def slowSuspension : Nat → Nat → Nat
  | 0, _ => 0
  | 1, _ => 0
  | 2, 0 => 1
  | 2, _ + 1 => 5
  | 3, _ => 6
  | _ + 4, _ => 7

/-- The delay is not counted by the timer around. So it may have less time than the one inside. -/
theorem timeInside_pausedInside :
    let t := run slowSuspension 0 pausedInside.events empty
    Nondecreasing slowSuspension ∧
      t.readings = [(["solve"], ⟨none, 2⟩), (["solve", "x-update"], ⟨none, 6⟩)] ∧
      ¬ ∀ path r, t.reading? path = some r → t.timeInside path ≤ r.elapsed := by
  intro t
  have hclock : Nondecreasing slowSuspension := by
    constructor
    · intro n
      refine monotone_nat_of_le_succ fun i => ?_
      rcases n with _ | _ | _ | _ | n <;> rcases i with _ | i <;> simp [slowSuspension]
    · intro n i
      rcases n with _ | _ | _ | _ | n <;> rcases i with _ | i <;> simp [slowSuspension]
  have hinside : t.timeInside ["solve"] = 6 := by decide +kernel
  have hsolve : t.reading? ["solve"] = some ⟨none, 2⟩ := by decide +kernel
  refine ⟨hclock, by decide +kernel, fun hall => ?_⟩
  have hle := hall ["solve"] ⟨none, 2⟩ hsolve
  rw [hinside] at hle
  exact absurd hle (by decide)

end Timers
end SoftMargin
