import Mathlib.Data.List.Lex
import Mathlib.Data.List.Nodup
import Mathlib.Data.String.Basic
import SoftMargin.Timing.Timers

/-!
# What an operation does to the readings

While timers are started and stopped in turn, the current one and those around
it run, and no other timer does. Each operation keeps this. It changes the
reading of the timer that is started or stopped, or those of all running
timers, and no other reading. So where all running timers read the clock, each
reads it after as many as there are around it.
-/

namespace SoftMargin

@[simp]
theorem TimerReading.banked_start (r : TimerReading) (now later : Nat) :
    (r.start now).banked later = r.elapsed + (later - now) :=
  rfl

namespace Timers

variable {now later : Nat} {clock clock' : Nat → Nat} {t : Timers} {path q : TimerPath}
  {key : String} {r : TimerReading} {readings : List (TimerPath × TimerReading)}

/-!
## Readings in order
-/

def InOrder (readings : List (TimerPath × TimerReading)) : Prop :=
  readings.Pairwise fun e f => e.1 < f.1

theorem reading?_cons (current : TimerPath) (e : TimerPath × TimerReading) :
    reading? ⟨current, e :: readings⟩ q =
      if e.1 = q then some e.2 else reading? ⟨current, readings⟩ q := by
  by_cases he : e.1 = q <;> simp [reading?, he]

theorem InOrder.nodup (h : InOrder readings) : (readings.map (·.1)).Nodup :=
  List.pairwise_map.mpr (h.imp fun hlt => ne_of_lt hlt)

theorem InOrder.forall_lt {f : TimerPath × TimerReading} (h : InOrder (f :: readings))
    (hlt : q < f.1) : ∀ e ∈ f :: readings, q < e.1 := by
  intro e he
  cases he with
  | head => exact hlt
  | tail _ he => exact lt_trans hlt (List.rel_of_pairwise_cons h he)

theorem reading?_eq_none_of_lt (current : TimerPath) (h : ∀ e ∈ readings, q < e.1) :
    reading? ⟨current, readings⟩ q = none := by
  have hnone : readings.find? (fun e => e.1 = q) = none := by
    rw [List.find?_eq_none]
    intro e he
    simpa using ne_of_gt (h e he)
  simp [reading?, hnone]

theorem InOrder.mem_iff (h : InOrder readings) (current : TimerPath) :
    (q, r) ∈ readings ↔ reading? ⟨current, readings⟩ q = some r := by
  induction readings with
  | nil => simp [reading?]
  | cons e rest ih =>
      have hrest := List.pairwise_cons.mp h
      rw [reading?_cons, List.mem_cons, ih hrest.2]
      by_cases he : e.1 = q
      · subst he
        have hnone := reading?_eq_none_of_lt current hrest.1
        simp [hnone, Prod.ext_iff, eq_comm]
      · simp [he, Prod.ext_iff, eq_comm]

/-!
## Adding timers
-/

theorem mem_insertZero {e : TimerPath × TimerReading} (h : e ∈ insertZero path readings) :
    e = (path, .zero) ∨ e ∈ readings := by
  induction readings with
  | nil => simpa [insertZero] using h
  | cons f rest ih =>
      simp only [insertZero] at h
      split_ifs at h with heq hlt
      · exact .inr h
      · simpa using h
      · simp only [List.mem_cons] at h ⊢
        cases h with
        | inl h => exact .inr (.inl h)
        | inr h => exact (ih h).imp_right .inr

theorem InOrder.insertZero (h : InOrder readings) : InOrder (insertZero path readings) := by
  induction readings with
  | nil => simp [InOrder, Timers.insertZero]
  | cons f rest ih =>
      have hrest := List.pairwise_cons.mp h
      simp only [Timers.insertZero]
      split_ifs with heq hlt
      · exact h
      · exact List.pairwise_cons.mpr ⟨h.forall_lt hlt, h⟩
      · refine List.pairwise_cons.mpr ⟨fun e he => ?_, ih hrest.2⟩
        cases mem_insertZero he with
        | inl he => simpa [he] using lt_of_le_of_ne (not_lt.mp hlt) (Ne.symm heq)
        | inr he => exact hrest.1 e he

theorem reading?_insertZero_of_ne (current : TimerPath) (h : path ≠ q) :
    reading? ⟨current, insertZero path readings⟩ q = reading? ⟨current, readings⟩ q := by
  induction readings with
  | nil => simp [insertZero, reading?_cons, h]
  | cons f rest ih =>
      simp only [insertZero]
      split_ifs with heq hlt
      · rfl
      · simp [reading?_cons (e := (path, TimerReading.zero)), h]
      · simp [reading?_cons, ih]

theorem InOrder.reading?_insertZero (h : InOrder readings) (current : TimerPath) :
    reading? ⟨current, Timers.insertZero path readings⟩ path =
      some ((reading? ⟨current, readings⟩ path).getD .zero) := by
  induction readings with
  | nil => simp [Timers.insertZero, reading?]
  | cons f rest ih =>
      have hrest := List.pairwise_cons.mp h
      simp only [Timers.insertZero]
      split_ifs with heq hlt
      · simp [reading?_cons, heq]
      · have hnone := reading?_eq_none_of_lt current (h.forall_lt hlt)
        simp [reading?_cons (e := (path, TimerReading.zero)), hnone]
      · simp [reading?_cons, Ne.symm heq, ih hrest.2]

theorem InOrder.ensure_take (h : InOrder readings) (current path : TimerPath) (n : Nat) :
    InOrder ((List.range n).foldl (fun readings k => Timers.insertZero (path.take (k + 1)) readings)
      readings) ∧
    ∀ q, reading? ⟨current, (List.range n).foldl
        (fun readings k => Timers.insertZero (path.take (k + 1)) readings) readings⟩ q =
      if ∃ k < n, path.take (k + 1) = q then some ((reading? ⟨current, readings⟩ q).getD .zero)
      else reading? ⟨current, readings⟩ q := by
  induction n with
  | zero => exact ⟨h, fun q => by simp⟩
  | succ n ih =>
      rw [List.range_succ, List.foldl_append]
      refine ⟨ih.1.insertZero, fun q => ?_⟩
      by_cases hq : path.take (n + 1) = q
      · subst hq
        have hlast : ∃ k < n + 1, path.take (k + 1) = path.take (n + 1) := ⟨n, by omega, rfl⟩
        rw [if_pos hlast, List.foldl_cons, List.foldl_nil, ih.1.reading?_insertZero, ih.2]
        split_ifs <;> simp
      · have hiff : (∃ k < n + 1, path.take (k + 1) = q) ↔ ∃ k < n, path.take (k + 1) = q := by
          constructor
          · rintro ⟨k, hk, heq⟩
            have hne : k ≠ n := fun hkn => hq (hkn ▸ heq)
            exact ⟨k, by omega, heq⟩
          · rintro ⟨k, hk, heq⟩
            exact ⟨k, by omega, heq⟩
        rw [List.foldl_cons, List.foldl_nil, reading?_insertZero_of_ne _ hq, ih.2]
        simp only [hiff]

theorem take_eq_iff_isPrefix :
    (∃ k < path.length, path.take (k + 1) = q) ↔ q ≠ [] ∧ q <+: path := by
  constructor
  · rintro ⟨k, hk, rfl⟩
    exact ⟨fun hnil => by simp [List.take_eq_nil_iff] at hnil; simp [hnil] at hk,
      List.take_prefix _ _⟩
  · rintro ⟨hne, hq⟩
    have hpos : 0 < q.length := List.length_pos_of_ne_nil hne
    refine ⟨q.length - 1, by have := hq.length_le; omega, ?_⟩
    rw [Nat.sub_add_cancel hpos]
    exact (List.prefix_iff_eq_take.mp hq).symm

theorem InOrder.ensure (h : InOrder t.readings) (path : TimerPath) :
    InOrder (t.ensure path).readings :=
  (h.ensure_take t.current path path.length).1

theorem InOrder.reading?_ensure (h : InOrder t.readings) (path : TimerPath) :
    (t.ensure path).reading? q =
      if q ≠ [] ∧ q <+: path then some ((t.reading? q).getD .zero) else t.reading? q := by
  have hq := (h.ensure_take t.current path path.length).2 q
  simp only [take_eq_iff_isPrefix] at hq
  exact hq

/-!
## Changing readings
-/

def Changed (f : TimerPath → TimerReading → TimerReading) (t t' : Timers) : Prop :=
  t'.readings = t.readings.map fun e => (e.1, f e.1 e.2)

namespace Changed

variable {f : TimerPath → TimerReading → TimerReading} {t' : Timers}

theorem reading?_eq (h : Changed f t t') : t'.reading? q = (t.reading? q).map (f q) := by
  obtain ⟨current, readings⟩ := t
  obtain ⟨current', readings'⟩ := t'
  cases h
  induction readings with
  | nil => rfl
  | cons e rest ih =>
      by_cases he : e.1 = q
      · simp [reading?_cons, he]
      · simpa [reading?_cons, he] using ih

theorem inOrder (h : Changed f t t') (hin : InOrder t.readings) : InOrder t'.readings := by
  rw [InOrder, h]
  exact List.pairwise_map.mpr hin

end Changed

theorem changed_modify (path : TimerPath) (f : TimerReading → TimerReading) :
    Changed (fun q r => if q = path then f r else r) t (t.modify path f) :=
  List.map_congr_left fun e _ => by by_cases he : e.1 = path <;> simp [he]

theorem changed_sweep (change : Nat → TimerReading → TimerReading) (clock : Nat → Nat) :
    Changed (fun q r => if t.isRunning q then change (clock (t.place q)) r else r) t
      (t.sweep change clock) :=
  List.map_congr_left fun e _ => by by_cases he : t.isRunning e.1 <;> simp [he]

/-!
## Which timers run
-/

/-- The current timer and those around it run, all others are stopped. -/
structure Nested (now : Nat) (t : Timers) : Prop where
  inOrder : InOrder t.readings
  unnamed : t.reading? [] = none
  running : ∀ q, q ≠ [] → q <+: t.current →
    ∃ since elapsed, t.reading? q = some ⟨some since, elapsed⟩ ∧ since ≤ now
  stopped : ∀ q r, ¬ q <+: t.current → t.reading? q = some r → r.since = none

namespace Nested

variable {around : TimerPath}

theorem empty (now : Nat) : Nested now Timers.empty where
  inOrder := List.Pairwise.nil
  unnamed := rfl
  running q hne hq := absurd (List.prefix_nil.mp hq) hne
  stopped q r hq hr := by cases hr

theorem mono (h : Nested now t) (hle : now ≤ later) : Nested later t where
  inOrder := h.inOrder
  unnamed := h.unnamed
  running q hne hq := by
    obtain ⟨since, elapsed, hr, hsince⟩ := h.running q hne hq
    exact ⟨since, elapsed, hr, hsince.trans hle⟩
  stopped := h.stopped

theorem isRunning_iff (h : Nested now t) : t.isRunning q ↔ q <+: t.current := by
  simp only [isRunning, List.all_eq_true, List.mem_range]
  constructor
  · intro hall
    by_contra hq
    have hpos : 0 < q.length := List.length_pos_of_ne_nil fun hnil => hq (by simp [hnil])
    have hlast := hall (q.length - 1) (by omega)
    rw [Nat.sub_add_cancel hpos, List.take_length] at hlast
    cases hr : t.reading? q with
    | none => simp [hr] at hlast
    | some r => simp [hr, h.stopped q r hq hr] at hlast
  · intro hq k hk
    have hne : q.take (k + 1) ≠ [] := (take_eq_iff_isPrefix.mp ⟨k, hk, rfl⟩).1
    obtain ⟨since, elapsed, hr, -⟩ := h.running _ hne ((List.take_prefix _ _).trans hq)
    simp [hr]

theorem before_iff (h : Nested now t) (hq : around ++ [key] <+: t.current) :
    (q ∈ t.readings.map (·.1) ∧ q < around ++ [key] ∧ t.isRunning q) ↔
      q ≠ [] ∧ q <+: around := by
  constructor
  · rintro ⟨hmem, hlt, hrunning⟩
    obtain ⟨e, he, rfl⟩ := List.mem_map.mp hmem
    have hr := (h.inOrder.mem_iff t.current).mp he
    refine ⟨fun hnil => ?_, ?_⟩
    · have hnone := h.unnamed
      rw [← hnil, hr] at hnone
      cases hnone
    · cases List.prefix_or_prefix_of_prefix (h.isRunning_iff.mp hrunning) hq with
      | inl hpre => exact (List.prefix_concat_iff.mp hpre).resolve_left hlt.ne
      | inr hpre => exact absurd hlt hpre.le
  · rintro ⟨hne, hpre⟩
    have hinside : q <+: around ++ [key] := hpre.trans (List.prefix_append _ _)
    have hcurrent : q <+: t.current := hinside.trans hq
    have hother : q ≠ around ++ [key] := fun heq => by
      have hlen := hpre.length_le
      simp [heq] at hlen
    obtain ⟨since, elapsed, hr, -⟩ := h.running q hne hcurrent
    exact ⟨List.mem_map_of_mem ((h.inOrder.mem_iff t.current).mpr hr),
      lt_of_le_of_ne (not_lt.mp hinside.le) hother, h.isRunning_iff.mpr hcurrent⟩

theorem place_eq (h : Nested now t) (hq : around ++ [key] <+: t.current) :
    t.place (around ++ [key]) = around.length := by
  have hperm : ((t.readings.map (·.1)).filter
        fun q => q < around ++ [key] && t.isRunning q).Perm
      ((List.range around.length).map fun k => around.take (k + 1)) := by
    have htakes : ((List.range around.length).map fun k => around.take (k + 1)).Nodup := by
      refine List.Nodup.map_on (fun i hi j hj heq => ?_) List.nodup_range
      have hlen := congrArg List.length heq
      simp only [List.length_take, List.mem_range] at hlen hi hj
      omega
    refine (List.perm_ext_iff_of_nodup (h.inOrder.nodup.filter _) htakes).mpr fun q => ?_
    rw [List.mem_filter, Bool.and_eq_true, decide_eq_true_eq, h.before_iff hq,
      ← take_eq_iff_isPrefix]
    simp
  have hlength := hperm.length_eq
  rw [← List.countP_eq_length_filter, List.countP_map, List.length_map, List.length_range]
    at hlength
  exact hlength

theorem ensure_prefix (h : Nested now t) (hpath : path <+: t.current) :
    (t.ensure path).reading? q = t.reading? q := by
  rw [h.inOrder.reading?_ensure]
  split_ifs with hq
  · obtain ⟨since, elapsed, hr, -⟩ := h.running q hq.1 (hq.2.trans hpath)
    simp [hr]
  · rfl

/-!
## Operations
-/

theorem changed_start (t : Timers) (key : String) :
    Changed (fun q r => if q = t.current ++ [key] then r.start now else r)
      (t.ensure (t.current ++ [key])) (t.start now key) :=
  changed_modify _ _

theorem reading?_start (h : Nested now t) (later : Nat) (key : String) :
    (t.start later key).reading? q =
      if q = t.current ++ [key] then some (((t.reading? q).getD .zero).start later)
      else t.reading? q := by
  rw [(changed_start t key).reading?_eq, h.inOrder.reading?_ensure]
  by_cases hq : q = t.current ++ [key]
  · simp [hq]
  · by_cases hpre : q ≠ [] ∧ q <+: t.current ++ [key]
    · have hcur : q <+: t.current := (List.prefix_concat_iff.mp hpre.2).resolve_left hq
      obtain ⟨since, elapsed, hr, -⟩ := h.running q hpre.1 hcur
      simp [hr, hq]
    · simp [hpre, hq]

theorem start (h : Nested now t) (key : String) : Nested now (t.start now key) where
  inOrder := (changed_start t key).inOrder (h.inOrder.ensure _)
  unnamed := by simp [h.reading?_start, h.unnamed]
  running q hne hq := by
    rw [h.reading?_start]
    split_ifs with heq
    · exact ⟨now, _, rfl, le_rfl⟩
    · exact h.running q hne ((List.prefix_concat_iff.mp hq).resolve_left heq)
  stopped q r hq hr := by
    rw [h.reading?_start, if_neg fun heq => hq (by simp [heq, Timers.start])] at hr
    exact h.stopped q r (fun hcur => hq (hcur.trans (List.prefix_append _ _))) hr

section Stop

theorem current_stop (hcurrent : t.current = around ++ [key]) :
    (t.stop now).current = around := by
  simp [Timers.stop, hcurrent]

theorem changed_stop (hcurrent : t.current = around ++ [key]) :
    Changed (fun q r => if q = around ++ [key] then r.stop now else r)
      (t.ensure around) (t.stop now) := by
  have hmodify := changed_modify (t := t.ensure around) (around ++ [key]) (·.stop now)
  simpa [Timers.stop, hcurrent, Changed] using hmodify

theorem reading?_stop (h : Nested now t) (later : Nat) (hcurrent : t.current = around ++ [key]) :
    (t.stop later).reading? q =
      (t.reading? q).map fun r => if q = around ++ [key] then r.stop later else r := by
  have haround : around <+: t.current := hcurrent ▸ List.prefix_append around [key]
  rw [(changed_stop hcurrent).reading?_eq, h.ensure_prefix haround]

theorem stop (h : Nested now t) (hcurrent : t.current = around ++ [key]) :
    Nested now (t.stop now) where
  inOrder := (changed_stop hcurrent).inOrder (h.inOrder.ensure _)
  unnamed := by simp [h.reading?_stop _ hcurrent, h.unnamed]
  running q hne hq := by
    rw [current_stop hcurrent] at hq
    have hother : q ≠ around ++ [key] := fun heq => by
      have hlen := hq.length_le
      simp [heq] at hlen
    obtain ⟨since, elapsed, hr, hsince⟩ :=
      h.running q hne (hcurrent ▸ hq.trans (List.prefix_append _ _))
    exact ⟨since, elapsed, by simp [h.reading?_stop _ hcurrent, hr, hother], hsince⟩
  stopped q r hq hr := by
    rw [current_stop hcurrent] at hq
    rw [h.reading?_stop _ hcurrent] at hr
    obtain ⟨before, hbefore, rfl⟩ := Option.map_eq_some_iff.mp hr
    split_ifs with heq
    · rfl
    · refine h.stopped q before (fun hcur => hq ?_) hbefore
      exact (List.prefix_concat_iff.mp (hcurrent ▸ hcur)).resolve_left heq

end Stop

section Sweep

variable {change : Nat → TimerReading → TimerReading}

theorem reading?_sweep (h : Nested now t) (change : Nat → TimerReading → TimerReading)
    (clock : Nat → Nat) :
    (t.sweep change clock).reading? q =
      (t.reading? q).map fun r =>
        if q <+: t.current then change (clock (q.length - 1)) r else r := by
  rw [(changed_sweep change clock).reading?_eq]
  cases List.eq_nil_or_concat' q with
  | inl hnil => simp [hnil, h.unnamed]
  | inr hsplit =>
      obtain ⟨around, key, rfl⟩ := hsplit
      by_cases hq : around ++ [key] <+: t.current
      · simp [h.isRunning_iff, hq, h.place_eq hq]
      · simp [h.isRunning_iff, hq]

/-- What leaves each running timer its mark, or a new one, stops none. -/
theorem sweep (h : Nested now t)
    (hmark : ∀ i since elapsed, since ≤ now →
      ∃ since' elapsed', change (clock i) ⟨some since, elapsed⟩ = ⟨some since', elapsed'⟩ ∧
        since' ≤ later) :
    Nested later (t.sweep change clock) where
  inOrder := (changed_sweep change clock).inOrder h.inOrder
  unnamed := by simp [h.reading?_sweep, h.unnamed]
  running q hne hq := by
    obtain ⟨since, elapsed, hr, hsince⟩ := h.running q hne hq
    obtain ⟨since', elapsed', hchange, hsince'⟩ := hmark (q.length - 1) since elapsed hsince
    have hpre : q <+: t.current := hq
    exact ⟨since', elapsed', by simp [h.reading?_sweep, hr, hpre, hchange], hsince'⟩
  stopped q r hq hr := by
    have hpre : ¬ q <+: t.current := hq
    rw [h.reading?_sweep] at hr
    simp only [hpre, if_false, Option.map_id'] at hr
    exact h.stopped q r hpre hr

theorem suspend (h : Nested now t) (clock : Nat → Nat) : Nested now (t.suspend clock) :=
  h.sweep fun _ since _ hsince => ⟨since, _, rfl, hsince⟩

theorem resume (h : Nested now t) (hlater : ∀ i, clock i ≤ later) : Nested later (t.resume clock) :=
  h.sweep fun i _ elapsed _ => ⟨clock i, elapsed, rfl, hlater i⟩

/-- Suspension leaves the marks, so resumption finds the timers that were suspended. -/
theorem reading?_pause (h : Nested now t) (clock clock' : Nat → Nat) :
    ((t.suspend clock).resume clock').reading? q =
      (t.reading? q).map fun r =>
        if q <+: t.current then
          (r.suspend (clock (q.length - 1))).start (clock' (q.length - 1))
        else r := by
  have hcurrent : (t.suspend clock).current = t.current := rfl
  unfold Timers.resume
  rw [(h.suspend clock).reading?_sweep, hcurrent]
  unfold Timers.suspend
  rw [h.reading?_sweep, Option.map_map]
  congr 1
  funext r
  by_cases hq : q <+: t.current <;> simp [hq]

end Sweep

end Nested
end Timers
end SoftMargin
