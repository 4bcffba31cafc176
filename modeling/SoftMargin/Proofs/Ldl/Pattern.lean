import SoftMargin.Proofs.Ldl.Tree
import SoftMargin.Proofs.Sparse.Entries
import SoftMargin.Ldl.Numeric

/-!
# The pattern of a row

The columns that take part in a step are those on the tree paths from the
entries of the step's column. They are listed so that no column comes before one
below it in the tree, each once, and with a column the list has its parent, as
long as that comes before the step.
-/

namespace SoftMargin
namespace Ldl

open Scalar

/-!
## Paths to what is marked
-/

structure IsPath (parent : Array (Option Nat)) (k : Nat) (start : Option Nat)
    (visited : Array Bool) (path : List Nat) (visited' : Array Bool) : Prop where
  size : visited'.size = visited.size
  marks : ∀ m, visited'.getD m false = true ↔ visited.getD m false = true ∨ m ∈ path
  fresh : ∀ m ∈ path, m < k ∧ visited.getD m false = false
  climbs : ∀ m ∈ path, ∃ j, start = some j ∧ Climbs parent j m
  sorted : path.Pairwise (· < ·)
  closed : ∀ m ∈ path, ∀ p, parent.getD m none = some p → p < k → visited'.getD p false = true
  start_marked : ∀ j, start = some j → j < k → visited'.getD j false = true

namespace IsPath

variable {parent : Array (Option Nat)} {k : Nat} {visited : Array Bool}

theorem nil {start : Option Nat}
    (h : ∀ j, start = some j → j < k → visited.getD j false = true) :
    IsPath parent k start visited [] visited where
  size := rfl
  marks := fun m => by simp
  fresh := fun m hm => absurd hm List.not_mem_nil
  climbs := fun m hm => absurd hm List.not_mem_nil
  sorted := List.Pairwise.nil
  closed := fun m hm => absurd hm List.not_mem_nil
  start_marked := h

theorem cons {n j : Nat} {path : List Nat} {visited' : Array Bool} (hrising : Rising parent n)
    (hj : j < k) (hsize : j < visited.size) (hfresh : visited.getD j false = false)
    (h : IsPath parent k (parent.getD j none) (visited.setIfInBounds j true) path visited') :
    IsPath parent k (some j) visited (j :: path) visited' := by
  have hset : ∀ m, (visited.setIfInBounds j true).getD m false = true ↔
      m = j ∨ visited.getD m false = true := by
    intro m
    by_cases hm : j = m
    · subst hm
      simp [getD_setIfInBounds_self _ _ _ hsize]
    · rw [getD_setIfInBounds_ne _ _ _ hm]
      exact ⟨Or.inr, fun hor => hor.resolve_left (Ne.symm hm)⟩
  have hmarked : visited'.getD j false = true :=
    (h.marks j).mpr (Or.inl ((hset j).mpr (Or.inl rfl)))
  have habove : ∀ m ∈ path, ∃ p, parent.getD j none = some p ∧ Climbs parent p m := h.climbs
  refine ⟨by simpa using h.size, ?_, ?_, ?_, ?_, ?_, ?_⟩
  · intro m
    rw [h.marks m, hset m, List.mem_cons]
    tauto
  · intro m hm
    rcases List.mem_cons.mp hm with rfl | hpath
    · exact ⟨hj, hfresh⟩
    · refine ⟨(h.fresh m hpath).left, ?_⟩
      have hunset := (h.fresh m hpath).right
      rw [← Bool.not_eq_true, hset m] at hunset
      rw [← Bool.not_eq_true]
      exact fun hv => hunset (Or.inr hv)
  · intro m hm
    refine ⟨j, rfl, ?_⟩
    rcases List.mem_cons.mp hm with rfl | hpath
    · exact Climbs.refl parent m
    · rcases habove m hpath with ⟨p, hp, hclimb⟩
      exact (Climbs.of_parent hp).trans hclimb
  · refine List.pairwise_cons.mpr ⟨?_, h.sorted⟩
    intro m hm
    rcases habove m hm with ⟨p, hp, hclimb⟩
    exact (hrising j p hp).left.trans_le (hclimb.le hrising)
  · intro m hm p hp hpk
    rcases List.mem_cons.mp hm with rfl | hpath
    · exact h.start_marked p hp hpk
    · exact h.closed m hpath p hp hpk
  · intro i hi _
    rw [← Option.some.inj hi]
    exact hmarked

end IsPath

theorem unvisitedPath_eq_ok {parent : Array (Option Nat)} {k n : Nat}
    (hrising : Rising parent n) (hparent : parent.size = n) (hk : k ≤ n) (fuel : Nat)
    (start : Option Nat) (visited : Array Bool) (hvisited : visited.size = n) (hpos : 0 < fuel)
    (hfuel : ∀ j, start = some j → k - j < fuel) :
    ∃ path visited', unvisitedPath parent k fuel start visited = .ok (path, visited') ∧
      IsPath parent k start visited path visited' := by
  induction fuel generalizing start visited with
  | zero => exact absurd hpos (Nat.lt_irrefl 0)
  | succ fuel ih =>
      cases start with
      | none =>
          refine ⟨[], visited, rfl, IsPath.nil ?_⟩
          intro j hj
          cases hj
      | some j =>
          rw [unvisitedPath]
          by_cases hkj : k ≤ j
          · rw [if_pos hkj]
            refine ⟨[], visited, rfl, IsPath.nil ?_⟩
            intro i hi hik
            cases hi
            omega
          · rw [if_neg hkj, read_of_lt visited false (by omega), ok_bind]
            cases hseen : visited.getD j false with
            | true =>
                refine ⟨[], visited, rfl, IsPath.nil ?_⟩
                intro i hi _
                cases hi
                exact hseen
            | false =>
                have hj := hfuel j rfl
                rcases ih (parent.getD j none) (visited.setIfInBounds j true)
                    (by simpa using hvisited) (by omega) (by
                      intro p hp
                      have hjp := hrising j p hp
                      omega) with ⟨path, visited', hpath, hspec⟩
                refine ⟨j :: path, visited', ?_,
                  hspec.cons hrising (by omega) (by omega) hseen⟩
                rw [if_neg Bool.false_ne_true]
                dsimp only
                rw [read_of_lt parent none (by omega), ok_bind, hpath]
                rfl

/-!
## The columns of a step
-/

section Collects

variable {α : Type} [Scalar α]

/-- The columns to which some entries of column `k` have led, and the scratch vectors by then. Only
the columns that are listed are marked, and the row is zero elsewhere. -/
structure Collects (parent : Array (Option Nat)) (k n : Nat) (done : List (Nat × α))
    (p : Pattern α) : Prop where
  size_row : p.row.size = n
  row_zero : ∀ i, i ∉ p.columns → p.row.getD i 0 = 0
  size_visited : p.visited.size = n
  visited_iff : ∀ m, p.visited.getD m false = true ↔ m ∈ p.columns
  lt : ∀ m ∈ p.columns, m < k
  origin : ∀ m ∈ p.columns, ∃ e ∈ done, Climbs parent e.1 m
  ordered : p.columns.Pairwise fun a b => ¬ Climbs parent b a
  closed : ∀ m ∈ p.columns, ∀ q, parent.getD m none = some q → q < k → q ∈ p.columns
  rows_mem : ∀ e ∈ done, e.1 < k → e.1 ∈ p.columns

namespace Collects

variable {parent : Array (Option Nat)} {k n : Nat} {done : List (Nat × α)} {p : Pattern α}

theorem nodup (h : Collects parent k n done p) : p.columns.Nodup := by
  refine h.ordered.imp ?_
  intro a b hclimb heq
  rw [heq] at hclimb
  exact hclimb (Climbs.refl parent b)

/-- With a column the list has everything above it that comes before the step. -/
theorem mem_of_climbs (h : Collects parent k n done p) (hrising : Rising parent n) {m c : Nat}
    (hclimb : Climbs parent m c) (hm : m ∈ p.columns) (hc : c < k) : c ∈ p.columns := by
  induction hclimb using Relation.ReflTransGen.head_induction_on with
  | refl => exact hm
  | @head a b hstep hrest ih =>
      exact ih (h.closed a hm b hstep ((Climbs.le hrising hrest).trans_lt hc))

theorem empty {row : Array α} {visited : Array Bool} (hrow : row.size = n)
    (hzero : ∀ i, row.getD i 0 = 0) (hvisited : visited.size = n)
    (hunmarked : ∀ i, visited.getD i false = false) :
    Collects parent k n [] { diagonal := (0 : α), row, visited, columns := [] } where
  size_row := hrow
  row_zero := fun i _ => hzero i
  size_visited := hvisited
  visited_iff := fun m => by simp [hunmarked m]
  lt := fun m hm => absurd hm List.not_mem_nil
  origin := fun m hm => absurd hm List.not_mem_nil
  ordered := List.Pairwise.nil
  closed := fun m hm => absurd hm List.not_mem_nil
  rows_mem := fun e he => absurd he List.not_mem_nil

theorem add_diagonal (h : Collects parent k n done p) (v : α) :
    Collects parent k n (done ++ [(k, v)]) { p with diagonal := v } where
  size_row := h.size_row
  row_zero := h.row_zero
  size_visited := h.size_visited
  visited_iff := h.visited_iff
  lt := h.lt
  origin := fun m hm => by
    rcases h.origin m hm with ⟨e, he, hclimb⟩
    exact ⟨e, List.mem_append_left _ he, hclimb⟩
  ordered := h.ordered
  closed := h.closed
  rows_mem := by
    intro e he hek
    rcases List.mem_append.mp he with hold | hnew
    · exact h.rows_mem e hold hek
    · rw [List.mem_singleton.mp hnew] at hek
      exact absurd hek (Nat.lt_irrefl k)

/-- A path found later is treated before the paths found earlier. -/
theorem add_path (h : Collects parent k n done p) (hrising : Rising parent n) {i : Nat} {v : α}
    (hi : i < k) {path : List Nat} {visited' : Array Bool}
    (hpath : IsPath parent k (some i) p.visited path visited') :
    Collects parent k n (done ++ [(i, v)])
      { p with row := p.row.setIfInBounds i v, visited := visited',
               columns := path ++ p.columns } := by
  have hstart : i ∈ path ++ p.columns := by
    have hmark := hpath.start_marked i rfl hi
    rw [hpath.marks i, h.visited_iff i] at hmark
    exact List.mem_append.mpr hmark.symm
  refine ⟨by simpa using h.size_row, ?_, hpath.size.trans h.size_visited, ?_, ?_, ?_, ?_, ?_, ?_⟩
  · intro a ha
    have hia : i ≠ a := fun heq => ha (heq ▸ hstart)
    rw [getD_setIfInBounds_ne _ _ _ hia]
    exact h.row_zero a fun hold => ha (List.mem_append_right _ hold)
  · intro m
    rw [hpath.marks m, h.visited_iff m, List.mem_append]
    exact or_comm
  · intro m hm
    rcases List.mem_append.mp hm with hnew | hold
    · exact (hpath.fresh m hnew).left
    · exact h.lt m hold
  · intro m hm
    rcases List.mem_append.mp hm with hnew | hold
    · rcases hpath.climbs m hnew with ⟨j, hj, hclimb⟩
      exact ⟨(i, v), by simp, Option.some.inj hj ▸ hclimb⟩
    · rcases h.origin m hold with ⟨e, he, hclimb⟩
      exact ⟨e, List.mem_append_left _ he, hclimb⟩
  · refine List.pairwise_append.mpr ⟨?_, h.ordered, ?_⟩
    · refine hpath.sorted.imp ?_
      intro a b hab hclimb
      exact absurd (hclimb.le hrising) (Nat.not_le.mpr hab)
    · intro a ha b hb hclimb
      have hmem := h.mem_of_climbs hrising hclimb hb (hpath.fresh a ha).left
      rw [← h.visited_iff a, (hpath.fresh a ha).right] at hmem
      exact Bool.false_ne_true hmem
  · intro m hm q hq hqk
    rcases List.mem_append.mp hm with hnew | hold
    · have hmark := hpath.closed m hnew q hq hqk
      rw [hpath.marks q, h.visited_iff q] at hmark
      exact List.mem_append.mpr hmark.symm
    · exact List.mem_append_right _ (h.closed m hold q hq hqk)
  · intro e he hek
    rcases List.mem_append.mp he with hold | hnew
    · exact List.mem_append_right _ (h.rows_mem e hold hek)
    · rw [List.mem_singleton.mp hnew]
      exact hstart

theorem addEntry (h : Collects parent k n done p) (hrising : Rising parent n)
    (hparent : parent.size = n) (hk : k < n) {e : Nat × α} (he : e.1 ≤ k) :
    ∃ p', p.addEntry parent k (n + 1) e = .ok p' ∧
      p'.diagonal = (if e.1 = k then e.2 else p.diagonal) ∧
      p'.row = (if e.1 = k then p.row else p.row.setIfInBounds e.1 e.2) ∧
      Collects parent k n (done ++ [e]) p' := by
  rcases e with ⟨i, v⟩
  unfold Pattern.addEntry
  by_cases hik : i = k
  · subst hik
    exact ⟨{ p with diagonal := v }, if_pos rfl, (if_pos rfl).symm, (if_pos rfl).symm,
      h.add_diagonal v⟩
  · have hlt : i < k := Nat.lt_of_le_of_ne he hik
    rcases unvisitedPath_eq_ok hrising hparent hk.le (n + 1) (some i) p.visited h.size_visited
        (Nat.succ_pos n) (by intro j _; omega) with ⟨path, visited', hpath, hspec⟩
    refine ⟨{ p with row := p.row.setIfInBounds i v, visited := visited',
                     columns := path ++ p.columns }, ?_, (if_neg hik).symm, (if_neg hik).symm,
      h.add_path hrising hlt hspec⟩
    dsimp only
    rw [if_neg hik, write_of_lt _ (by rw [h.size_row]; omega), ok_bind, hpath]
    rfl

end Collects

theorem collects_eq_ok {parent : Array (Option Nat)} {k n : Nat} (hrising : Rising parent n)
    (hparent : parent.size = n) (hk : k < n) {column : List (Nat × α)}
    (hcolumn : ∀ e ∈ column, e.1 ≤ k) {row : Array α} {visited : Array Bool}
    (hrow : row.size = n) (hzero : ∀ i, row.getD i 0 = 0) (hvisited : visited.size = n)
    (hunmarked : ∀ i, visited.getD i false = false) :
    ∃ p, column.foldlM (Pattern.addEntry parent k (n + 1))
        { diagonal := 0, row, visited, columns := [] } = .ok p ∧ Collects parent k n column p := by
  have hloop := foldlM_eq_ok (Collects parent k n) (Pattern.addEntry parent k (n + 1)) column _
    (Collects.empty hrow hzero hvisited hunmarked) (by
      intro done e todo p hsplit hinv
      have he : e ∈ column := by
        rw [hsplit]
        exact List.mem_append_right _ List.mem_cons_self
      rcases hinv.addEntry hrising hparent hk (hcolumn e he) with ⟨p', hadd, _, _, hcollects⟩
      exact ⟨p', hadd, hcollects⟩)
  exact hloop

end Collects

/-!
## The entries of a column
-/

variable {K : Type} [ExactScalar K]

structure IsPattern (parent : Array (Option Nat)) (k n : Nat) (done : List (Nat × K))
    (p : Pattern K) : Prop extends Collects parent k n done p where
  diagonal : p.diagonal = lastEntry done k
  row : ∀ i, p.row.getD i 0 = if i = k then 0 else lastEntry done i

namespace IsPattern

variable {parent : Array (Option Nat)} {k n : Nat} {done : List (Nat × K)} {p : Pattern K}

theorem empty {row : Array K} {visited : Array Bool} (hrow : row.size = n)
    (hzero : ∀ i, row.getD i 0 = 0) (hvisited : visited.size = n)
    (hunmarked : ∀ i, visited.getD i false = false) :
    IsPattern parent k n [] { diagonal := (0 : K), row, visited, columns := [] } where
  toCollects := .empty hrow hzero hvisited hunmarked
  diagonal := rfl
  row := fun i => by
    rw [hzero i, lastEntry_nil]
    exact (ite_self 0).symm

theorem addEntry (h : IsPattern parent k n done p) (hrising : Rising parent n)
    (hparent : parent.size = n) (hk : k < n) {e : Nat × K} (he : e.1 ≤ k) :
    ∃ p', p.addEntry parent k (n + 1) e = .ok p' ∧ IsPattern parent k n (done ++ [e]) p' := by
  rcases h.toCollects.addEntry hrising hparent hk he with
    ⟨p', hadd, hdiagonal, hrow, hcollects⟩
  refine ⟨p', hadd, hcollects, ?_, ?_⟩
  · rw [hdiagonal, lastEntry_concat, h.diagonal]
  · intro i
    rw [hrow, lastEntry_concat]
    by_cases hek : e.1 = k
    · rw [if_pos hek, h.row i]
      by_cases hi : i = k
      · rw [if_pos hi, if_pos hi]
      · rw [if_neg hi, if_neg hi, if_neg (hek ▸ Ne.symm hi)]
    · rw [if_neg hek]
      by_cases hei : e.1 = i
      · have hlt : e.1 < p.row.size := by
          rw [h.size_row]
          omega
        rw [← hei, getD_setIfInBounds_self _ _ _ hlt, if_neg hek, if_pos rfl]
      · rw [getD_setIfInBounds_ne _ _ _ hei, h.row i, if_neg hei]

end IsPattern

theorem pattern_eq_ok {parent : Array (Option Nat)} {k n : Nat} (hrising : Rising parent n)
    (hparent : parent.size = n) (hk : k < n) {column : List (Nat × K)}
    (hcolumn : ∀ e ∈ column, e.1 ≤ k) {row : Array K} {visited : Array Bool}
    (hrow : row.size = n) (hzero : ∀ i, row.getD i 0 = 0) (hvisited : visited.size = n)
    (hunmarked : ∀ i, visited.getD i false = false) :
    ∃ p, column.foldlM (Pattern.addEntry parent k (n + 1))
        { diagonal := 0, row, visited, columns := [] } = .ok p ∧
      IsPattern parent k n column p := by
  have hloop := foldlM_eq_ok (IsPattern parent k n) (Pattern.addEntry parent k (n + 1)) column _
    (IsPattern.empty hrow hzero hvisited hunmarked) (by
      intro done e todo p hsplit hinv
      refine hinv.addEntry hrising hparent hk (hcolumn e ?_)
      rw [hsplit]
      exact List.mem_append_right _ List.mem_cons_self)
  exact hloop

end Ldl
end SoftMargin
