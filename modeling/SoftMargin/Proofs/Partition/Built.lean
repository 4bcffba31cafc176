import SoftMargin.Proofs.Kkt.Exactness
import SoftMargin.Proofs.Partition.Balance

/-!
# Building partitions

A partition that is built without regularization answers its system exactly.
-/

namespace SoftMargin

variable {K : Type} [ExactScalar K]

namespace Partition

variable {rule : Ldl.OrderingRule K} {P : Problem K} {settings : Settings K}
  {columns : Array Nat} {p : Partition K}

theorem newBy_eq_ok (h : newBy rule P settings columns = .ok p) :
    ∃ solver, KktSolver.newBy rule (P.data.select columns) settings = .ok solver ∧
      p = ⟨columns, P.features, costsFor P columns.size, solver.solve⟩ := by
  unfold newBy at h
  rcases Ldl.bind_eq_ok.mp h with ⟨solver, hsolver, h⟩
  cases h
  exact ⟨solver, hsolver, rfl⟩

theorem columns_of_newBy (h : newBy rule P settings columns = .ok p) : p.columns = columns := by
  rcases newBy_eq_ok h with ⟨solver, _, rfl⟩
  rfl

theorem isPart_of_newBy (h : newBy rule P settings columns = .ok p)
    (hcolumns : ∀ c ∈ columns, c < P.points) : p.IsPart P := by
  rcases newBy_eq_ok h with ⟨solver, _, rfl⟩
  exact ⟨rfl, rfl, hcolumns⟩

omit [ExactScalar K] in
theorem buildGroups_eq_ok {β : Type} {build : Array Nat → Except LdlError β}
    {groups : List (Array Nat)} {i : Nat} {ps : List β}
    (h : (buildGroups build i groups : Except (SolverError K) (List β)) = .ok ps) :
    List.Forall₂ (fun columns p => build columns = .ok p) groups ps := by
  induction groups generalizing i ps with
  | nil =>
      cases h
      exact .nil
  | cons columns rest ih =>
      unfold buildGroups at h
      cases hfirst : build columns with
      | error source =>
          rw [hfirst] at h
          cases h
      | ok first =>
          rw [hfirst] at h
          rcases Ldl.bind_eq_ok.mp h with ⟨others, hothers, heq⟩
          cases heq
          exact .cons hfirst (ih hothers)

omit [ExactScalar K] in
theorem exists_of_mem_buildGroups {β : Type} {build : Array Nat → Except LdlError β}
    {groups : List (Array Nat)} {i : Nat} {ps : List β}
    (h : (buildGroups build i groups : Except (SolverError K) (List β)) = .ok ps) :
    ∀ p ∈ ps, ∃ columns ∈ groups, build columns = .ok p := by
  have hbuilt := buildGroups_eq_ok h
  intro p hp
  rcases List.mem_iff_get.mp hp with ⟨⟨k, hk⟩, rfl⟩
  have hgroup : k < groups.length := hbuilt.length_eq ▸ hk
  exact ⟨_, List.get_mem groups ⟨k, hgroup⟩, hbuilt.get hgroup hk⟩

theorem newBy_isExact
    (hrule : ∀ (A : Csc K) order, rule A = .ok order → Ldl.IsOrder order A.cols)
    (hcolumns : ∀ c ∈ columns, c < P.points) (hreg : settings.staticReg = 0)
    (hcount : ∀ solver, KktSolver.newBy rule (P.data.select columns) settings = .ok solver →
      solver.factor.regularizeCount = 0)
    (h : newBy rule P settings columns = .ok p) : p.columns = columns ∧ p.IsExact P settings := by
  rcases newBy_eq_ok h with ⟨solver, hsolver, rfl⟩
  have hexact : ∀ b : Array K, b.size = (Kkt.Shape.of (P.data.select columns)).dimension → _ :=
    fun b hb => KktSolver.solve_exact hrule hsolver hreg (hcount solver hsolver) hb
  refine ⟨rfl, rfl, rfl, hcolumns, ?_, ?_, ?_⟩
  · intro b hb
    exact (hexact b hb).left
  · intro b hb
    exact (hexact b hb).2.1
  · intro b hb
    have hsystem : system P settings ⟨columns, P.features, costsFor P columns.size, solver.solve⟩ =
        Kkt.assemble (P.data.select columns) settings.rho 0 :=
      Kkt.clearEquationBlock_assemble _ _ _
    rw [hsystem]
    exact (hexact b hb).2.2

end Partition

/-!
## Two partitions
-/

theorem Ensemble.isSplit_pair {P : Problem K} {settings : Settings K} {p q : Partition K}
    (hp : p.IsExact P settings) (hq : q.IsExact P settings)
    (hcolumns : (p.columns.toList ++ q.columns.toList).Perm (List.range P.points)) :
    IsSplit P settings #[p, q] := by
  constructor
  · intro r hr
    simp only [List.mem_toArray, List.mem_cons, List.not_mem_nil, or_false] at hr
    rcases hr with rfl | rfl
    · exact hp
    · exact hq
  · simpa only [List.flatMap_cons, List.flatMap_nil, List.append_nil] using hcolumns

def threePoints : Problem ℚ :=
  ⟨⟨2, 3, #[1, 0, 0, 1, 1, 1]⟩, 1 / 2⟩

/-- The weights one half each put both points on a margin of one half. -/
def threePointsOptimum : PrimalSolution ℚ :=
  ⟨#[1 / 2, 1 / 2], 1 / 2, #[0, 0, 0]⟩

def threePointsMultiplier (j : Nat) : ℚ :=
  if j < 2 then 1 / 2 else 0

def plainSettings : Settings ℚ :=
  { Settings.default with staticReg := 0 }

theorem threePoints_new : Problem.new threePoints.data threePoints.bound = .ok threePoints := by
  unfold Problem.new
  rw [if_neg (by decide +kernel), if_neg (by decide +kernel), if_neg (by decide +kernel)]

theorem threePoints_feasible : threePoints.Feasible threePointsOptimum := by
  refine ⟨rfl, rfl, ?_, ?_, ?_, ?_⟩ <;> decide +kernel

theorem threePoints_certifies :
    threePoints.Certifies threePointsOptimum threePointsMultiplier (1 / 2) := by
  refine ⟨⟨?_, ?_, ?_, ?_⟩, ?_, ?_, ?_⟩ <;> decide +kernel

theorem threePoints_isExact (columns : Array Nat) (hcolumns : ∀ c ∈ columns, c < 3)
    (hcount : ((KktSolver.newBy Ldl.naturalOrder (threePoints.data.select columns)
      plainSettings).toOption.map fun solver => solver.factor.regularizeCount) = some 0) :
    ∃ p, Partition.newBy Ldl.naturalOrder threePoints plainSettings columns = .ok p ∧
      p.columns = columns ∧ p.IsExact threePoints plainSettings := by
  cases hsolver : KktSolver.newBy Ldl.naturalOrder (threePoints.data.select columns)
      plainSettings with
  | error e =>
      rw [hsolver] at hcount
      cases hcount
  | ok solver =>
      rw [hsolver] at hcount
      have hp : Partition.newBy Ldl.naturalOrder threePoints plainSettings columns =
          .ok ⟨columns, 2, Partition.costsFor threePoints columns.size, solver.solve⟩ := by
        unfold Partition.newBy
        rw [hsolver]
        rfl
      refine ⟨_, hp, Partition.newBy_isExact Ldl.isOrder_naturalOrder hcolumns rfl ?_ hp⟩
      intro solver' hsolver'
      rw [hsolver] at hsolver'
      cases hsolver'
      exact Option.some.inj hcount

theorem exists_isSplit_threePoints : ∃ p q,
    Partition.newBy Ldl.naturalOrder threePoints plainSettings #[2, 0] = .ok p ∧
    Partition.newBy Ldl.naturalOrder threePoints plainSettings #[1] = .ok q ∧
    Ensemble.IsSplit threePoints plainSettings #[p, q] := by
  rcases threePoints_isExact #[2, 0] (by decide) (by decide +kernel) with
    ⟨p, hp, hpcolumns, hpexact⟩
  rcases threePoints_isExact #[1] (by decide) (by decide +kernel) with
    ⟨q, hq, hqcolumns, hqexact⟩
  refine ⟨p, q, hp, hq, Ensemble.isSplit_pair hpexact hqexact ?_⟩
  rw [hpcolumns, hqcolumns]
  decide

end SoftMargin
