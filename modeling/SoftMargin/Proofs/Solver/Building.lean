import SoftMargin.Proofs.Kkt.Quasidefinite
import SoftMargin.Proofs.Partition.Built
import SoftMargin.Proofs.Random.Groups
import SoftMargin.Solver.Basic

/-!
# Building a solver

Every partition of a solver is factored when it is built. Whatever the order of
elimination, this cannot fail: a solver is refused for its settings, its bound
or its data, and never for a factorization.
-/

namespace SoftMargin

variable {K : Type} [ExactScalar K]

theorem Problem.new_ne_factorization (data : Matrix K) (bound : K) (i : Nat) (source : LdlError) :
    Problem.new data bound ≠ .error (.factorization i source) := by
  unfold Problem.new
  split_ifs <;> simp

def Kkt.Orders (rule : Ldl.OrderingRule K) : Prop :=
  ∀ (H : Matrix K) (rho δ : K), ∃ order,
    rule (assemble H rho δ) = .ok order ∧ Ldl.IsOrder order (Shape.of H).dimension

variable {rule : Ldl.OrderingRule K} {P : Problem K} {settings : Settings K}

theorem Partition.exists_newBy (hrule : Kkt.Orders rule) (hP : P.data.Complete)
    {columns : Array Nat} (hcolumns : ∀ c ∈ columns, c < P.points) :
    ∃ p, newBy rule P settings columns = .ok p := by
  rcases hrule (P.data.select columns) settings.rho (-settings.staticReg) with
    ⟨order, hfound, horder⟩
  rcases KktSolver.exists_newBy (Matrix.complete_select hP hcolumns) hfound horder with
    ⟨solver, hsolver⟩
  unfold newBy
  rw [hsolver]
  exact ⟨_, rfl⟩

omit [ExactScalar K] in
theorem Partition.exists_buildGroups {β : Type} {build : Array Nat → Except LdlError β}
    {groups : List (Array Nat)} (h : ∀ columns ∈ groups, ∃ p, build columns = .ok p) (i : Nat) :
    ∃ parts, (buildGroups build i groups : Except (SolverError K) (List β)) = .ok parts := by
  induction groups generalizing i with
  | nil => exact ⟨[], rfl⟩
  | cons columns rest ih =>
      rcases h columns List.mem_cons_self with ⟨p, hp⟩
      rcases ih (fun c hc => h c (List.mem_cons_of_mem columns hc)) (i + 1) with ⟨parts, hparts⟩
      refine ⟨p :: parts, ?_⟩
      rw [buildGroups, hp]
      dsimp only
      rw [hparts]
      rfl

omit [ExactScalar K] in
theorem Partition.buildEach_one {β : Type} (draws : Random.Generator)
    (build : Array Nat → Except LdlError β) (hone : settings.partitions.toNat = 1)
    (hpoints : 0 < P.points) : buildEach draws build P settings =
      (buildGroups build 0 [Array.range P.points] >>= fun built => pure built.toArray) := by
  unfold buildEach Random.seededGroups
  dsimp only
  rw [hone, Random.groups_one, if_neg (Nat.not_lt.mpr hpoints)]

/-- All that can keep the partitions of a program from being built is that there are more of them
than points. -/
theorem Partition.exists_buildAllBy (hrule : Kkt.Orders rule) (draws : Random.Generator)
    (hP : P.data.Complete) (hcount : settings.partitions.toNat ≤ P.points) :
    ∃ parts, buildAllBy rule draws P settings = .ok parts := by
  have hbuilt : ∃ parts, (buildGroups (newBy rule P settings) 0
      (Random.seededGroups draws P.points settings.partitions.toNat settings.seed).toList :
        Except (SolverError K) (List (Partition K))) = .ok parts := by
    apply exists_buildGroups
    intro columns hcolumns
    apply exists_newBy hrule hP
    intro c hc
    exact Random.lt_of_mem_groups _ _ (Array.mem_toList_iff.mp hcolumns) hc
  rcases hbuilt with ⟨parts, hparts⟩
  unfold buildAllBy buildEach
  dsimp only
  rw [if_neg (Nat.not_lt.mpr hcount), hparts]
  exact ⟨_, rfl⟩

theorem Solver.newBy_ne_factorization {methods : Methods K} (hrule : Kkt.Orders methods.order)
    (data : Matrix K) (bound : K) (settings : Settings K) (i : Nat) (source : LdlError) :
    newBy methods data bound settings ≠ .error (.factorization i source) := by
  unfold newBy
  cases hvalid : settings.validate with
  | error e => exact fun h => by cases h
  | ok checked =>
      cases hproblem : Problem.new data bound with
      | error e =>
          intro h
          cases h
          exact Problem.new_ne_factorization data bound i source hproblem
      | ok P =>
          by_cases hcount : settings.partitions.toNat ≤ P.points
          · rcases Partition.exists_buildAllBy hrule methods.draws
                (Problem.new_eq_ok hproblem).complete hcount with ⟨parts, hparts⟩
            dsimp only
            rw [Ldl.ok_bind, hparts]
            exact fun h => by cases h
          · have hrefused : Partition.buildAllBy methods.order methods.draws P settings =
                .error (.badDimensions P.features P.points settings.partitions.toNat) := by
              unfold Partition.buildAllBy Partition.buildEach
              exact if_pos (Nat.not_le.mp hcount)
            dsimp only
            rw [Ldl.ok_bind, hrefused]
            exact fun h => by cases h

theorem Solver.exists_newBy (methods : Methods K) (hrule : Kkt.Orders methods.order)
    {data : Matrix K} {bound : K} (hvalid : settings.validate = .ok ())
    (hproblem : Problem.new data bound = .ok P)
    (hcount : settings.partitions.toNat ≤ P.points) :
    ∃ s, newBy methods data bound settings = .ok s := by
  rcases Partition.exists_buildAllBy hrule methods.draws (Problem.new_eq_ok hproblem).complete
    hcount with ⟨parts, hparts⟩
  unfold newBy
  rw [hvalid]
  dsimp only
  rw [hproblem, Ldl.ok_bind, hparts]
  exact ⟨_, rfl⟩

/-- Whatever the orders of elimination, the systems of all partitions can be factored. With a
penalty and a static regularization that are not too small, no pivot is touched, and each has the
sign of its column. -/
theorem systems_factored_in_every_order (hrule : Kkt.Orders rule) :
    (∀ (H : Matrix K) (settings : Settings K), H.Complete →
      ∃ solver, KktSolver.newBy rule H settings = .ok solver ∧
        rule (Kkt.assemble H settings.rho (-settings.staticReg)) = .ok solver.factor.order ∧
        (1e-12 ≤ settings.rho → 1e-12 ≤ settings.staticReg →
          solver.HasSignedPivots (Kkt.Shape.of H) settings)) ∧
    ∀ (draws : Random.Generator) (definite : BoundedLeastSquares.DefiniteSolver K)
      (data : Matrix K) (bound : K) (settings : Settings K) (i : Nat) (source : LdlError),
      Solver.newBy ⟨rule, draws, definite⟩ data bound settings ≠
        .error (.factorization i source) := by
  constructor
  · intro H settings hH
    rcases hrule H settings.rho (-settings.staticReg) with ⟨order, hfound, horder⟩
    rcases KktSolver.exists_newBy hH hfound horder with ⟨solver, hsolver⟩
    rcases Ldl.factorBy_eq_ok (KktSolver.newBy_eq_ok hsolver).right with
      ⟨_, _, _, _, _, _, hused, _⟩
    refine ⟨solver, hsolver, hused, ?_⟩
    apply KktSolver.newBy_hasSignedPivots hsolver
    intro order' hfound'
    rw [hfound] at hfound'
    cases hfound'
    exact horder
  · intro draws definite data bound settings i source
    exact Solver.newBy_ne_factorization hrule data bound settings i source

/-- The equations are eliminated first, which without regularization has zero pivots. -/
def Kkt.reversedOrder : Ldl.OrderingRule K :=
  fun A => .ok (Array.range A.cols).reverse

def Methods.reversed : Methods K :=
  { Methods.standard with order := Kkt.reversedOrder }

theorem Kkt.orders_reversedOrder : Orders (reversedOrder : Ldl.OrderingRule K) := by
  intro H rho δ
  refine ⟨_, rfl, ?_⟩
  rw [cols_assemble]
  unfold Ldl.IsOrder
  rw [Array.toList_reverse, Array.toList_range]
  exact List.reverse_perm _

theorem three_points_factored_in_reverse :
    ∃ solver, KktSolver.newBy Kkt.reversedOrder threePoints.data Settings.default = .ok solver ∧
      Kkt.reversedOrder (Kkt.assemble threePoints.data 1 (-1e-8)) = .ok solver.factor.order ∧
      solver.HasSignedPivots ⟨2, 3⟩ Settings.default := by
  have hall := systems_factored_in_every_order (Kkt.orders_reversedOrder (K := ℚ))
  rcases hall.left threePoints.data Settings.default (by decide) with
    ⟨solver, hsolver, hused, hpivots⟩
  exact ⟨solver, hsolver, hused, hpivots (by decide +kernel) (by decide +kernel)⟩

theorem Kkt.orders_naturalOrder : Orders (Ldl.naturalOrder : Ldl.OrderingRule K) := by
  intro H rho δ
  refine ⟨Array.range (assemble H rho δ).cols, ?_, ?_⟩
  · have hfirst : (assemble H rho δ).colptr[0]? = some 0 := by
      have hzero := Ldl.getD_offsets_zero ((columns H rho δ).map List.length).toArray
      rw [Array.getD_eq_getD_getElem?, Array.getElem?_eq_getElem (by simp)] at hzero
      show (Ldl.offsets ((columns H rho δ).map List.length).toArray)[0]? = some 0
      rw [Array.getElem?_eq_getElem (by simp)]
      exact congrArg some hzero
    exact if_neg fun hand => hand.right hfirst
  · rw [cols_assemble]
    unfold Ldl.IsOrder
    rw [Array.toList_range]

end SoftMargin
