import SoftMargin.Proofs.InPlace.Refinement

/-!
# Systems solved in place

Every vector of a system is overwritten before it is read, so a solve depends on
the right hand side alone. What the earlier solves have left matters only for its
length.
-/

namespace SoftMargin

variable {K : Type} [ExactScalar K]

/-!
## Factors
-/

def KktSolver.IsFactored (k : KktSolver K) : Prop :=
  ∃ A settings replaced, A.cols = k.dimension ∧ k.factor.Factors A settings replaced

theorem KktSolver.newBy_isFactored {rule : Ldl.OrderingRule K} {H : Matrix K}
    {settings : Settings K} {solver : KktSolver K}
    (hrule : ∀ (A : Csc K) order, rule A = .ok order → Ldl.IsOrder order A.cols)
    (h : newBy rule H settings = .ok solver) :
    solver.IsFactored ∧ solver.dimension = (Kkt.Shape.of H).dimension := by
  rcases newBy_eq_ok h with ⟨hsystem, hfactor⟩
  have hdimension : solver.dimension = (Kkt.Shape.of H).dimension := by
    unfold dimension
    rw [hsystem, Kkt.cols_assemble]
  rcases Ldl.factorBy_factors (hrule _) hfactor with ⟨replaced, hfactors⟩
  refine ⟨⟨_, _, replaced, ?_, hfactors⟩, hdimension⟩
  rw [Kkt.cols_assemble, hdimension]

namespace KktSolver.IsFactored

variable {k : KktSolver K} (h : k.IsFactored)

include h

theorem size_workspace : k.factor.workspace.size = k.dimension := by
  rcases h with ⟨A, settings, replaced, hcols, hfactors⟩
  rw [hfactors.size_workspace, hcols]

theorem solveIn_snd {work : Array K} (hwork : work.size = k.dimension) (b : Array K) :
    (k.factor.solveIn work b).2 = k.factor.solve b := by
  rcases h with ⟨A, settings, replaced, hcols, hfactors⟩
  unfold LdlFactor.solve
  rw [hfactors.solveIn_eq (hwork.trans hcols.symm), hfactors.solveIn_eq hfactors.size_workspace]

theorem size_solveIn_fst {work : Array K} (hwork : work.size = k.dimension) (b : Array K) :
    (k.factor.solveIn work b).1.size = k.dimension := by
  rcases h with ⟨A, settings, replaced, hcols, hfactors⟩
  rw [hfactors.size_solveIn (hwork.trans hcols.symm), hcols]

theorem size_solve {b : Array K} (hb : b.size = k.dimension) :
    (k.factor.solve b).size = k.dimension := by
  rcases h with ⟨A, settings, replaced, hcols, hfactors⟩
  rw [(hfactors.solve_spec (hb.trans hcols.symm)).left, hcols]

theorem ofFactor_answers : (InPlace.Direct.ofFactor (α := K)).Answers k
    (fun workspace => workspace.size = k.dimension) k.factor.solve := by
  refine ⟨fun v hv => h.size_solve hv, ?_, ?_⟩
  · rintro b S ⟨rfl, -, hsized, hworkspace⟩
    refine ⟨_, h.size_solveIn_fst hworkspace S.rhs, ?_⟩
    show S.substitute = _
    unfold InPlace.System.substitute
    rw [overwriteMap_id (hsized.rhs.trans hsized.answer.symm), ← h.solveIn_snd hworkspace]
  · rintro b S ⟨rfl, -, hsized, hworkspace⟩
    refine ⟨_, h.size_solveIn_fst hworkspace S.residual, ?_⟩
    show S.correct = _
    unfold InPlace.System.correct
    rw [overwriteMap_id (hsized.residual.trans hsized.correction.symm),
      ← h.solveIn_snd hworkspace]

end KktSolver.IsFactored

/-!
## A solve
-/

namespace InPlace
namespace System

structure Fits (S : System K) : Prop where
  factored : S.kkt.IsFactored
  rhs : S.rhs.size = S.kkt.dimension
  answer : S.answer.size = S.kkt.dimension
  residual : S.residual.size = S.kkt.dimension
  correction : S.correction.size = S.kkt.dimension
  workspace : S.workspace.size = S.kkt.dimension

theorem fits_start {k : KktSolver K} (h : k.IsFactored) : (start k).Fits :=
  ⟨h, size_zeros _, size_zeros _, size_zeros _, size_zeros _, h.size_workspace⟩

structure Keeps (S T : System K) : Prop where
  fits : T.Fits
  kkt_eq : T.kkt = S.kkt
  rhs_eq : T.rhs = S.rhs

variable {S : System K}

theorem Fits.ready (h : S.Fits) :
    S.Ready S.kkt S.rhs fun workspace => workspace.size = S.kkt.dimension :=
  ⟨rfl, rfl, ⟨h.rhs, h.answer, h.residual, h.correction⟩, h.workspace⟩

theorem Fits.keeps_of_ready (h : S.Fits) {T : System K}
    (hT : T.Ready S.kkt S.rhs fun workspace => workspace.size = S.kkt.dimension) :
    S.Keeps T := by
  obtain ⟨hkkt, hrhs, hsized, hworkspace⟩ := hT
  refine ⟨⟨hkkt ▸ h.factored, hsized.rhs, hsized.answer, hsized.residual, hsized.correction, ?_⟩,
    hkkt, hrhs⟩
  rw [hkkt]
  exact hworkspace

theorem Fits.solve (h : S.Fits) : S.Keeps S.solve.2 ∧
    (S.solve.1, S.solve.2.answer) = S.kkt.solve S.rhs := by
  obtain ⟨hready, hsolve⟩ := h.ready.solveBy h.factored.ofFactor_answers
  exact ⟨h.keeps_of_ready hready, hsolve⟩

end System
end InPlace
end SoftMargin
