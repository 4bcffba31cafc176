import SoftMargin.Json.Records
import SoftMargin.Proofs.Json.Reading

/-!
# Stored types are read back

A type is read back if what is written for a value has the shape of the type and
stands for that value. Records are put together from their fields.
-/

namespace SoftMargin
namespace Json
namespace Codec

variable {β : Type}

/-- What is written for a value has the shape of its type, and stands for the value. -/
structure Stores (c : Codec β) (b : β) : Prop where
  fits : c.shape.Fits (c.encode b)
  decode : c.decode? (c.encode b) = some b

def ReadsBack (c : Codec β) (b : β) : Prop :=
  ReadBack (c.encode b).numbersIn (c.encode b).countsIn

instance (c : Codec β) (b : β) : Decidable (c.ReadsBack b) :=
  inferInstanceAs (Decidable (ReadBack _ _))

/-- A value is read back if all numbers in it are finite. -/
theorem Stores.parse {c : Codec β} {b : β} (h : c.Stores b) (hback : c.ReadsBack b) :
    c.parse (c.text b) = kept (c.encode b).isFinite b := by
  unfold Codec.parse text
  rw [h.fits.parse hback]
  cases (c.encode b).isFinite with
  | true =>
      change (Except.ok (c.encode b) >>= _) = _
      rw [Ldl.ok_bind, h.decode]
      rfl
  | false => rfl

/-! ## Simple types -/

theorem stores_number (x : Float) : number.Stores x :=
  ⟨.number, rfl⟩

theorem stores_numbers (xs : Array Float) : numbers.Stores xs :=
  ⟨.numbers, rfl⟩

theorem stores_flag (b : Bool) : flag.Stores b :=
  ⟨.flag, rfl⟩

theorem stores_size {n : Nat} (h : n < Nat.pow 2 64) : size.Stores n :=
  ⟨.count h, rfl⟩

theorem toUInt32_toNat (n : UInt32) : n.toNat.toUInt32 = n :=
  UInt32.ofNat_toNat

theorem toUInt64_toNat (n : UInt64) : n.toNat.toUInt64 = n :=
  UInt64.ofNat_toNat

theorem stores_word32 (n : UInt32) : word32.Stores n :=
  ⟨.count n.toNat_lt, congrArg some (toUInt32_toNat n)⟩

theorem stores_word64 (n : UInt64) : word64.Stores n :=
  ⟨.count n.toNat_lt, congrArg some (toUInt64_toNat n)⟩

/-! ## Records -/

def IsField (field : String × Shape) (value : String × Value) : Prop :=
  field.1 = value.1 ∧ field.2.Fits value.2

theorem Stores.isField {c : Codec β} {b : β} (h : c.Stores b) (name : String) :
    IsField (c.field name) (c.value name b) :=
  ⟨rfl, h.fits⟩

theorem toList_ofList (values : List (String × Value)) :
    (Fields.ofList values).toList = values := by
  induction values with
  | nil => rfl
  | cons value values ih => rw [Fields.ofList, Fields.toList, ih]

theorem fits_record {lenient : Bool} {shapes : List (String × Shape)}
    {values : List (String × Value)} (hplain : ∀ field ∈ shapes, IsPlain field.1)
    (hnodup : (shapes.map (·.1)).Nodup) (h : List.Forall₂ IsField shapes values) :
    (Shape.record lenient (.ofList shapes)).Fits (.record (.ofList values)) := by
  have hnames : shapes.map (·.1) = values.map (·.1) := by
    clear hplain hnodup
    induction h with
    | nil => rfl
    | cons hfield _ ih => rw [List.map_cons, List.map_cons, hfield.left, ih]
  have hfit : (FieldShapes.ofList shapes).Fit (Fields.ofList values) := by
    clear hnodup hnames
    induction h with
    | nil => exact .nil
    | @cons field value shapes values hfield _ ih =>
        rcases field with ⟨name, shape⟩
        rcases value with ⟨name', v⟩
        rcases hfield with ⟨rfl, hfits⟩
        exact .cons (hplain _ List.mem_cons_self) hfits
          (ih fun field hmem => hplain field (List.mem_cons_of_mem _ hmem))
  refine .record ?_ hfit
  rw [toList_ofList, ← hnames]
  exact hnodup

theorem stores_matrix {A : Matrix Float} (hrows : A.rows < Nat.pow 2 64)
    (hcols : A.cols < Nat.pow 2 64) : matrix.Stores A := by
  refine ⟨fits_record (by decide) (by decide) ?_, rfl⟩
  exact .cons ((stores_size hrows).isField "m") <|
    .cons ((stores_size hcols).isField "n") <|
    .cons ((stores_numbers A.data).isField "data") .nil

theorem areFields_settings (s : Settings Float) :
    List.Forall₂ IsField settingsShapes (settingsValues s) :=
  .cons ((stores_number s.rho).isField "rho") <|
  .cons ((stores_number s.eta).isField "eta") <|
  .cons ((stores_word32 s.maxIter).isField "max_iter") <|
  .cons ((stores_number s.tol).isField "tol") <|
  .cons ((stores_number s.reltol).isField "reltol") <|
  .cons ((stores_word64 s.partitions).isField "npar") <|
  .cons ((stores_word64 s.seed).isField "partition_seed") <|
  .cons ((stores_flag s.forceLineSearch).isField "force_linesearch") <|
  .cons ((stores_flag s.recoverDuals).isField "recover_duals") <|
  .cons ((stores_flag s.verbose).isField "verbose") <|
  .cons ((stores_flag s.parallel).isField "parallel") <|
  .cons ((stores_number s.staticReg).isField "kkt_static_reg") <|
  .cons ((stores_word32 s.refineMaxIter).isField "kkt_refine_max_iter") <|
  .cons ((stores_number s.refineReltol).isField "kkt_refine_reltol") <|
  .cons ((stores_number s.refineAbstol).isField "kkt_refine_abstol") <|
  .cons ((stores_word32 s.deepMinIter).isField "linesearch_deep_min_iter") <|
  .cons ((stores_word32 s.maxBisect).isField "linesearch_max_bisect") <|
  .cons ((stores_number s.marginTol).isField "dual_margin_tol") <|
  .cons ((stores_flag s.checkResidual).isField "dual_check_residual") <|
  .cons ((stores_number s.recoveryTol).isField "dual_recovery_tol") .nil

theorem stores_settings (s : Settings Float) : settings.Stores s := by
  refine ⟨fits_record (by decide +kernel) (by decide +kernel) (areFields_settings s), ?_⟩
  calc settings.decode? (settings.encode s)
      = some { s with
          maxIter := s.maxIter.toNat.toUInt32
          partitions := s.partitions.toNat.toUInt64
          seed := s.seed.toNat.toUInt64
          refineMaxIter := s.refineMaxIter.toNat.toUInt32
          deepMinIter := s.deepMinIter.toNat.toUInt32
          maxBisect := s.maxBisect.toNat.toUInt32 } := rfl
    _ = some s := by
        rw [toUInt32_toNat, toUInt32_toNat, toUInt32_toNat, toUInt32_toNat, toUInt64_toNat,
          toUInt64_toNat]

end Codec
end Json
end SoftMargin
