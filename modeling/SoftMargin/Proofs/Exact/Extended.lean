import SoftMargin.Proofs.Exact.Matrix

/-!
# Exact scalars with infinities

An ordered field is extended by the values that doubles have beside the finite
ones: two infinities, and a value for results that are undefined. Arithmetic on
finite values is that of the field. A result of sums and products is finite
exactly if everything that goes into it is, so it shows when data is finite.
Zero has no sign.
-/

namespace SoftMargin

open Scalar

inductive Extended (K : Type) where
  | finite (x : K)
  | infinity
  | negInfinity
  | undefined
deriving DecidableEq

namespace Extended

variable {K : Type} [ExactScalar K]

/-!
## Arithmetic
-/

def signed (x : K) : Extended K :=
  if 0 < x then infinity else if x < 0 then negInfinity else undefined

def neg : Extended K → Extended K
  | finite x => finite (-x)
  | infinity => negInfinity
  | negInfinity => infinity
  | undefined => undefined

def add : Extended K → Extended K → Extended K
  | finite x, finite y => finite (x + y)
  | finite _, b => b
  | infinity, negInfinity => undefined
  | infinity, undefined => undefined
  | infinity, _ => infinity
  | negInfinity, infinity => undefined
  | negInfinity, undefined => undefined
  | negInfinity, _ => negInfinity
  | undefined, _ => undefined

def mul : Extended K → Extended K → Extended K
  | finite x, finite y => finite (x * y)
  | finite x, infinity => signed x
  | finite x, negInfinity => signed (-x)
  | infinity, finite y => signed y
  | infinity, infinity => infinity
  | infinity, negInfinity => negInfinity
  | negInfinity, finite y => signed (-y)
  | negInfinity, infinity => negInfinity
  | negInfinity, negInfinity => infinity
  | _, _ => undefined

def div : Extended K → Extended K → Extended K
  | finite x, finite y => if y = 0 then signed x else finite (x / y)
  | finite _, infinity => finite 0
  | finite _, negInfinity => finite 0
  | infinity, finite y => if y < 0 then negInfinity else infinity
  | negInfinity, finite y => if y < 0 then infinity else negInfinity
  | _, _ => undefined

def root : Extended K → Extended K
  | finite x => if x < 0 then undefined else finite (sqrt x)
  | infinity => infinity
  | _ => undefined

/-- An undefined value stands below nothing. -/
def Less : Extended K → Extended K → Prop
  | finite x, finite y => x < y
  | finite _, infinity => True
  | negInfinity, finite _ => True
  | negInfinity, infinity => True
  | _, _ => False

def AtMost : Extended K → Extended K → Prop
  | finite x, finite y => x ≤ y
  | finite _, infinity => True
  | infinity, infinity => True
  | negInfinity, finite _ => True
  | negInfinity, infinity => True
  | negInfinity, negInfinity => True
  | _, _ => False

instance decideLess : ∀ a b : Extended K, Decidable (Less a b)
  | finite x, finite y => inferInstanceAs (Decidable (x < y))
  | finite _, infinity => isTrue trivial
  | finite _, negInfinity => isFalse id
  | finite _, undefined => isFalse id
  | infinity, _ => isFalse id
  | negInfinity, finite _ => isTrue trivial
  | negInfinity, infinity => isTrue trivial
  | negInfinity, negInfinity => isFalse id
  | negInfinity, undefined => isFalse id
  | undefined, _ => isFalse id

instance decideAtMost : ∀ a b : Extended K, Decidable (AtMost a b)
  | finite x, finite y => inferInstanceAs (Decidable (x ≤ y))
  | finite _, infinity => isTrue trivial
  | finite _, negInfinity => isFalse id
  | finite _, undefined => isFalse id
  | infinity, finite _ => isFalse id
  | infinity, infinity => isTrue trivial
  | infinity, negInfinity => isFalse id
  | infinity, undefined => isFalse id
  | negInfinity, finite _ => isTrue trivial
  | negInfinity, infinity => isTrue trivial
  | negInfinity, negInfinity => isTrue trivial
  | negInfinity, undefined => isFalse id
  | undefined, _ => isFalse id

instance : Scalar (Extended K) where
  zero := finite 0
  one := finite 1
  add := add
  sub a b := add a (neg b)
  mul := mul
  div := div
  neg := neg
  lt := Less
  le := AtMost
  natCast n := finite n
  ofScientific m s e := finite (OfScientific.ofScientific m s e)
  decLt := decideLess
  decLe := decideAtMost
  sqrt := root
  ceilNat
    | finite x => Scalar.ceilNat x
    | _ => 0
  isFinite
    | finite _ => true
    | _ => false
  epsilon := finite epsilon
  infinity := infinity
  undefined := undefined

/-- The field value of a finite number, zero for the others. -/
def value : Extended K → K
  | finite x => x
  | _ => 0

section Finite

variable (x y : K)

theorem zero_eq : (0 : Extended K) = finite 0 := rfl

theorem one_eq : (1 : Extended K) = finite 1 := rfl

theorem epsilon_eq : (epsilon : Extended K) = finite epsilon := rfl

theorem finite_add_finite : finite x + finite y = finite (x + y) := rfl

theorem finite_mul_finite : finite x * finite y = finite (x * y) := rfl

theorem finite_sub_finite : finite x - finite y = finite (x - y) := by
  rw [sub_eq_add_neg]
  rfl

theorem finite_div_finite {y : K} (hy : y ≠ 0) : finite x / finite y = finite (x / y) :=
  if_neg hy

theorem finite_lt_finite : finite x < finite y ↔ x < y := Iff.rfl

theorem finite_le_finite : finite x ≤ finite y ↔ x ≤ y := Iff.rfl

theorem magnitude_finite : magnitude (finite x) = finite (magnitude x) := by
  unfold magnitude
  rw [zero_eq, finite_sub_finite]
  by_cases hx : 0 < x
  · rw [if_pos hx, if_pos ((finite_lt_finite 0 x).mpr hx)]
  · rw [if_neg hx, if_neg fun h => hx ((finite_lt_finite 0 x).mp h)]

end Finite

theorem isFinite_iff {a : Extended K} : isFinite a = true ↔ ∃ x, a = finite x := by
  constructor
  · intro h
    cases a with
    | finite x => exact ⟨x, rfl⟩
    | infinity => cases h
    | negInfinity => cases h
    | undefined => cases h
  · rintro ⟨x, rfl⟩
    rfl

/-!
## Order
-/

theorem not_lt_self (a : Extended K) : ¬a < a := by
  cases a with
  | finite x => exact lt_irrefl x
  | infinity => exact id
  | negInfinity => exact id
  | undefined => exact id

theorem lt_of_lt_of_lt {a b c : Extended K} (hab : a < b) (hbc : b < c) : a < c := by
  cases a <;> cases b <;> cases c <;> first | exact lt_trans hab hbc | trivial

instance : IsStrictOrder (Extended K) (· < ·) where
  irrefl := not_lt_self
  trans _ _ _ := lt_of_lt_of_lt

theorem le_of_lt {a b : Extended K} (h : a < b) : a ≤ b := by
  cases a <;> cases b <;> first | exact ((finite_lt_finite _ _).mp h).le | trivial

theorem not_lt_of_le {a b : Extended K} (h : a ≤ b) : ¬b < a := by
  cases a <;> cases b <;> first | exact not_lt.mpr h | exact id | cases h

theorem above_cases {x : K} {a : Extended K} (h : finite x ≤ a) :
    a = infinity ∨ ∃ y, a = finite y ∧ x ≤ y := by
  cases a with
  | finite y => exact Or.inr ⟨y, rfl, h⟩
  | infinity => exact Or.inl rfl
  | negInfinity => cases h
  | undefined => cases h

theorem finite_le_of_le {x y : K} {a : Extended K} (hxy : x ≤ y) (hy : finite y ≤ a) :
    finite x ≤ a := by
  rcases above_cases hy with rfl | ⟨z, rfl, hyz⟩
  · trivial
  · exact hxy.trans hyz

/-!
## Finite results
-/

theorem isFinite_add (a b : Extended K) : isFinite (a + b) = (isFinite a && isFinite b) := by
  cases a <;> cases b <;> rfl

theorem isFinite_neg (a : Extended K) : isFinite (-a) = isFinite a := by
  cases a <;> rfl

theorem isFinite_signed (x : K) : isFinite (signed x) = false := by
  unfold signed
  split_ifs <;> rfl

theorem isFinite_mul (a b : Extended K) : isFinite (a * b) = (isFinite a && isFinite b) := by
  cases a <;> cases b <;> first | rfl | exact isFinite_signed _

open BlockSum

theorem isFinite_runningTotal (xs : List (Extended K)) :
    isFinite (runningTotal xs) = true ↔ ∀ a ∈ xs, isFinite a = true := by
  suffices hfold : ∀ start : Extended K, isFinite (xs.foldl (· + ·) start) = true ↔
      isFinite start = true ∧ ∀ a ∈ xs, isFinite a = true from
    (hfold 0).trans ⟨fun h => h.right, fun h => ⟨rfl, h⟩⟩
  induction xs with
  | nil => simp
  | cons a rest ih =>
      intro start
      rw [List.foldl_cons, ih, isFinite_add, Bool.and_eq_true, List.forall_mem_cons, and_assoc]

theorem isFinite_blockTotals (xs : List (Extended K)) :
    (∀ t ∈ blockTotals xs, isFinite t = true) ↔ ∀ a ∈ xs, isFinite a = true := by
  fun_induction blockTotals xs with
  | case1 xs _ => rw [List.forall_mem_singleton, isFinite_runningTotal]
  | case2 xs _ ih =>
      rw [List.forall_mem_cons, ih, isFinite_runningTotal, ← List.forall_mem_append,
        List.take_append_drop]

theorem isFinite_addNeighbours (ts : List (Extended K)) :
    (∀ t ∈ addNeighbours ts, isFinite t = true) ↔ ∀ t ∈ ts, isFinite t = true := by
  fun_induction addNeighbours ts with
  | case1 a b rest ih =>
      rw [List.forall_mem_cons, ih, isFinite_add, Bool.and_eq_true, List.forall_mem_cons,
        List.forall_mem_cons, and_assoc]
  | case2 rest _ => rfl

theorem isFinite_mergeTotals (ts : List (Extended K)) :
    isFinite (mergeTotals ts) = true ↔ ∀ t ∈ ts, isFinite t = true := by
  fun_induction mergeTotals ts with
  | case1 => exact ⟨fun _ t ht => absurd ht List.not_mem_nil, fun _ => rfl⟩
  | case2 total => rw [List.forall_mem_singleton]
  | case3 a b rest ih => rw [ih, isFinite_addNeighbours]

theorem isFinite_blockSum (xs : List (Extended K)) :
    isFinite (blockSum xs) = true ↔ ∀ a ∈ xs, isFinite a = true := by
  unfold blockSum
  rw [isFinite_mergeTotals, isFinite_blockTotals]

/-!
## Finite vectors
-/

theorem allFinite_iff {x : Array (Extended K)} :
    allFinite x = true ↔ ∀ a ∈ x, isFinite a = true := by
  unfold allFinite
  rw [Array.all_eq_true_iff_forall_mem]

theorem isFinite_getD {x : Array (Extended K)} (h : allFinite x = true) (i : Nat) :
    isFinite (x.getD i 0) = true := by
  rcases Nat.lt_or_ge i x.size with hi | hi
  · exact isFinite_getD_of_lt h hi
  · rw [getD_of_size_le x 0 hi]
    rfl

theorem allFinite_zipWith {β : Type} {f : β → Extended K → Extended K} {x : Array β}
    {y : Array (Extended K)}
    (hf : ∀ a ∈ x, ∀ b, isFinite b = true → isFinite (f a b) = true)
    (hy : allFinite y = true) : allFinite (Array.zipWith f x y) = true := by
  rw [allFinite_iff] at hy ⊢
  intro v hv
  rcases Array.mem_iff_getElem.mp hv with ⟨i, hi, rfl⟩
  rw [Array.size_zipWith] at hi
  rw [Array.getElem_zipWith]
  exact hf _ (Array.getElem_mem (by omega)) _ (hy _ (Array.getElem_mem (by omega)))

theorem isFinite_dot {x y : Array (Extended K)} (hx : allFinite x = true)
    (hy : allFinite y = true) : isFinite (dot x y) = true := by
  refine (isFinite_blockSum _).mpr ?_
  intro v hv
  refine allFinite_iff.mp (allFinite_zipWith ?_ hy) v (Array.mem_toList_iff.mp hv)
  intro a ha b hb
  rw [isFinite_mul, allFinite_iff.mp hx a ha, hb]
  rfl

theorem allFinite_of_dot {x y : Array (Extended K)} (hsize : x.size = y.size)
    (h : isFinite (dot x y) = true) : allFinite x = true ∧ allFinite y = true := by
  have hitems := (isFinite_blockSum _).mp h
  have hboth : ∀ (i : Nat) (hx : i < x.size) (hy : i < y.size),
      isFinite x[i] = true ∧ isFinite y[i] = true := by
    intro i hx hy
    have hzip : i < (Array.zipWith (· * ·) x y).size := by
      rw [Array.size_zipWith]
      omega
    have hitem := hitems _ (Array.mem_toList_iff.mpr (Array.getElem_mem hzip))
    rwa [Array.getElem_zipWith, isFinite_mul, Bool.and_eq_true] at hitem
  rw [allFinite_iff, allFinite_iff]
  constructor
  · intro a ha
    rcases Array.mem_iff_getElem.mp ha with ⟨i, hi, rfl⟩
    exact (hboth i hi (hsize ▸ hi)).left
  · intro b hb
    rcases Array.mem_iff_getElem.mp hb with ⟨i, hi, rfl⟩
    exact (hboth i (hsize ▸ hi) hi).right

theorem magnitude_cases (a : Extended K) :
    (isFinite a = true ∧ ∃ x, magnitude a = finite x ∧ 0 ≤ x) ∨
      magnitude a = infinity ∨ magnitude a = undefined := by
  cases a with
  | finite x =>
      rw [magnitude_finite, magnitude_eq_abs]
      exact Or.inl ⟨rfl, |x|, rfl, abs_nonneg x⟩
  | infinity => exact Or.inr (Or.inl rfl)
  | negInfinity => exact Or.inr (Or.inl rfl)
  | undefined => exact Or.inr (Or.inr rfl)

theorem isFinite_magnitude (a : Extended K) : isFinite (magnitude a) = isFinite a := by
  cases a with
  | finite x =>
      rw [magnitude_finite]
      rfl
  | infinity => rfl
  | negInfinity => rfl
  | undefined => rfl

theorem maxNorm_cases (x : Array (Extended K)) :
    (allFinite x = true ∧ ∃ v, maxNorm x = finite v ∧ 0 ≤ v) ∨
      maxNorm x = infinity ∨ maxNorm x = undefined := by
  unfold maxNorm
  dsimp only
  by_cases hany : (x.map magnitude).any isUndefined = true
  · rw [if_pos hany]
    exact Or.inr (Or.inr rfl)
  · rw [if_neg hany, foldl_eq_foldl_range _ _ 0, Array.size_map]
    rw [Bool.not_eq_true, Array.any_eq_false] at hany
    have hloop := foldl_range_induction
      (fun n (best : Extended K) => best = infinity ∨ ∃ v, best = finite v ∧ 0 ≤ v ∧
        ∀ i < n, isFinite (x.getD i 0) = true)
      (fun best i => if best < (x.map magnitude).getD i 0 then (x.map magnitude).getD i 0 else best)
      x.size 0 (Or.inr ⟨0, rfl, le_refl 0, fun i hi => absurd hi (Nat.not_lt_zero i)⟩) ?_
    · rcases hloop with h | ⟨v, hv, hnonneg, hfinite⟩
      · exact Or.inr (Or.inl h)
      · refine Or.inl ⟨?_, v, hv, hnonneg⟩
        rw [allFinite_iff]
        intro a ha
        rcases Array.mem_iff_getElem.mp ha with ⟨i, hi, rfl⟩
        rw [← getD_of_lt x 0 hi]
        exact hfinite i hi
    · intro n hn best hbest
      rw [getD_map magnitude x 0 0 hn]
      rcases magnitude_cases (x.getD n 0) with ⟨hfinite, v, hv, hnonneg⟩ | hv | hv
      · rw [hv]
        rcases hbest with rfl | ⟨w, rfl, hw, hbefore⟩
        · exact Or.inl (if_neg id)
        · have hall : ∀ i < n + 1, isFinite (x.getD i 0) = true := by
            intro i hi
            rcases Nat.lt_succ_iff_lt_or_eq.mp hi with hlt | rfl
            · exact hbefore i hlt
            · exact hfinite
          right
          split_ifs
          · exact ⟨v, rfl, hnonneg, hall⟩
          · exact ⟨w, rfl, hw, hall⟩
      · rw [hv]
        rcases hbest with rfl | ⟨w, rfl, _, _⟩
        · exact Or.inl (if_neg id)
        · exact Or.inl (if_pos trivial)
      · have hdefined := hany n (by rw [Array.size_map]; exact hn)
        rw [Array.getElem_map, ← getD_of_lt x 0 hn, hv] at hdefined
        exact absurd rfl hdefined

end Extended
end SoftMargin
