import Mathlib.Data.List.Forall2
import SoftMargin.Json.Codec
import SoftMargin.Proofs.Json.Numbers

/-!
# Reading what has been written

The text of a value is read back as the value if all numbers in it are finite.
The first number that is not is written as an absent value, and there reading
stops. Of the numbers it is assumed that each finite one, and each count, is
read back from its own text.
-/

namespace SoftMargin
namespace Json

open Ldl

variable {β γ : Type}

/-- Reading the text comes to the outcome, whatever ends the text. -/
def Reads (r : Reader β) (text : List Char) (outcome : Except ReadError β) : Prop :=
  ∀ rest, Ends rest → r.run (text ++ rest) = outcome.map fun v => (v, rest)

/-- The outcome of reading something that has been written, by whether it is finite. -/
def kept (finite : Bool) (v : β) : Except ReadError β :=
  if finite then .ok v else .error .mismatch

theorem Reads.map {r : Reader β} {text : List Char} {finite : Bool} {v : β}
    (h : Reads r text (kept finite v)) (f : β → γ) :
    Reads (do return f (← r)) text (kept finite (f v)) := by
  intro rest hrest
  have hrun := h rest hrest
  cases finite with
  | true => exact run_bind_of_ok hrun _
  | false => exact run_bind_of_error hrun _

/-! ## Values of a shape -/

mutual

def Value.numbersIn : Value → List Float
  | .number x => [x]
  | .numbers xs => xs
  | .record fields => fields.numbersIn
  | _ => []

def Fields.numbersIn : Fields → List Float
  | .nil => []
  | .cons _ v rest => v.numbersIn ++ rest.numbersIn

end

mutual

def Value.countsIn : Value → List Nat
  | .count n => [n]
  | .record fields => fields.countsIn
  | _ => []

def Fields.countsIn : Fields → List Nat
  | .nil => []
  | .cons _ v rest => v.countsIn ++ rest.countsIn

end

def Value.isFinite (v : Value) : Bool :=
  v.numbersIn.all Float.isFinite

def Fields.isFinite (fields : Fields) : Bool :=
  fields.numbersIn.all Float.isFinite

def NumberReadsBack (x : Float) : Prop :=
  (readNumber.run (numberText x).toList).map (fun read => (read.1.2, read.2)) = .ok (x, [])

def CountReadsBack (n : Nat) : Prop :=
  (readNumber.run (toString n).toList).map (fun read => (read.1.1.count?, read.2)) =
    .ok (some n, [])

instance (x : Float) : Decidable (NumberReadsBack x) :=
  inferInstanceAs (Decidable (_ = _))

instance (n : Nat) : Decidable (CountReadsBack n) :=
  inferInstanceAs (Decidable (_ = _))

structure ReadBack (numbers : List Float) (counts : List Nat) : Prop where
  number : ∀ x ∈ numbers, x.isFinite = true → NumberReadsBack x
  count : ∀ n ∈ counts, CountReadsBack n

instance (numbers : List Float) (counts : List Nat) : Decidable (ReadBack numbers counts) :=
  decidable_of_iff ((∀ x ∈ numbers, x.isFinite = true → NumberReadsBack x) ∧
      ∀ n ∈ counts, CountReadsBack n)
    ⟨fun h => ⟨h.left, h.right⟩, fun h => ⟨h.number, h.count⟩⟩

/-- A name that is written without escapes. -/
def IsPlain (name : String) : Prop :=
  ∀ c ∈ name.toList, c ≠ '"' ∧ c ≠ '\\' ∧ 0x20 ≤ c.toNat

instance (name : String) : Decidable (IsPlain name) :=
  List.decidableBAll (fun c => c ≠ '"' ∧ c ≠ '\\' ∧ 0x20 ≤ c.toNat) name.toList

def Fields.toList : Fields → List (String × Value)
  | .nil => []
  | .cons name v rest => (name, v) :: rest.toList

mutual

/-- A value of the shape. Optional values and choices are left out. -/
inductive Shape.Fits : Shape → Value → Prop where
  | number {x : Float} : Shape.Fits .number (.number x)
  | count {limit n : Nat} (h : n < limit) : Shape.Fits (.count limit) (.count n)
  | flag {b : Bool} : Shape.Fits .flag (.flag b)
  | numbers {xs : List Float} : Shape.Fits .numbers (.numbers xs)
  | record {lenient : Bool} {shapes : FieldShapes} {fields : Fields}
      (nodup : (fields.toList.map (·.1)).Nodup) (h : shapes.Fit fields) :
      Shape.Fits (.record lenient shapes) (.record fields)

inductive FieldShapes.Fit : FieldShapes → Fields → Prop where
  | nil : FieldShapes.Fit .nil .nil
  | cons {name : String} {shape : Shape} {shapes : FieldShapes} {v : Value} {fields : Fields}
      (plain : IsPlain name) (value : shape.Fits v) (rest : shapes.Fit fields) :
      FieldShapes.Fit (.cons name shape shapes) (.cons name v fields)

end

/-! ## Numbers and flags -/

theorem numberText_of_not_finite {x : Float} (h : x.isFinite = false) : numberText x = "null" := by
  unfold numberText
  rw [h]
  rfl

theorem run_readNumber_null (rest : List Char) :
    readNumber.run ("null".toList ++ rest) = .error .mismatch :=
  rfl

theorem NumberReadsBack.run {x : Float} (h : NumberReadsBack x) :
    ∃ n, readNumber.run (numberText x).toList = .ok ((n, x), []) := by
  unfold NumberReadsBack at h
  cases hrun : readNumber.run (numberText x).toList with
  | error e =>
      rw [hrun] at h
      cases h
  | ok read =>
      rw [hrun] at h
      rcases read with ⟨⟨n, y⟩, left⟩
      cases h
      exact ⟨n, rfl⟩

theorem NumberReadsBack.reads {x : Float} (h : x.isFinite = true → NumberReadsBack x) :
    Reads Shape.number.read (numberText x).toList (kept x.isFinite (.number x)) := by
  intro rest hrest
  rw [Shape.read]
  cases hx : x.isFinite with
  | true =>
      rcases (h hx).run with ⟨n, hrun⟩
      exact run_bind_of_ok (readNumber_append hrun hrest) _
  | false =>
      rw [numberText_of_not_finite hx]
      exact run_bind_of_error (run_readNumber_null rest) _

theorem CountReadsBack.run {n : Nat} (h : CountReadsBack n) :
    ∃ number x, readNumber.run (toString n).toList = .ok ((number, x), []) ∧
      number.count? = some n := by
  unfold CountReadsBack at h
  cases hrun : readNumber.run (toString n).toList with
  | error e =>
      rw [hrun] at h
      cases h
  | ok read =>
      rw [hrun] at h
      rcases read with ⟨⟨number, x⟩, left⟩
      rcases Prod.mk.inj (Except.ok.inj h) with ⟨hcount, rfl⟩
      exact ⟨number, x, rfl, hcount⟩

theorem CountReadsBack.lt {n : Nat} (h : CountReadsBack n) : n < Nat.pow 2 64 := by
  rcases h.run with ⟨number, x, _, hcount⟩
  unfold Number.count? at hcount
  split_ifs at hcount with hall
  cases hcount
  exact hall.2.2

theorem CountReadsBack.reads {n limit : Nat} (h : CountReadsBack n) (hlimit : n < limit) :
    Reads (Shape.count limit).read (toString n).toList (.ok (.count n)) := by
  rcases h.run with ⟨number, x, hrun, hcount⟩
  intro rest hrest
  rw [Shape.read]
  apply run_bind_of_ok (v := n)
  unfold readCount
  rw [run_bind_of_ok (readNumber_append hrun hrest)]
  dsimp only
  rw [hcount]
  dsimp only
  rw [if_pos hlimit]
  rfl

/-! ## Lists -/

/-- What stands before an item, by whether it is the first one of a list. -/
def comma (first : Bool) : List Char :=
  if first then [] else [',']

def separated : Bool → List (List Char) → List Char
  | _, [] => []
  | first, item :: items => comma first ++ (item ++ separated false items)

theorem ends_separated (items : List (List Char)) {rest : List Char} (h : Ends rest) :
    Ends (separated false items ++ rest) := by
  cases items with
  | nil => exact h
  | cons item items => exact Ends.head (Or.inl rfl) _

theorem intercalate_comma (items : List (List Char)) :
    List.intercalate [','] items = separated true items := by
  cases items with
  | nil => rfl
  | cons item items =>
      change _ = item ++ separated false items
      induction items generalizing item with
      | nil => rw [List.intercalate_singleton, separated, List.append_nil]
      | cons next items ih =>
          rw [List.intercalate_cons_cons, ih next, List.append_assoc]
          rfl

theorem run_anotherItem_end (first : Bool) (rest : List Char) :
    (anotherItem first).run (']' :: rest) = .ok (false, ']' :: rest) := by
  cases first <;> rfl

theorem run_anotherItem {item front : List Char} {c : Char}
    (hdrop : item.dropWhile isBlank = c :: front) (hc : c ≠ ']') (first : Bool)
    (rest : List Char) :
    (anotherItem first).run (comma first ++ (item ++ rest)) =
      .ok (true, c :: (front ++ rest)) := by
  have hpeek := run_peekSome (dropWhile_isBlank_append hdrop rest)
  unfold anotherItem
  cases first with
  | true =>
      change (peekSome >>= _).run (item ++ rest) = _
      rw [run_bind_of_ok hpeek, if_neg hc]
      rfl
  | false =>
      change (peekSome >>= _).run (',' :: (item ++ rest)) = _
      rw [run_bind_of_ok (run_peekSome_cons rfl _), if_neg (by decide)]
      dsimp only
      rw [if_neg Bool.false_ne_true, if_neg (not_not.mpr rfl),
        run_bind_of_ok (run_advance _ _), run_bind_of_ok hpeek, if_neg hc]
      rfl

theorem run_numbersWithin {xs : List Float} (h : ∀ x ∈ xs, x.isFinite = true → NumberReadsBack x)
    {fuel : Nat} (hfuel : xs.length < fuel) (first : Bool) (seen : List Float) (rest : List Char) :
    (numbersWithin fuel first seen).run
        (separated first (xs.map fun x => (numberText x).toList) ++ ']' :: rest) =
      (kept (xs.all Float.isFinite) (seen.reverse ++ xs)).map fun ys => (ys, ']' :: rest) := by
  induction xs generalizing fuel first seen with
  | nil =>
      cases fuel with
      | zero => cases hfuel
      | succ fuel =>
          change (anotherItem first >>= _).run (']' :: rest) = _
          rw [run_bind_of_ok (run_anotherItem_end first rest), List.append_nil]
          rfl
  | cons x xs ih =>
      cases fuel with
      | zero => cases hfuel
      | succ fuel =>
          have hends : Ends (separated false (xs.map fun x => (numberText x).toList) ++
              ']' :: rest) := ends_separated _ (Ends.head (by decide) rest)
          rw [List.map_cons, separated, List.append_assoc, List.append_assoc, numbersWithin,
            List.all_cons]
          cases hx : x.isFinite with
          | true =>
              -- The number is looked at before it is read, which takes the blanks before it.
              rcases (h x List.mem_cons_self hx).run with ⟨n, hrun⟩
              rcases readNumber_front hrun with ⟨c, front, hdrop, _, hc, hread⟩
              rw [run_bind_of_ok (run_anotherItem hdrop hc first _), if_pos rfl,
                run_bind_of_ok (hread _ hends), Bool.true_and]
              dsimp only
              rw [ih (fun y hy => h y (List.mem_cons_of_mem x hy)) (Nat.lt_of_succ_lt_succ hfuel)
                false, List.reverse_cons, List.append_assoc]
              rfl
          | false =>
              have hnull : "null".toList.dropWhile isBlank = 'n' :: "ull".toList := rfl
              rw [numberText_of_not_finite hx,
                run_bind_of_ok (run_anotherItem hnull (by decide) first _), if_pos rfl]
              exact run_bind_of_error (run_readNumber_null _) _

theorem length_add_comma_le (first : Bool) (items : List (List Char)) :
    items.length + (comma first).length ≤ (separated first items).length + 1 := by
  induction items generalizing first with
  | nil => cases first <;> decide
  | cons item items ih =>
      have hrest := ih false
      rw [separated, List.length_append, List.length_append, List.length_cons]
      have hcomma : (comma false).length = 1 := rfl
      omega

theorem length_lt_separated (items : List (List Char)) (c : Char) (rest : List Char) :
    items.length < (separated true items ++ c :: rest).length + 1 := by
  have hle := length_add_comma_le true items
  rw [List.length_append, List.length_cons]
  omega

theorem reads_numbers {xs : List Float} (h : ∀ x ∈ xs, x.isFinite = true → NumberReadsBack x) :
    Reads Shape.numbers.read (Value.numbers xs).text.toList
      (kept (xs.all Float.isFinite) (.numbers xs)) := by
  have htext : (Value.numbers xs).text.toList =
      '[' :: (separated true (xs.map fun x => (numberText x).toList) ++ [']']) := by
    rw [Value.text, String.toList_append, String.toList_append, String.toList_intercalate,
      List.map_map, ← intercalate_comma]
    rfl
  rw [Shape.read]
  apply Reads.map
  intro rest _
  rw [htext, List.cons_append, List.append_assoc, List.singleton_append]
  unfold readNumbers
  rw [run_bind_of_ok (run_peekSome_cons rfl _), if_pos rfl, run_bind_of_ok (run_advance _ _),
    run_bind_of_ok (run_get _)]
  have hfuel := length_lt_separated (xs.map fun x => (numberText x).toList) ']' rest
  rw [List.length_map] at hfuel
  have hrun := run_numbersWithin h hfuel true [] rest
  cases hfinite : xs.all Float.isFinite with
  | true =>
      rw [hfinite] at hrun
      exact run_bind_of_ok hrun _
  | false =>
      rw [hfinite] at hrun
      exact run_bind_of_error hrun _

/-! ## Names -/

theorem run_stringWithin {cs : List Char}
    (h : ∀ c ∈ cs, c ≠ '"' ∧ c ≠ '\\' ∧ 0x20 ≤ c.toNat) (rest : List Char)
    {left : List Char} (hleft : cs.length < left.length) (seen : List Char) :
    (stringWithin false left seen).run (cs ++ '"' :: rest) = .ok (cs.reverse ++ seen, rest) := by
  induction cs generalizing left seen with
  | nil =>
      cases left with
      | nil => cases hleft
      | cons d left => rfl
  | cons c cs ih =>
      cases left with
      | nil => cases hleft
      | cons d left =>
          rcases h c List.mem_cons_self with ⟨hquote, hslash, hvisible⟩
          rw [stringWithin, run_bind_of_ok (run_get _)]
          split
          · rename_i heq
            cases heq
          · rename_i heq
            exact absurd (List.head_eq_of_cons_eq heq) hquote
          · rename_i heq
            exact absurd (List.head_eq_of_cons_eq heq) hslash
          · rename_i heq
            cases heq
            rw [if_neg (Nat.not_lt.mpr hvisible)]
            change (stringWithin false left (c :: seen)).run (cs ++ '"' :: rest) = _
            rw [ih (fun e he => h e (List.mem_cons_of_mem c he)) (Nat.lt_of_succ_lt_succ hleft),
              List.reverse_cons, List.append_assoc]
            rfl

theorem IsPlain.run_stringBody {name : String} (h : IsPlain name) (rest : List Char) :
    (stringBody false).run (name.toList ++ '"' :: rest) = .ok (name, rest) := by
  have hlength : name.toList.length < (name.toList ++ '"' :: rest).length := by
    rw [List.length_append, List.length_cons]
    omega
  unfold stringBody
  rw [run_bind_of_ok (run_get _), run_bind_of_ok (run_stringWithin h rest hlength []),
    List.append_nil, List.reverse_reverse, String.ofList_toList]
  rfl

theorem run_nextName?_end (first : Bool) (rest : List Char) :
    (nextName? first).run ('}' :: rest) = .ok (none, '}' :: rest) := by
  cases first <;> rfl

theorem IsPlain.run_nextName? {name : String} (h : IsPlain name) (first : Bool)
    (rest : List Char) :
    (nextName? first).run
        (comma first ++ '"' :: (name.toList ++ '"' :: rest)) =
      .ok (some name, rest) := by
  have hname : (do expect '"'; return some (← stringBody false) : Reader (Option String)).run
      ('"' :: (name.toList ++ '"' :: rest)) = .ok (some name, rest) := by
    rw [run_bind_of_ok (run_expect rfl _), run_bind_of_ok (h.run_stringBody rest)]
    rfl
  cases first with
  | true => exact hname
  | false => exact hname

/-! ## Records -/

def fieldText (field : String × Value) : List Char :=
  '"' :: (field.1.toList ++ '"' :: ':' :: field.2.text.toList)

theorem Fields.texts_eq : ∀ fields : Fields,
    fields.texts.map String.toList = fields.toList.map fieldText
  | .nil => rfl
  | .cons name v rest => by
      rw [Fields.texts, Fields.toList, List.map_cons, List.map_cons, Fields.texts_eq rest,
        String.toList_append, String.toList_append]
      congr 1
      unfold quoted fieldText
      rw [String.toList_append, String.toList_append]
      simp

theorem Fields.ofList_toList : ∀ fields : Fields, Fields.ofList fields.toList = fields
  | .nil => rfl
  | .cons name v rest => by rw [Fields.toList, Fields.ofList, Fields.ofList_toList rest]

theorem Fields.isFinite_eq : ∀ fields : Fields,
    fields.isFinite = fields.toList.all fun field => field.2.isFinite
  | .nil => rfl
  | .cons name v rest => by
      rw [Fields.toList, List.all_cons, ← Fields.isFinite_eq rest]
      exact List.all_append

structure IsRead (readers : List FieldReader) (field : String × Value) : Prop where
  plain : IsPlain field.1
  found : ∃ reader, readers.find? (·.name == field.1) = some reader ∧
    Reads reader.read field.2.text.toList (kept field.2.isFinite field.2)

theorem run_namedWithin {readers : List FieldReader} {fields : List (String × Value)}
    (h : ∀ field ∈ fields, IsRead readers field) (hnodup : (fields.map (·.1)).Nodup) {fuel : Nat}
    (hfuel : fields.length < fuel) (first : Bool) {seen : List (String × Value)}
    (hnew : ∀ field ∈ fields, seen.lookup field.1 = none) (rest : List Char) :
    (namedWithin readers fuel first seen).run
        (separated first (fields.map fieldText) ++ '}' :: rest) =
      (kept (fields.all fun field => field.2.isFinite) (fields.reverse ++ seen)).map
        fun found => (found, '}' :: rest) := by
  induction fields generalizing fuel first seen with
  | nil =>
      cases fuel with
      | zero => cases hfuel
      | succ fuel =>
          change (nextName? first >>= _).run ('}' :: rest) = _
          rw [run_bind_of_ok (run_nextName?_end first rest)]
          rfl
  | cons field fields ih =>
      cases fuel with
      | zero => cases hfuel
      | succ fuel =>
          rcases h field List.mem_cons_self with ⟨hplain, reader, hfind, hreads⟩
          have hends : Ends (separated false (fields.map fieldText) ++ '}' :: rest) :=
            ends_separated _ (Ends.head (by decide) rest)
          rw [List.map_cons, separated, fieldText, List.append_assoc, List.append_assoc,
            List.cons_append, List.append_assoc, List.cons_append, List.cons_append, namedWithin,
            run_bind_of_ok (hplain.run_nextName? first _)]
          dsimp only
          rw [hfind]
          dsimp only
          rw [hnew field List.mem_cons_self, if_neg (by decide),
            run_bind_of_ok (run_expect rfl _), List.all_cons]
          cases hfinite : field.2.isFinite with
          | true =>
              rw [List.map_cons, List.nodup_cons] at hnodup
              have hread := hreads _ hends
              rw [hfinite] at hread
              have hnone : ∀ other ∈ fields,
                  ((field.1, field.2) :: seen).lookup other.1 = none := by
                intro other hother
                have hne : other.1 ≠ field.1 := by
                  intro heq
                  exact hnodup.left (heq ▸ List.mem_map_of_mem hother)
                rw [List.lookup_cons, beq_false_of_ne hne]
                exact hnew other (List.mem_cons_of_mem field hother)
              rw [run_bind_of_ok hread, ih (fun other hother => h other
                (List.mem_cons_of_mem field hother)) hnodup.right (Nat.lt_of_succ_lt_succ hfuel)
                false hnone, Bool.true_and, List.reverse_cons, List.append_assoc]
              rfl
          | false =>
              have hread := hreads _ hends
              rw [hfinite] at hread
              exact run_bind_of_error hread _

theorem run_collect {lenient : Bool} {seen : List (String × Value)} {readers : List FieldReader}
    {fields : List (String × Value)}
    (h : List.Forall₂ (fun reader field => reader.name = field.1 ∧
      seen.lookup field.1 = some field.2) readers fields) (text : List Char) :
    (collect lenient seen readers).run text = .ok (Fields.ofList fields, text) := by
  induction h with
  | nil => rfl
  | @cons reader field readers fields hfield _ ih =>
      rw [collect, hfield.left, hfield.right]
      dsimp only
      rw [run_bind_of_ok ih]
      rfl

theorem lookup_of_mem {fields : List (String × Value)} (hnodup : (fields.map (·.1)).Nodup)
    {field : String × Value} (h : field ∈ fields) : fields.lookup field.1 = some field.2 := by
  induction fields with
  | nil => cases h
  | cons other fields ih =>
      rw [List.map_cons, List.nodup_cons] at hnodup
      rcases List.mem_cons.mp h with rfl | hmem
      · exact List.lookup_cons_self
      · have hne : field.1 ≠ other.1 := by
          intro heq
          exact hnodup.left (heq ▸ List.mem_map_of_mem hmem)
        rw [List.lookup_cons, beq_false_of_ne hne]
        exact ih hnodup.right hmem

abbrev AreRead : List FieldReader → List (String × Value) → Prop :=
  List.Forall₂ fun reader field => reader.name = field.1 ∧ IsPlain field.1 ∧
    Reads reader.read field.2.text.toList (kept field.2.isFinite field.2)

theorem AreRead.isRead {readers : List FieldReader} {fields : List (String × Value)}
    (h : AreRead readers fields) (hnodup : (fields.map (·.1)).Nodup) {field : String × Value}
    (hfield : field ∈ fields) : IsRead readers field := by
  induction h with
  | nil => cases hfield
  | @cons reader other readers fields hfirst _ ih =>
      rcases hfirst with ⟨hname, hplain, hreads⟩
      rw [List.map_cons, List.nodup_cons] at hnodup
      rcases List.mem_cons.mp hfield with rfl | hmem
      · exact ⟨hplain, reader, List.find?_cons_of_pos (beq_iff_eq.mpr hname), hreads⟩
      · rcases ih hnodup.right hmem with ⟨hplain, found, hfind, hreads⟩
        have hne : reader.name ≠ field.1 := by
          rw [hname]
          intro heq
          exact hnodup.left (heq ▸ List.mem_map_of_mem hmem)
        refine ⟨hplain, found, ?_, hreads⟩
        rw [List.find?_cons, beq_false_of_ne hne]
        exact hfind

theorem reads_record (lenient : Bool) {readers : List FieldReader} {fields : Fields}
    (h : AreRead readers fields.toList) (hnodup : (fields.toList.map (·.1)).Nodup) :
    Reads (readRecord lenient readers) (Value.record fields).text.toList
      (kept fields.isFinite fields) := by
  have htext : (Value.record fields).text.toList =
      '{' :: (separated true (fields.toList.map fieldText) ++ ['}']) := by
    rw [Value.text, String.toList_append, String.toList_append, String.toList_intercalate,
      Fields.texts_eq, ← intercalate_comma]
    rfl
  have hseen : List.Forall₂ (fun reader field => reader.name = field.1 ∧
      (fields.toList.reverse ++ []).lookup field.1 = some field.2) readers fields.toList := by
    rcases List.forall₂_iff_zip.mp h with ⟨hlength, hzip⟩
    refine List.forall₂_iff_zip.mpr ⟨hlength, fun {reader field} hmem => ⟨(hzip hmem).left, ?_⟩⟩
    rw [List.append_nil]
    refine lookup_of_mem ?_ (List.mem_reverse.mpr (List.of_mem_zip hmem).2)
    rw [List.map_reverse]
    exact List.nodup_reverse.mpr hnodup
  intro rest _
  have hfuel := length_lt_separated (fields.toList.map fieldText) '}' rest
  rw [List.length_map] at hfuel
  have hnew : ∀ field ∈ fields.toList, ([] : List (String × Value)).lookup field.1 = none :=
    fun _ _ => rfl
  have hrun := run_namedWithin (fun field hfield => h.isRead hnodup hfield) hnodup hfuel true
    hnew rest
  rw [← Fields.isFinite_eq] at hrun
  rw [htext, List.cons_append, List.append_assoc, List.singleton_append]
  unfold readRecord
  rw [run_bind_of_ok (run_peekSome_cons rfl _)]
  change (advance >>= fun _ => _).run ('{' :: _) = _
  rw [run_bind_of_ok (run_advance _ _), run_bind_of_ok (run_get _)]
  cases hfinite : fields.isFinite with
  | true =>
      rw [hfinite] at hrun
      rw [run_bind_of_ok hrun, run_bind_of_ok (run_collect hseen _),
        run_bind_of_ok (run_expect rfl _), Fields.ofList_toList]
      rfl
  | false =>
      rw [hfinite] at hrun
      exact run_bind_of_error hrun _

/-! ## Values -/

theorem reads_flag (b : Bool) : Reads Shape.flag.read (Value.flag b).text.toList
    (.ok (.flag b)) := by
  intro rest _
  cases b <;> rfl

theorem isFinite_number (x : Float) : (Value.number x).isFinite = x.isFinite :=
  Bool.and_true _

theorem ReadBack.of_append {numbers numbers' : List Float} {counts counts' : List Nat}
    (h : ReadBack (numbers ++ numbers') (counts ++ counts')) :
    ReadBack numbers counts ∧ ReadBack numbers' counts' := by
  refine ⟨⟨?_, ?_⟩, ?_, ?_⟩
  · exact fun x hx => h.number x (List.mem_append_left _ hx)
  · exact fun n hn => h.count n (List.mem_append_left _ hn)
  · exact fun x hx => h.number x (List.mem_append_right _ hx)
  · exact fun n hn => h.count n (List.mem_append_right _ hn)

mutual

-- The recursion is on the derivation that the value has the shape.
theorem Shape.Fits.reads {shape : Shape} {v : Value} (h : shape.Fits v)
    (hback : ReadBack v.numbersIn v.countsIn) :
    Reads shape.read v.text.toList (kept v.isFinite v) := by
  cases h with
  | @number x =>
      rw [isFinite_number]
      exact NumberReadsBack.reads (hback.number x List.mem_cons_self)
  | @count limit n hlimit =>
      exact (hback.count n List.mem_cons_self).reads hlimit
  | @flag b => exact reads_flag b
  | @numbers xs => exact reads_numbers hback.number
  | @record lenient shapes fields nodup hfit =>
      rw [Shape.read]
      exact (reads_record lenient (hfit.areRead hback) nodup).map Value.record

theorem FieldShapes.Fit.areRead {shapes : FieldShapes} {fields : Fields} (h : shapes.Fit fields)
    (hback : ReadBack fields.numbersIn fields.countsIn) :
    AreRead shapes.readers fields.toList := by
  cases h with
  | nil => exact .nil
  | @cons name shape shapes v fields plain value rest =>
      rcases hback.of_append with ⟨hvalue, hrest⟩
      exact .cons ⟨rfl, plain, value.reads hvalue⟩ (rest.areRead hrest)

end

/-- The text of a value holds the value, if all numbers in it are finite, and no value of the shape
otherwise. -/
theorem Shape.Fits.parse {shape : Shape} {v : Value} (h : shape.Fits v)
    (hback : ReadBack v.numbersIn v.countsIn) : shape.parse v.text = kept v.isFinite v := by
  have hrun := h.reads hback [] ends_nil
  rw [List.append_nil] at hrun
  unfold Shape.parse
  rw [hrun]
  cases v.isFinite <;> rfl

end Json
end SoftMargin
