import Mathlib.Data.List.Basic
import SoftMargin.Proofs.Ldl.Access
import SoftMargin.Json.Shape

/-!
# Reading numbers inside a text

A number that is read to the end of a text is read in the same way where more of
the text follows, if what follows is the end of a list or of an object or the
comma before the next item.
-/

namespace SoftMargin
namespace Json

open Ldl

variable {β γ : Type}

/-- What may follow a value: nothing, or a character that ends it. -/
def Ends (rest : List Char) : Prop :=
  ∀ c ∈ rest.head?, c = ',' ∨ c = ']' ∨ c = '}'

theorem ends_nil : Ends [] := by
  intro c hc
  cases hc

theorem Ends.head {c : Char} (hc : c = ',' ∨ c = ']' ∨ c = '}') (rest : List Char) :
    Ends (c :: rest) := by
  intro d hd
  cases hd
  exact hc

theorem Ends.takeWhile_isDigit {rest : List Char} (h : Ends rest) :
    rest.takeWhile isDigit = [] := by
  cases rest with
  | nil => rfl
  | cons c rest =>
      apply List.takeWhile_cons_of_neg
      rcases h c rfl with rfl | rfl | rfl <;> decide

theorem Ends.dropWhile_isDigit {rest : List Char} (h : Ends rest) :
    rest.dropWhile isDigit = rest := by
  have hsplit := List.takeWhile_append_dropWhile (p := isDigit) (l := rest)
  rwa [h.takeWhile_isDigit, List.nil_append] at hsplit

theorem Ends.head?_append {rest : List Char} (h : Ends rest) {c : Char}
    (hc : c ≠ ',' ∧ c ≠ ']' ∧ c ≠ '}') {text : List Char}
    (hhead : (text ++ rest).head? = some c) : text.head? = some c := by
  cases text with
  | nil =>
      exfalso
      rcases h c hhead with hend | hend | hend
      · exact hc.1 hend
      · exact hc.2.1 hend
      · exact hc.2.2 hend
  | cons d text => exact hhead

/-! ## Running -/

theorem run_bind_eq_ok {r : Reader β} {f : β → Reader γ} {text left : List Char} {w : γ} :
    (r >>= f).run text = .ok (w, left) ↔
      ∃ v mid, r.run text = .ok (v, mid) ∧ (f v).run mid = .ok (w, left) := by
  rw [StateT.run_bind, bind_eq_ok]
  constructor
  · rintro ⟨⟨v, mid⟩, hr, hf⟩
    exact ⟨v, mid, hr, hf⟩
  · rintro ⟨v, mid, hr, hf⟩
    exact ⟨(v, mid), hr, hf⟩

theorem run_bind_of_ok {r : Reader β} {text mid : List Char} {v : β}
    (h : r.run text = .ok (v, mid)) (f : β → Reader γ) :
    (r >>= f).run text = (f v).run mid := by
  rw [StateT.run_bind, h]
  rfl

theorem run_bind_of_error {r : Reader β} {text : List Char} {e : ReadError}
    (h : r.run text = .error e) (f : β → Reader γ) : (r >>= f).run text = .error e := by
  rw [StateT.run_bind, h]
  rfl

theorem run_get (text : List Char) : (get : Reader (List Char)).run text = .ok (text, text) :=
  rfl

theorem run_advance (c : Char) (rest : List Char) : advance.run (c :: rest) = .ok ((), rest) :=
  rfl

theorem run_peekSome {text rest : List Char} {c : Char}
    (h : text.dropWhile isBlank = c :: rest) : peekSome.run text = .ok (c, c :: rest) := by
  unfold peekSome peek
  simp [h]

theorem run_peekSome_of_blank {text : List Char} (h : text.dropWhile isBlank = []) :
    peekSome.run text = .error .truncated := by
  unfold peekSome peek
  simp [h]
  rfl

theorem run_peekSome_cons {c : Char} (hc : isBlank c = false) (rest : List Char) :
    peekSome.run (c :: rest) = .ok (c, c :: rest) :=
  run_peekSome (List.dropWhile_cons_of_neg (by rw [hc]; exact Bool.false_ne_true))

theorem run_expect {c : Char} (hc : isBlank c = false) (rest : List Char) :
    (expect c).run (c :: rest) = .ok ((), rest) := by
  unfold expect
  rw [run_bind_of_ok (run_peekSome_cons hc rest), if_pos rfl]
  rfl

/-!
## Readers of numbers
-/

/-- A reader that finds the same where the text goes on. -/
def Continues (r : Reader β) : Prop :=
  ∀ text v left, r.run text = .ok (v, left) → ∀ rest, Ends rest →
    r.run (text ++ rest) = .ok (v, left ++ rest)

theorem continues_pure (v : β) : Continues (pure v) := by
  intro text w left h rest _
  cases h
  rfl

theorem continues_throw (e : ReadError) : Continues (throw e : Reader β) := by
  intro text w left h
  cases h

theorem Continues.bind {r : Reader β} {f : β → Reader γ} (hr : Continues r)
    (hf : ∀ v, Continues (f v)) : Continues (r >>= f) := by
  intro text w left h rest hrest
  rcases run_bind_eq_ok.mp h with ⟨v, mid, hv, hw⟩
  rw [run_bind_of_ok (hr text v mid hv rest hrest)]
  exact hf v mid w left hw rest hrest

theorem run_someDigits (ending : ReadError) (text : List Char) :
    (someDigits ending).run text =
      if (text.takeWhile isDigit).isEmpty then
        .error (if (text.dropWhile isDigit).isEmpty then ending else .malformed)
      else
        .ok (text.takeWhile isDigit, text.dropWhile isDigit) := by
  unfold someDigits
  rw [run_bind_of_ok (run_get _), List.span_eq_takeWhile_dropWhile]
  dsimp only
  by_cases h : (text.takeWhile isDigit).isEmpty = true
  · rw [if_pos h, if_pos h]
    rfl
  · rw [if_neg h, if_neg h]
    rfl

theorem continues_someDigits (ending : ReadError) : Continues (someDigits ending) := by
  intro text digits left h rest hrest
  rw [run_someDigits] at h ⊢
  have htake : (text ++ rest).takeWhile isDigit = text.takeWhile isDigit := by
    rw [List.takeWhile_append, hrest.takeWhile_isDigit, List.append_nil]
    split_ifs with hall
    · exact ((List.takeWhile_sublist _).eq_of_length hall).symm
    · rfl
  have hdrop : (text ++ rest).dropWhile isDigit = text.dropWhile isDigit ++ rest := by
    rw [List.dropWhile_append, hrest.dropWhile_isDigit]
    split_ifs with hall
    · rw [List.isEmpty_iff.mp hall, List.nil_append]
    · rfl
  rw [htake, hdrop]
  split_ifs at h ⊢
  · cases h
    rfl

theorem continues_wholeDigits (ending : ReadError) : Continues (wholeDigits ending) := by
  refine (continues_someDigits ending).bind fun digits => ?_
  split
  · exact continues_throw _
  · exact continues_pure _

theorem run_fractionDigits_of_ne {text : List Char} (ending : ReadError)
    (h : text.head? ≠ some '.') : (fractionDigits ending).run text = .ok (none, text) := by
  unfold fractionDigits
  rw [run_bind_of_ok (run_get _)]
  split
  · exact absurd rfl h
  · rfl

theorem continues_fractionDigits (ending : ReadError) : Continues (fractionDigits ending) := by
  intro text fraction left h rest hrest
  by_cases hpoint : text.head? = some '.'
  · cases text with
    | nil => cases hpoint
    | cons c text =>
        cases hpoint
        exact (continues_someDigits ending).bind (fun _ => continues_pure _) text fraction left h
          rest hrest
  · rw [run_fractionDigits_of_ne ending hpoint] at h
    cases h
    exact run_fractionDigits_of_ne ending fun h => hpoint (hrest.head?_append (by decide) h)

theorem run_exponentPart_of_ne {text : List Char} (ending : ReadError)
    (hsmall : text.head? ≠ some 'e') (hlarge : text.head? ≠ some 'E') :
    (exponentPart ending).run text = .ok (none, text) := by
  cases text with
  | nil => rfl
  | cons c text =>
      have hc : ¬(c = 'e' ∨ c = 'E') := by
        rintro (rfl | rfl)
        · exact hsmall rfl
        · exact hlarge rfl
      unfold exponentPart
      rw [run_bind_of_ok (run_get _)]
      dsimp only
      rw [if_neg hc]
      rfl

def exponentDigits (ending : ReadError) (negative : Bool) : Reader (Option Int) := do
  let value := digitsValue (← someDigits ending)
  return some (if negative then -(value : Int) else value)

theorem continues_exponentDigits (ending : ReadError) (negative : Bool) :
    Continues (exponentDigits ending negative) :=
  (continues_someDigits ending).bind fun _ => continues_pure _

theorem run_exponentPart {c : Char} (hc : c = 'e' ∨ c = 'E') (ending : ReadError) (d : Char)
    (text : List Char) : ∃ negative digits, ∀ rest,
      (exponentPart ending).run (c :: d :: (text ++ rest)) =
        (exponentDigits ending negative).run (digits ++ rest) := by
  by_cases hplus : d = '+'
  · refine ⟨false, text, fun rest => ?_⟩
    rcases hc with rfl | rfl <;> rw [hplus] <;> rfl
  · by_cases hminus : d = '-'
    · refine ⟨true, text, fun rest => ?_⟩
      rcases hc with rfl | rfl <;> rw [hminus] <;> rfl
    · refine ⟨false, d :: text, fun rest => ?_⟩
      unfold exponentPart
      rw [run_bind_of_ok (run_get _)]
      dsimp only
      rw [if_pos hc]
      split
      · rename_i heq
        exact absurd (List.head_eq_of_cons_eq heq) hplus
      · rename_i heq
        exact absurd (List.head_eq_of_cons_eq heq) hminus
      · rfl

theorem continues_exponentPart (ending : ReadError) : Continues (exponentPart ending) := by
  intro text exponent left h rest hrest
  by_cases hmark : text.head? = some 'e' ∨ text.head? = some 'E'
  · cases text with
    | nil => rcases hmark with hmark | hmark <;> cases hmark
    | cons c text =>
        have hc : c = 'e' ∨ c = 'E' := hmark.imp Option.some.inj Option.some.inj
        -- A mark that ends the text is an error, so the sign is always part of the text.
        cases text with
        | nil => rcases hc with rfl | rfl <;> cases h
        | cons d text =>
            rcases run_exponentPart hc ending d text with ⟨negative, digits, hrun⟩
            have hdigits := hrun []
            rw [List.append_nil, List.append_nil, h] at hdigits
            exact (hrun rest).trans (continues_exponentDigits ending negative digits exponent left
              hdigits.symm rest hrest)
  · rw [not_or] at hmark
    rw [run_exponentPart_of_ne ending hmark.left hmark.right] at h
    cases h
    exact run_exponentPart_of_ne ending
      (fun h => hmark.left (hrest.head?_append (by decide) h))
      (fun h => hmark.right (hrest.head?_append (by decide) h))

theorem continues_numberBody (ending : ReadError) (negative : Bool) :
    Continues (numberBody ending negative) :=
  (continues_wholeDigits ending).bind fun _ =>
    (continues_fractionDigits ending).bind fun _ =>
      (continues_exponentPart ending).bind fun _ => continues_pure _

theorem Continues.finiteNumber {read : Reader Number} (h : Continues read) :
    Continues (finiteNumber read) := by
  refine h.bind fun n => ?_
  split
  · exact continues_pure _
  · exact continues_throw _

def Fails (r : Reader β) : Prop :=
  ∀ text v, r.run text ≠ .ok v

theorem fails_throw (e : ReadError) : Fails (throw e : Reader β) := by
  intro text v h
  cases h

theorem Fails.bind {f : β → Reader γ} (h : ∀ v, Fails (f v)) (r : Reader β) :
    Fails (r >>= f) := by
  intro text w hw
  rcases run_bind_eq_ok.mp hw with ⟨v, mid, _, hv⟩
  exact h v mid w hv

theorem fails_refuse : Fails (refuse : Reader β) := by
  refine Fails.bind (fun c => ?_) peekSome
  split
  · exact fails_throw _
  · exact fails_throw _
  · exact Fails.bind (fun _ => Fails.bind (fun _ => fails_throw _) _) _
  · exact Fails.bind (fun _ => fails_throw _) _
  · exact Fails.bind (fun _ => fails_throw _) _
  · exact Fails.bind (fun _ => fails_throw _) _
  · split
    · exact Fails.bind (fun _ => fails_throw _) _
    · exact fails_throw _

/-!
## Numbers
-/

theorem number?_cases (ending : ReadError) (c : Char) :
    (c = '-' ∧ number? ending c = some (do advance; numberBody ending true)) ∨
    (isDigit c = true ∧ number? ending c = some (numberBody ending false)) ∨
    number? ending c = none := by
  unfold number?
  split_ifs with hminus hdigit
  · exact Or.inl ⟨hminus, rfl⟩
  · exact Or.inr (Or.inl ⟨hdigit, rfl⟩)
  · exact Or.inr (Or.inr rfl)

theorem isBlank_of_isDigit {c : Char} (h : isDigit c = true) : isBlank c = false := by
  cases hblank : isBlank c with
  | false => rfl
  | true =>
      unfold isBlank at hblank
      simp only [Bool.or_eq_true, beq_iff_eq] at hblank
      rcases hblank with ((rfl | rfl) | rfl) | rfl <;> cases h

theorem run_readNumber {c : Char} {read : Reader Number} (hblank : isBlank c = false)
    (hread : number? .truncated c = some read) (rest : List Char) :
    readNumber.run (c :: rest) = (finiteNumber read).run (c :: rest) := by
  unfold readNumber
  rw [run_bind_of_ok (run_peekSome_cons hblank rest), hread]

/-- A number that ends a text is also read where the text goes on, from its first character that is
not blank. -/
theorem readNumber_front {text : List Char} {r : Number × Float}
    (h : readNumber.run text = .ok (r, [])) : ∃ c front, text.dropWhile isBlank = c :: front ∧
      isBlank c = false ∧ c ≠ ']' ∧
      ∀ rest, Ends rest → readNumber.run (c :: (front ++ rest)) = .ok (r, rest) := by
  unfold readNumber at h
  rcases run_bind_eq_ok.mp h with ⟨c, mid, hpeek, h⟩
  cases hdrop : text.dropWhile isBlank with
  | nil =>
      rw [run_peekSome_of_blank hdrop] at hpeek
      cases hpeek
  | cons d front =>
      rw [run_peekSome hdrop] at hpeek
      cases hpeek
      refine ⟨c, front, rfl, ?_⟩
      rcases number?_cases .truncated c with ⟨rfl, hread⟩ | ⟨hdigit, hread⟩ | hnone
      · refine ⟨rfl, by decide, fun rest hrest => ?_⟩
        rw [run_readNumber rfl hread]
        rw [hread] at h
        exact (continues_numberBody .truncated true).finiteNumber front r [] h rest hrest
      · have hblank := isBlank_of_isDigit hdigit
        refine ⟨hblank, ?_, fun rest hrest => ?_⟩
        · rintro rfl
          cases hdigit
        · rw [run_readNumber hblank hread]
          rw [hread] at h
          exact (continues_numberBody .truncated false).finiteNumber (c :: front) r [] h rest hrest
      · rw [hnone] at h
        exact absurd h (fails_refuse _ _)

theorem dropWhile_isBlank_append {text front : List Char} {c : Char}
    (h : text.dropWhile isBlank = c :: front) (rest : List Char) :
    (text ++ rest).dropWhile isBlank = c :: (front ++ rest) := by
  rw [List.dropWhile_append, h]
  rfl

theorem readNumber_append {text : List Char} {r : Number × Float}
    (h : readNumber.run text = .ok (r, [])) {rest : List Char} (hrest : Ends rest) :
    readNumber.run (text ++ rest) = .ok (r, rest) := by
  rcases readNumber_front h with ⟨c, front, hdrop, hblank, _, hrun⟩
  rw [← hrun rest hrest]
  unfold readNumber
  rw [run_bind_of_ok (run_peekSome (dropWhile_isBlank_append hdrop rest)),
    run_bind_of_ok (run_peekSome_cons hblank (front ++ rest))]

end Json
end SoftMargin
