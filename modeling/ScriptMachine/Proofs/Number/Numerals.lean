import ScriptMachine.Number.Reading
import ScriptMachine.Proofs.Expression.Lexing
import ScriptMachine.Proofs.Text.Digits

set_option autoImplicit false

namespace ScriptMachine

namespace Number

open Lexer (StopsAt takeWhile_stop)

inductive Sign where
  | plus
  | minus
  deriving DecidableEq

def signText : Option Sign → Text
  | none => []
  | some .plus => [Text.byte '+']
  | some .minus => [Text.byte '-']

def exponentMark (capital : Bool) : UInt8 := if capital then Text.byte 'E' else Text.byte 'e'

structure Exponent where
  capital : Bool
  sign : Option Sign
  digits : Text
  onlyDigits : Text.Digits digits
  someDigit : digits ≠ []

def exponentText : Option Exponent → Text
  | none => []
  | some e => exponentMark e.capital :: (signText e.sign ++ e.digits)

def exponentValue : Option Exponent → Int
  | none => 0
  | some e =>
    if e.sign = some .minus then -(Text.natValue e.digits : Int) else Text.natValue e.digits

/-- The fraction is there if there is a point, and holds the digits after it. -/
structure Decimal where
  sign : Option Sign
  whole : Text
  fraction : Option Text
  exponent : Option Exponent
  wholeDigits : Text.Digits whole
  fractionDigits : ∀ ds ∈ fraction, Text.Digits ds
  someDigit : whole ≠ [] ∨ ∃ ds ∈ fraction, ds ≠ []

def fractionText : Option Text → Text
  | none => []
  | some ds => Text.byte '.' :: ds

namespace Decimal

/-- The decimal without its sign. -/
def magnitude (d : Decimal) : Text := d.whole ++ (fractionText d.fraction ++ exponentText d.exponent)

def text (d : Decimal) : Text := signText d.sign ++ d.magnitude

/-- What the decimal stands for. -/
def scientific (d : Decimal) : Scientific :=
  let fraction := d.fraction.getD []
  ⟨d.sign = some .minus, Text.natValue (d.whole ++ fraction), exponentValue d.exponent - fraction.length⟩

end Decimal

variable {b : UInt8} {t : Text}

theorem digit_classes (h : Text.isDigit b = true) :
    isPoint b = false ∧ isExponentMark b = false ∧ isSign b = false ∧ suffixOf b = .none := by
  obtain ⟨d, hd, rfl⟩ := Text.exists_digitByte h
  have hall : ∀ d < 10, isPoint (Text.digitByte d) = false ∧ isExponentMark (Text.digitByte d) = false ∧
      isSign (Text.digitByte d) = false ∧ suffixOf (Text.digitByte d) = .none := by decide
  exact hall d hd

theorem exponentMark_classes (capital : Bool) :
    isExponentMark (exponentMark capital) = true ∧ Text.isDigit (exponentMark capital) = false ∧
      isPoint (exponentMark capital) = false ∧ isSign (exponentMark capital) = false ∧
      suffixOf (exponentMark capital) = .none := by
  cases capital <;> decide

theorem eq_of_isExponentMark (h : isExponentMark b = true) : ∃ capital, b = exponentMark capital := by
  rcases Bool.or_eq_true_iff.1 h with hb | hb
  · exact ⟨false, beq_iff_eq.1 hb⟩
  · exact ⟨true, beq_iff_eq.1 hb⟩

theorem eq_of_isSign (h : isSign b = true) : ∃ s : Sign, signText s = [b] := by
  rcases Bool.or_eq_true_iff.1 h with hb | hb
  · exact ⟨.plus, by rw [beq_iff_eq.1 hb]; rfl⟩
  · exact ⟨.minus, by rw [beq_iff_eq.1 hb]; rfl⟩

theorem stopsAt_nil {p : UInt8 → Bool} : StopsAt p [] := nofun

theorem stopsAt_cons {p : UInt8 → Bool} (h : p b = false) : StopsAt p (b :: t) := by
  rintro _ ⟨⟩
  exact h

theorem stopsAt_isSign {ds : Text} (hds : Text.Digits ds) (h : StopsAt isSign t) :
    StopsAt isSign (ds ++ t) := by
  cases ds with
  | nil => exact h
  | cons d ds => exact stopsAt_cons (digit_classes (hds d List.mem_cons_self)).2.2.1

theorem exponentText_stops (e : Option Exponent) :
    StopsAt Text.isDigit (exponentText e) ∧ StopsAt isSign (exponentText e) := by
  cases e with
  | none => exact ⟨stopsAt_nil, stopsAt_nil⟩
  | some e =>
    obtain ⟨-, hdigit, -, hsign, -⟩ := exponentMark_classes e.capital
    exact ⟨stopsAt_cons hdigit, stopsAt_cons hsign⟩

theorem fractionText_stops (f : Option Text) (e : Option Exponent) :
    StopsAt Text.isDigit (fractionText f ++ exponentText e) ∧
      StopsAt isSign (fractionText f ++ exponentText e) := by
  cases f with
  | none => exact exponentText_stops e
  | some ds => exact ⟨stopsAt_cons (by decide), stopsAt_cons (by decide)⟩

theorem span_digits {ds : Text} (hds : Text.Digits ds) (h : StopsAt Text.isDigit t) :
    (ds ++ t).takeWhile Text.isDigit = ds ∧ (ds ++ t).dropWhile Text.isDigit = t := by
  have htake := takeWhile_stop hds h
  refine ⟨htake, ?_⟩
  have hsplit := List.takeWhile_append_dropWhile (p := Text.isDigit) (l := ds ++ t)
  rw [htake] at hsplit
  exact List.append_cancel_left hsplit

theorem splitSign_signText {s : Option Sign} (h : StopsAt isSign t) :
    splitSign (signText s ++ t) = (decide (s = some .minus), t) := by
  rcases s with _ | _ | _
  · cases t with
    | nil => rfl
    | cons b rest => exact if_neg (Bool.eq_false_iff.1 (h b rfl))
  · rfl
  · rfl

theorem exists_sign (t : Text) : ∃ s, signText s ++ (splitSign t).2 = t := by
  cases t with
  | nil => exact ⟨none, rfl⟩
  | cons b rest =>
    by_cases hb : isSign b = true
    · obtain ⟨s, hs⟩ := eq_of_isSign hb
      exact ⟨some s, by rw [hs, splitSign, if_pos hb]; rfl⟩
    · exact ⟨none, by rw [splitSign, if_neg hb]; rfl⟩

theorem readExponent_text (e : Option Exponent) :
    readExponent (exponentText e) = some (exponentValue e) := by
  cases e with
  | none => rfl
  | some e =>
    have hsign : splitSign (signText e.sign ++ e.digits) = (decide (e.sign = some .minus), e.digits) :=
      splitSign_signText (List.append_nil e.digits ▸ stopsAt_isSign e.onlyDigits stopsAt_nil)
    have hdigits : e.digits.all Text.isDigit = true := List.all_eq_true.2 e.onlyDigits
    have hsome : (!e.digits.isEmpty) = true := by simpa using e.someDigit
    simp only [exponentText, readExponent, hsign, exponentMark_classes, hdigits, hsome, Bool.and_self,
      if_true, exponentValue, decide_eq_true_eq]

theorem exists_exponent {v : Int} (h : readExponent t = some v) : ∃ e, exponentText e = t := by
  cases t with
  | nil => exact ⟨none, rfl⟩
  | cons b rest =>
    dsimp only [readExponent] at h
    by_cases hread : (isExponentMark b && !(splitSign rest).2.isEmpty &&
        (splitSign rest).2.all Text.isDigit) = true
    · obtain ⟨⟨hmark, hsome⟩, hdigits⟩ :
          (isExponentMark b = true ∧ (splitSign rest).2 ≠ []) ∧ Text.Digits (splitSign rest).2 := by
        simpa [Text.Digits] using hread
      obtain ⟨capital, rfl⟩ := eq_of_isExponentMark hmark
      obtain ⟨s, hs⟩ := exists_sign rest
      exact ⟨some ⟨capital, s, _, hdigits, hsome⟩, congrArg _ hs⟩
    · rw [if_neg hread] at h
      cases h

def splitFraction (t : Text) : Text × Text :=
  match t with
  | b :: more => if isPoint b then (more.takeWhile Text.isDigit, more.dropWhile Text.isDigit) else ([], t)
  | [] => ([], [])

theorem splitFraction_text {f : Option Text} (hf : ∀ ds ∈ f, Text.Digits ds) (e : Option Exponent) :
    splitFraction (fractionText f ++ exponentText e) = (f.getD [], exponentText e) := by
  cases f with
  | none =>
    cases e with
    | none => rfl
    | some e => exact if_neg (Bool.eq_false_iff.1 (exponentMark_classes e.capital).2.2.1)
  | some ds =>
    obtain ⟨htake, hdrop⟩ := span_digits (hf ds rfl) (exponentText_stops e).1
    change ((ds ++ exponentText e).takeWhile _, (ds ++ exponentText e).dropWhile _) = _
    rw [htake, hdrop]
    rfl

theorem exists_fraction (t : Text) :
    ∃ f : Option Text, (∀ ds ∈ f, Text.Digits ds) ∧ f.getD [] = (splitFraction t).1 ∧
      fractionText f ++ (splitFraction t).2 = t := by
  cases t with
  | nil => exact ⟨none, nofun, rfl, rfl⟩
  | cons b more =>
    by_cases hb : isPoint b = true
    · refine ⟨some (more.takeWhile Text.isDigit), ?_, ?_, ?_⟩
      · rintro _ ⟨⟩
        exact Text.digits_takeWhile more
      · rw [splitFraction, if_pos hb]
        rfl
      · rw [splitFraction, if_pos hb, beq_iff_eq.1 hb]
        exact congrArg _ (List.takeWhile_append_dropWhile ..)
    · refine ⟨none, nofun, ?_, ?_⟩ <;> rw [splitFraction, if_neg hb] <;> rfl

theorem readScientific_eq (t : Text) :
    readScientific t =
      let magnitude := (splitSign t).2
      let whole := magnitude.takeWhile Text.isDigit
      let fraction := splitFraction (magnitude.dropWhile Text.isDigit)
      if whole = [] ∧ fraction.1 = [] then none
      else (readExponent fraction.2).map fun e =>
        ⟨(splitSign t).1, Text.natValue (whole ++ fraction.1), e - fraction.1.length⟩ := by
  obtain ⟨⟨negative, magnitude⟩, hsign⟩ : ∃ p, splitSign t = p := ⟨_, rfl⟩
  have hend : ∀ (whole : Text) (fraction : Text × Text),
      (if (whole.isEmpty && fraction.1.isEmpty) = true then none
        else readExponent fraction.2 >>= fun e => some (Scientific.mk negative
          (Text.natValue (whole ++ fraction.1)) (e - fraction.1.length))) =
      if whole = [] ∧ fraction.1 = [] then none
      else (readExponent fraction.2).map fun e =>
        ⟨negative, Text.natValue (whole ++ fraction.1), e - fraction.1.length⟩ := by
    intro whole fraction
    simp only [Bool.and_eq_true, List.isEmpty_iff]
    cases readExponent fraction.2 <;> rfl
  unfold readScientific
  rw [hsign]
  dsimp only
  rw [← hend]
  cases magnitude.dropWhile Text.isDigit with
  | nil => rfl
  | cons b more =>
    dsimp only [splitFraction]
    split <;> rfl

theorem Decimal.splitSign_text (d : Decimal) :
    splitSign d.text = (decide (d.sign = some .minus), d.magnitude) :=
  splitSign_signText (stopsAt_isSign d.wholeDigits (fractionText_stops d.fraction d.exponent).2)

theorem Decimal.readScientific_text (d : Decimal) : readScientific d.text = some d.scientific := by
  obtain ⟨htake, hdrop⟩ := span_digits d.wholeDigits (fractionText_stops d.fraction d.exponent).1
  have hsome : ¬(d.whole = [] ∧ d.fraction.getD [] = []) := by
    rintro ⟨hwhole, hfraction⟩
    rcases d.someDigit with h | ⟨ds, hds, h⟩
    · exact h hwhole
    · rw [hds] at hfraction
      exact h hfraction
  rw [readScientific_eq, splitSign_text]
  dsimp only [magnitude]
  rw [htake, hdrop, splitFraction_text d.fractionDigits, if_neg hsome, readExponent_text]
  rfl

theorem exists_decimal {s : Scientific} (h : readScientific t = some s) : ∃ d : Decimal, d.text = t := by
  obtain ⟨sign, hsign⟩ := exists_sign t
  obtain ⟨f, hf, hdigits, hfraction⟩ := exists_fraction ((splitSign t).2.dropWhile Text.isDigit)
  rw [readScientific_eq] at h
  dsimp only at h
  rw [← hdigits] at h
  split_ifs at h with hnone
  obtain ⟨v, hv, -⟩ := Option.map_eq_some_iff.1 h
  obtain ⟨e, he⟩ := exists_exponent hv
  have hsome : (splitSign t).2.takeWhile Text.isDigit ≠ [] ∨ ∃ ds ∈ f, ds ≠ [] := by
    rcases not_and_or.1 hnone with hwhole | hpart
    · exact .inl hwhole
    · cases f with
      | none => exact absurd rfl hpart
      | some ds => exact .inr ⟨ds, rfl, hpart⟩
  refine ⟨⟨sign, _, f, e, Text.digits_takeWhile _, hf, hsome⟩, ?_⟩
  change signText sign ++ (_ ++ (fractionText f ++ exponentText e)) = t
  rw [he, hfraction, List.takeWhile_append_dropWhile, hsign]

end Number

end ScriptMachine
