import ScriptMachine.Proofs.Number.Clamping
import ScriptMachine.Proofs.Number.Numerals
import Mathlib.Data.List.Basic

set_option autoImplicit false

/-!
# Texts that read as numbers

A number is written as a decimal and a letter for its representation, or none, with underscores anywhere.
Main statement: `parse_grammar` says which texts read as numbers, and what the integers among them read as.
-/
namespace ScriptMachine

namespace Number

variable {b : UInt8} {t : Text} {σ : Suffix}

def Suffix.text : Suffix → Text
  | .none => []
  | .unsigned => [Text.byte 'u']
  | .signed => [Text.byte 'i']
  | .double => [Text.byte 'f']

/-- A text without its underscores. -/
def bare (t : Text) : Text := t.filter (· != Text.byte '_')

namespace Decimal

/-- Whether there is neither a point nor an exponent. -/
def isPlain (d : Decimal) : Bool := d.fraction.isNone && d.exponent.isNone

/-- The integer that a decimal without point and exponent denotes. -/
def integer (d : Decimal) : Int :=
  if d.sign = some .minus then -(Text.natValue d.whole : Int) else Text.natValue d.whole

/-- The double nearest to the decimal. -/
def double (d : Decimal) : Binary64 := d.scientific.toFloat

/-- Whether the decimal can be a number of the representation that a suffix asks for. -/
def Admits (d : Decimal) (σ : Suffix) : Prop :=
  σ = .unsigned →
    if d.isPlain then d.sign ≠ some .minus ∧ d.integer < 2 ^ 64 else d.double.isNegative = false

end Decimal

theorem text_suffixOf (h : suffixOf b ≠ .none) : (suffixOf b).text = [b] := by
  unfold suffixOf at h ⊢
  split_ifs at h ⊢ with hu hi hf
  · rw [beq_iff_eq.1 hu]
    rfl
  · rw [beq_iff_eq.1 hi]
    rfl
  · rw [beq_iff_eq.1 hf]
    rfl
  · exact absurd rfl h

theorem splitSuffix_append (t : Text) : (splitSuffix t).1 ++ (splitSuffix t).2.text = t := by
  unfold splitSuffix
  cases hlast : t.getLast? with
  | none => exact List.append_nil t
  | some b =>
    dsimp only
    split_ifs with h
    · rw [text_suffixOf h.1]
      exact List.dropLast_append_getLast? b hlast
    · exact List.append_nil t

theorem splitSuffix_text (hne : t ≠ []) (ht : ∀ b ∈ t, suffixOf b = .none) (σ : Suffix) :
    splitSuffix (t ++ σ.text) = (t, σ) := by
  have hpos := List.length_pos_iff.2 hne
  have hletter : ∀ b, suffixOf b ≠ .none → splitSuffix (t ++ [b]) = (t, suffixOf b) := by
    intro b hb
    have hlength : 1 < (t ++ [b]).length := by
      rw [List.length_append, List.length_singleton]
      omega
    unfold splitSuffix
    rw [List.getLast?_concat]
    dsimp only
    rw [if_pos ⟨hb, hlength⟩, List.dropLast_concat]
  cases σ with
  | none =>
    rw [Suffix.text, List.append_nil]
    unfold splitSuffix
    cases hlast : t.getLast? with
    | none => rfl
    | some b =>
      have hb := ht b (List.mem_of_getLast? hlast)
      exact if_neg fun h => h.1 hb
  | unsigned => exact hletter (Text.byte 'u') (by decide)
  | signed => exact hletter (Text.byte 'i') (by decide)
  | double => exact hletter (Text.byte 'f') (by decide)

theorem suffixOf_of_shape {signAllowed : Bool} (h : (Text.isDigit b || isPoint b || isExponentMark b ||
    (signAllowed && isSign b)) = true) : suffixOf b = .none := by
  simp only [Bool.or_eq_true, Bool.and_eq_true] at h
  obtain ((hdigit | hpoint) | hmark) | ⟨-, hsign⟩ := h
  · exact (digit_classes hdigit).2.2.2
  · rw [beq_iff_eq.1 hpoint]
    rfl
  · obtain ⟨capital, rfl⟩ := eq_of_isExponentMark hmark
    exact (exponentMark_classes capital).2.2.2.2
  · obtain ⟨s, hs⟩ := eq_of_isSign hsign
    cases s <;> cases hs <;> rfl

theorem suffixOf_of_hasNumberShape {signAllowed : Bool} (h : hasNumberShape signAllowed t = true) :
    ∀ b ∈ t, suffixOf b = .none := by
  induction t generalizing signAllowed with
  | nil => exact nofun
  | cons c t ih =>
    rw [hasNumberShape, Bool.and_eq_true] at h
    rintro b (_ | ⟨_, hb⟩)
    · exact suffixOf_of_shape h.1
    · exact ih h.2 b hb

theorem hasNumberShape_mono {signAllowed : Bool} (h : hasNumberShape false t = true) :
    hasNumberShape signAllowed t = true := by
  cases t with
  | nil => rfl
  | cons b rest =>
    rw [hasNumberShape, Bool.and_eq_true, Bool.false_and, Bool.or_false] at h
    rw [hasNumberShape, h.1, h.2]
    rfl

theorem hasNumberShape_digits {ds : Text} {signAllowed : Bool} (hds : Text.Digits ds)
    (h : hasNumberShape false t = true) : hasNumberShape signAllowed (ds ++ t) = true := by
  induction ds generalizing signAllowed with
  | nil => exact hasNumberShape_mono h
  | cons d ds ih =>
    have hd := hds d List.mem_cons_self
    rw [List.cons_append, hasNumberShape, hd, (digit_classes hd).2.1]
    exact ih fun b hb => hds b (List.mem_cons_of_mem d hb)

theorem hasNumberShape_sign (s : Option Sign) (h : hasNumberShape false t = true) :
    hasNumberShape true (signText s ++ t) = true := by
  rcases s with _ | _ | _
  · exact hasNumberShape_mono h
  · exact h
  · exact h

theorem hasNumberShape_exponent (e : Option Exponent) : hasNumberShape false (exponentText e) = true := by
  cases e with
  | none => rfl
  | some e =>
    have hdigits : hasNumberShape false e.digits = true :=
      List.append_nil e.digits ▸ hasNumberShape_digits e.onlyDigits rfl
    rw [exponentText, hasNumberShape, (exponentMark_classes e.capital).1, Bool.or_true, Bool.true_or,
      Bool.true_and]
    exact hasNumberShape_sign e.sign hdigits

/-- Without point and exponent mark there are only digits behind the sign. -/
theorem digits_of_hasNumberShape (h : hasNumberShape true t = true)
    (hplain : ∀ b ∈ t, (isPoint b || isExponentMark b) = false) : Text.Digits (splitSign t).2 := by
  have hdigits : ∀ u : Text, hasNumberShape false u = true →
      (∀ b ∈ u, (isPoint b || isExponentMark b) = false) → Text.Digits u := by
    intro u hu hplain
    induction u with
    | nil => exact .nil
    | cons c u ih =>
      obtain ⟨hpoint, hmark⟩ := Bool.or_eq_false_iff.1 (hplain c List.mem_cons_self)
      rw [hasNumberShape, hpoint, hmark, Bool.false_and, Bool.or_false, Bool.or_false, Bool.or_false,
        Bool.and_eq_true] at hu
      rintro b (_ | ⟨_, hb⟩)
      · exact hu.1
      · exact ih hu.2 (fun b hb => hplain b (List.mem_cons_of_mem c hb)) b hb
  cases t with
  | nil => exact .nil
  | cons c t =>
    obtain ⟨hpoint, hmark⟩ := Bool.or_eq_false_iff.1 (hplain c List.mem_cons_self)
    have htail := fun b hb => hplain b (List.mem_cons_of_mem c hb)
    rw [hasNumberShape, hpoint, hmark, Bool.true_and, Bool.or_false, Bool.or_false,
      Bool.and_eq_true] at h
    by_cases hsign : isSign c = true
    · rw [splitSign, if_pos hsign]
      exact hdigits t h.2 htail
    · rw [splitSign, if_neg hsign]
      rintro b (_ | ⟨_, hb⟩)
      · exact (Bool.or_eq_true_iff.1 h.1).resolve_right hsign
      · exact hdigits t h.2 htail b hb

namespace Decimal

variable (d : Decimal)

theorem hasNumberShape_text : hasNumberShape true d.text = true := by
  have hfraction : hasNumberShape false (fractionText d.fraction ++ exponentText d.exponent) = true := by
    cases hfraction : d.fraction with
    | none => exact hasNumberShape_exponent d.exponent
    | some ds =>
      change hasNumberShape false (Text.byte '.' :: (ds ++ exponentText d.exponent)) = true
      exact hasNumberShape_digits (d.fractionDigits ds hfraction) (hasNumberShape_exponent d.exponent)
  exact hasNumberShape_sign d.sign (hasNumberShape_digits d.wholeDigits hfraction)

theorem any_isDigit_text : d.text.any Text.isDigit = true := by
  rw [List.any_eq_true]
  rcases d.someDigit with h | ⟨ds, hds, h⟩
  · obtain ⟨b, hb⟩ := List.exists_mem_of_ne_nil _ h
    exact ⟨b, by simp [text, magnitude, hb], d.wholeDigits b hb⟩
  · obtain ⟨b, hb⟩ := List.exists_mem_of_ne_nil _ h
    exact ⟨b, by simp [text, magnitude, fractionText, Option.mem_def.1 hds, hb],
      d.fractionDigits ds hds b hb⟩

theorem text_ne_nil : d.text ≠ [] := by
  intro h
  have hdigit := d.any_isDigit_text
  rw [h] at hdigit
  cases hdigit

/-- A point or an exponent mark occurs unless the decimal is plain. -/
theorem any_isPoint_text : d.text.any (fun b => isPoint b || isExponentMark b) = !d.isPlain := by
  have hsign : (signText d.sign).any (fun b => isPoint b || isExponentMark b) = false := by
    rcases d.sign with _ | _ | _ <;> rfl
  have hwhole : d.whole.any (fun b => isPoint b || isExponentMark b) = false := by
    rw [List.any_eq_false]
    intro b hb
    simp [digit_classes (d.wholeDigits b hb)]
  have hfraction : (fractionText d.fraction).any (fun b => isPoint b || isExponentMark b) =
      !d.fraction.isNone := by
    cases d.fraction with
    | none => rfl
    | some ds => exact Bool.true_or _
  have hexponent : (exponentText d.exponent).any (fun b => isPoint b || isExponentMark b) =
      !d.exponent.isNone := by
    cases d.exponent with
    | none => rfl
    | some e => simp [exponentText, exponentMark_classes]
  rw [text, magnitude, List.any_append, List.any_append, List.any_append, hsign, hwhole, hfraction,
    hexponent, isPlain, Bool.not_and]
  rfl

theorem splitSuffix_text (σ : Suffix) : splitSuffix (d.text ++ σ.text) = (d.text, σ) :=
  Number.splitSuffix_text d.text_ne_nil (suffixOf_of_hasNumberShape d.hasNumberShape_text) σ

end Decimal

def readPlain (σ : Suffix) (d : Decimal) : Option Number :=
  match readWord σ (d.sign = some .minus) d.whole with
  | some n => some n
  | none => if σ = .unsigned then none else ofScientific σ d.scientific

theorem Decimal.magnitude_of_isPlain {d : Decimal} (h : d.isPlain = true) : d.magnitude = d.whole := by
  obtain ⟨hfraction, hexponent⟩ := Bool.and_eq_true_iff.1 h
  rw [magnitude, Option.isNone_iff_eq_none.1 hfraction, Option.isNone_iff_eq_none.1 hexponent]
  exact List.append_nil d.whole

theorem parse_decimal {d : Decimal} (h : bare t = d.text ++ σ.text) :
    parse t =
      if d.isPlain = false ∨ σ = .double then ofScientific σ d.scientific else readPlain σ d := by
  unfold parse
  rw [show t.filter (· != Text.byte '_') = _ from h, d.splitSuffix_text]
  dsimp only
  rw [d.hasNumberShape_text, d.any_isDigit_text, d.any_isPoint_text, d.readScientific_text,
    d.splitSign_text, Bool.not_true, Bool.or_self, if_neg Bool.false_ne_true, Option.bind_some]
  simp only [Bool.or_eq_true, Bool.not_eq_true', decide_eq_true_eq]
  by_cases hwide : d.isPlain = false ∨ σ = .double
  · rw [if_pos hwide, if_pos hwide]
  · rw [if_neg hwide, if_neg hwide,
      Decimal.magnitude_of_isPlain (Bool.of_not_eq_false fun h => hwide (.inl h))]
    rfl

theorem exists_decimal_of_digits (hdigits : Text.Digits (splitSign t).2)
    (hany : t.any Text.isDigit = true) : ∃ d : Decimal, d.text = t := by
  obtain ⟨s, hs⟩ := exists_sign t
  have hsome : (splitSign t).2 ≠ [] := by
    intro hnil
    rw [← hs, hnil, List.append_nil] at hany
    rcases s with _ | _ | _ <;> cases hany
  exact ⟨⟨s, _, none, none, hdigits, nofun, .inl hsome⟩,
    (congrArg (signText s ++ ·) (List.append_nil _)).trans hs⟩

theorem exists_written (h : (parse t).isSome = true) :
    ∃ (d : Decimal) (σ : Suffix), bare t = d.text ++ σ.text := by
  obtain ⟨⟨body, σ⟩, hparts⟩ : ∃ p, splitSuffix (t.filter (· != Text.byte '_')) = p := ⟨_, rfl⟩
  suffices hbody : ∃ d : Decimal, d.text = body by
    obtain ⟨d, rfl⟩ := hbody
    have hsuffix := splitSuffix_append (bare t)
    rw [show splitSuffix (bare t) = _ from hparts] at hsuffix
    exact ⟨d, σ, hsuffix.symm⟩
  unfold parse at h
  rw [hparts] at h
  dsimp only at h
  by_cases hshape : hasNumberShape true body = true ∧ body.any Text.isDigit = true
  · rw [hshape.1, hshape.2, Bool.not_true, Bool.or_self, if_neg Bool.false_ne_true] at h
    by_cases hwide : (body.any (fun b => isPoint b || isExponentMark b) || σ = .double) = true
    · rw [if_pos hwide] at h
      obtain ⟨n, hn⟩ := Option.isSome_iff_exists.1 h
      obtain ⟨s, hs, -⟩ := Option.bind_eq_some_iff.1 hn
      exact exists_decimal hs
    · rw [Bool.or_eq_true, not_or, Bool.not_eq_true, List.any_eq_false] at hwide
      exact exists_decimal_of_digits
        (digits_of_hasNumberShape hshape.1 fun b hb => Bool.eq_false_iff.2 (hwide.1 b hb)) hshape.2
  · rw [← Bool.and_eq_true, Bool.not_eq_true] at hshape
    rw [← Bool.not_and, hshape, Bool.not_false, if_pos rfl] at h
    cases h

theorem Decimal.natAbs_integer (d : Decimal) : d.integer.natAbs = Text.natValue d.whole := by
  unfold integer
  split <;> omega

theorem Decimal.negative_iff {d : Decimal} (h : d.integer ≠ 0) :
    d.sign = some .minus ↔ d.integer < 0 := by
  unfold integer at h ⊢
  by_cases hsign : d.sign = some .minus
  · rw [if_pos hsign] at h ⊢
    exact iff_of_true hsign (by omega)
  · rw [if_neg hsign]
    exact iff_of_false hsign (by omega)

theorem Decimal.scientific_of_isPlain {d : Decimal} (h : d.isPlain = true) :
    d.scientific = ⟨d.sign = some .minus, Text.natValue d.whole, 0⟩ := by
  obtain ⟨hfraction, hexponent⟩ := Bool.and_eq_true_iff.1 h
  rw [scientific, Option.isNone_iff_eq_none.1 hfraction, Option.isNone_iff_eq_none.1 hexponent]
  simp [exponentValue]

theorem Decimal.double_of_isPlain {d : Decimal} (h : d.isPlain = true) (hzero : d.integer ≠ 0) :
    d.double = .ofInt d.integer := by
  have hdigits : Text.natValue d.whole ≠ 0 := by
    rw [← natAbs_integer]
    omega
  rw [double, scientific_of_isPlain h, Scientific.toFloat]
  dsimp only
  rw [if_neg hdigits, if_neg (by decide), if_neg (by omega), if_pos (by decide), Binary64.ofInt,
    decide_eq_decide.2 (negative_iff hzero), natAbs_integer]
  exact congrArg (fun n => Binary64.round _ (n * _) 1) (Nat.mul_one _)

theorem readWord_unsigned (d : Decimal) :
    readWord .unsigned (d.sign = some .minus) d.whole =
      if d.sign ≠ some .minus ∧ d.integer < 2 ^ 64 then some (ofNat (Text.natValue d.whole)) else none := by
  have hcond : (!decide (d.sign = some .minus) && decide (Text.natValue d.whole ≤ uintMax)) = true ↔
      d.sign ≠ some .minus ∧ d.integer < 2 ^ 64 := by
    rw [Bool.and_eq_true, Bool.not_eq_true', decide_eq_false_iff_not, decide_eq_true_iff]
    refine and_congr_right fun hsign => ?_
    rw [Decimal.integer, if_neg hsign, uintMax]
    omega
  unfold readWord
  dsimp only
  rw [if_pos rfl]
  simp only [hcond]

theorem readWord_of_ne_unsigned (d : Decimal) (hσ : σ ≠ .unsigned) :
    readWord σ (d.sign = some .minus) d.whole =
      if fitsInt d.integer then some (ofInt d.integer)
      else if σ = .none ∧ 0 ≤ d.integer ∧ d.integer < 2 ^ 64 then
        some (ofNat (Text.natValue d.whole))
      else none := by
  have hinteger : (if decide (d.sign = some .minus) = true then -(Text.natValue d.whole : Int)
      else Text.natValue d.whole) = d.integer := by
    simp only [decide_eq_true_eq]
    rfl
  unfold readWord
  dsimp only
  rw [if_neg hσ, hinteger]
  by_cases hfits : fitsInt d.integer = true
  · rw [if_pos hfits, if_pos hfits]
  · rw [if_neg hfits, if_neg hfits]
    have hzero : d.integer ≠ 0 := fun h => hfits (by rw [h]; rfl)
    have hcond : (decide (σ = .none) && !decide (d.sign = some .minus) &&
        decide (Text.natValue d.whole ≤ uintMax)) = true ↔
        σ = .none ∧ 0 ≤ d.integer ∧ d.integer < 2 ^ 64 := by
      rw [Bool.and_eq_true, Bool.and_eq_true, Bool.not_eq_true', decide_eq_false_iff_not,
        decide_eq_true_iff, decide_eq_true_iff, Decimal.negative_iff hzero, and_assoc,
        ← Decimal.natAbs_integer, uintMax]
      refine and_congr_right fun _ => ?_
      omega
    simp only [hcond]

theorem ofScientific_isSome (σ : Suffix) (d : Decimal) :
    (ofScientific σ d.scientific).isSome = true ↔ (σ = .unsigned → d.double.isNegative = false) := by
  cases σ with
  | unsigned =>
    change (if d.double.isNegative = true then none else _ : Option Number).isSome = true ↔ _
    cases d.double.isNegative <;> simp
  | none | signed | double => exact iff_of_true rfl nofun

theorem readPlain_isSome (σ : Suffix) (d : Decimal) : (readPlain σ d).isSome = true ↔
    (σ = .unsigned → d.sign ≠ some .minus ∧ d.integer < 2 ^ 64) := by
  unfold readPlain
  by_cases hσ : σ = .unsigned
  · rw [hσ, readWord_unsigned]
    by_cases hword : d.sign ≠ some .minus ∧ d.integer < 2 ^ 64
    · rw [if_pos hword]
      exact iff_of_true rfl fun _ => hword
    · rw [if_neg hword]
      exact iff_of_false nofun fun h => hword (h rfl)
  · have hsome := (ofScientific_isSome σ d).2 fun h => absurd h hσ
    rw [if_neg hσ]
    refine iff_of_true ?_ fun h => absurd h hσ
    split
    · rfl
    · exact hsome

theorem parse_isSome {d : Decimal} (h : bare t = d.text ++ σ.text) :
    (parse t).isSome = true ↔ d.Admits σ := by
  rw [parse_decimal h, Decimal.Admits]
  by_cases hplain : d.isPlain = true
  · by_cases hdouble : σ = .double
    · rw [if_pos (.inr hdouble), ofScientific_isSome, hdouble]
      exact iff_of_true nofun nofun
    · rw [if_neg (by simp [hplain, hdouble]), readPlain_isSome, if_pos hplain]
  · rw [if_pos (.inl (Bool.eq_false_iff.2 hplain)), ofScientific_isSome, if_neg hplain]

/-- How an integer is read that is written without point and exponent: as a word if it is one, of the
representation asked for; else held within the signed words if these are asked for, and as a double if
nothing is. -/
structure ReadsInteger (σ : Suffix) (v : Int) (r : Option Number) : Prop where
  signed : σ ≠ .unsigned → -2 ^ 63 ≤ v → v < 2 ^ 63 → ∃ w : Int64, r = some (.int w) ∧ w.toInt = v
  unsigned : σ = .unsigned ∨ σ = .none ∧ 2 ^ 63 ≤ v ∧ v < 2 ^ 64 →
    ∃ w : UInt64, r = some (.uint w) ∧ (w.toNat : Int) = v
  saturated : σ = .signed → ¬(-2 ^ 63 ≤ v ∧ v < 2 ^ 63) →
    r = some (.int (if v < 0 then SignedWord.least else SignedWord.greatest))
  wide : σ = .none → v < -2 ^ 63 ∨ 2 ^ 64 ≤ v → r = some (.float (.ofInt v))

theorem ofNat_toNat {d : Decimal} (hlow : 0 ≤ d.integer) (hhigh : d.integer < 2 ^ 64) :
    ((UInt64.ofNat (Text.natValue d.whole)).toNat : Int) = d.integer := by
  have habs := d.natAbs_integer
  rw [UInt64.toNat_ofNat_of_lt' (by rw [UInt64.size]; omega)]
  omega

theorem readPlain_unsigned {d : Decimal} (hplain : d.isPlain = true) (hadmits : d.Admits .unsigned) :
    ReadsInteger .unsigned d.integer (readPlain .unsigned d) := by
  have hword := hadmits rfl
  rw [if_pos hplain] at hword
  have hlow : 0 ≤ d.integer := by
    rw [Decimal.integer, if_neg hword.1]
    exact Int.natCast_nonneg _
  rw [readPlain, readWord_unsigned, if_pos hword]
  exact ⟨fun h => absurd rfl h, fun _ => ⟨_, rfl, ofNat_toNat hlow hword.2⟩, nofun, nofun⟩

theorem readPlain_signed {d : Decimal} (hplain : d.isPlain = true)
    (hlarge : ¬(-2 ^ 63 ≤ d.integer ∧ d.integer < 2 ^ 63)) :
    readPlain .signed d =
      some (.int (if d.integer < 0 then SignedWord.least else SignedWord.greatest)) := by
  have hσ : Suffix.signed ≠ .unsigned := nofun
  rw [readPlain, readWord_of_ne_unsigned d hσ, if_neg (mt SignedWord.fitsInt_iff.1 hlarge),
    if_neg (fun h => nomatch h.1), if_neg hσ]
  change some (Number.int (clampToInt d.double)) = _
  rw [Decimal.double_of_isPlain hplain (by omega), clampToInt_ofInt hlarge]

theorem readPlain_none {d : Decimal} (hplain : d.isPlain = true)
    (hlarge : ¬(-2 ^ 63 ≤ d.integer ∧ d.integer < 2 ^ 63)) :
    readPlain .none d = some (if 0 ≤ d.integer ∧ d.integer < 2 ^ 64 then
      ofNat (Text.natValue d.whole) else .float (.ofInt d.integer)) := by
  have hσ : Suffix.none ≠ .unsigned := nofun
  rw [readPlain, readWord_of_ne_unsigned d hσ, if_neg (mt SignedWord.fitsInt_iff.1 hlarge), if_neg hσ]
  by_cases hword : 0 ≤ d.integer ∧ d.integer < 2 ^ 64
  · rw [if_pos ⟨rfl, hword⟩, if_pos hword]
  · rw [if_neg fun h => hword h.2, if_neg hword, ← Decimal.double_of_isPlain hplain (by omega)]
    rfl

theorem readPlain_word {d : Decimal} (hσ : σ ≠ .unsigned)
    (hword : -2 ^ 63 ≤ d.integer ∧ d.integer < 2 ^ 63) : readPlain σ d = some (ofInt d.integer) := by
  rw [readPlain, readWord_of_ne_unsigned d hσ, if_pos (SignedWord.fitsInt_iff.2 hword)]

theorem readPlain_reads {d : Decimal} (hplain : d.isPlain = true) (hadmits : d.Admits σ)
    (hdouble : σ ≠ .double) : ReadsInteger σ d.integer (readPlain σ d) := by
  by_cases hσ : σ = .unsigned
  · rw [hσ] at hadmits ⊢
    exact readPlain_unsigned hplain hadmits
  by_cases hword : -2 ^ 63 ≤ d.integer ∧ d.integer < 2 ^ 63
  · rw [readPlain_word hσ hword]
    refine ⟨fun _ _ _ => ⟨_, rfl, SignedWord.toInt_ofInt (SignedWord.fitsInt_iff.2 hword)⟩, ?_,
      fun _ h => absurd hword h, fun _ h => by omega⟩
    rintro (h | ⟨-, h⟩)
    · exact absurd h hσ
    · omega
  cases σ with
  | unsigned => exact absurd rfl hσ
  | double => exact absurd rfl hdouble
  | signed =>
    rw [readPlain_signed hplain hword]
    refine ⟨fun _ hlow hhigh => absurd ⟨hlow, hhigh⟩ hword, ?_, fun _ _ => rfl, nofun⟩
    rintro (h | ⟨h, -⟩) <;> cases h
  | none =>
    rw [readPlain_none hplain hword]
    refine ⟨fun _ hlow hhigh => absurd ⟨hlow, hhigh⟩ hword, ?_, nofun, fun _ h => ?_⟩
    · rintro (h | ⟨-, hlow, hhigh⟩)
      · cases h
      · rw [if_pos (by omega)]
        exact ⟨_, rfl, ofNat_toNat (by omega) hhigh⟩
    · rw [if_neg (by omega)]

/-- A text reads as a number exactly if, without its underscores, it is a decimal and a suffix that
allows it; an integer without point and exponent keeps its value where a word can hold it. -/
theorem parse_grammar (t : Text) :
    ((parse t).isSome = true ↔
      ∃ (d : Decimal) (σ : Suffix), bare t = d.text ++ σ.text ∧ d.Admits σ) ∧
    ∀ (d : Decimal) (σ : Suffix), bare t = d.text ++ σ.text → d.Admits σ → d.isPlain = true →
      σ ≠ .double → ReadsInteger σ d.integer (parse t) := by
  refine ⟨⟨fun h => ?_, fun ⟨d, σ, hbare, hadmits⟩ => (parse_isSome hbare).2 hadmits⟩,
    fun d σ hbare hadmits hplain hσ => ?_⟩
  · obtain ⟨d, σ, hbare⟩ := exists_written h
    exact ⟨d, σ, hbare, (parse_isSome hbare).1 h⟩
  · rw [parse_decimal hbare, if_neg (by simp [hplain, hσ])]
    exact readPlain_reads hplain hadmits hσ

/-- The integer below the least signed word, asked to be one. -/
theorem parse_grammar_least :
    ∃ d : Decimal, bare "-9_223_372_036_854_775_809i" = d.text ++ Suffix.signed.text ∧
      d.Admits .signed ∧ d.isPlain = true ∧ Suffix.signed ≠ .double ∧ d.integer = -2 ^ 63 - 1 ∧
      ReadsInteger .signed d.integer (parse "-9_223_372_036_854_775_809i") := by
  let d : Decimal := ⟨some .minus, "9223372036854775809", none, none, List.all_eq_true.1 (by decide +kernel),
    nofun, .inl (by decide +kernel)⟩
  have hbare : bare "-9_223_372_036_854_775_809i" = d.text ++ Suffix.signed.text := by decide +kernel
  exact ⟨d, hbare, nofun, rfl, nofun, by decide +kernel,
    (parse_grammar _).2 d .signed hbare nofun rfl nofun⟩

end Number

end ScriptMachine
