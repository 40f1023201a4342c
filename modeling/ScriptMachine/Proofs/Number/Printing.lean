import ScriptMachine.Proofs.Number.Parsing
import ScriptMachine.Proofs.Value.Casts
import ScriptMachine.Value.Equality

set_option autoImplicit false

/-!
# Integers printed and read

The decimal text of an integer word reads as the same integer, as a signed word wherever one can hold it.
-/
namespace ScriptMachine

namespace Number

def Decimal.ofInt (i : Int) : Decimal where
  sign := if i < 0 then some .minus else none
  whole := Text.ofNat i.natAbs
  fraction := none
  exponent := none
  wholeDigits := Text.digits_ofNat _
  fractionDigits := nofun
  someDigit := .inl (Text.ofNat_ne_nil _)

variable {n : Number} {i : Int}

theorem Decimal.sign_ofInt (i : Int) : (Decimal.ofInt i).sign = some .minus ↔ i < 0 := by
  simp [ofInt]

theorem Decimal.text_ofInt (i : Int) : (Decimal.ofInt i).text = Text.ofInt i := by
  cases i with
  | ofNat k => exact List.append_nil _
  | negSucc k =>
    rw [text, (sign_ofInt _).2 (Int.negSucc_lt_zero k)]
    exact congrArg (Text.byte '-' :: ·) (List.append_nil _)

theorem Decimal.integer_ofInt (i : Int) : (Decimal.ofInt i).integer = i := by
  have hvalue : Text.natValue (Decimal.ofInt i).whole = i.natAbs := Text.natValue_ofNat _
  rw [integer, hvalue]
  by_cases hi : i < 0
  · rw [if_pos ((sign_ofInt i).2 hi)]
    omega
  · rw [if_neg (mt (sign_ofInt i).1 hi)]
    omega

theorem bare_ofInt (i : Int) : bare (Text.ofInt i) = Text.ofInt i := by
  have hdigits : ∀ k : Nat, ∀ b ∈ Text.ofNat k, (b != Text.byte '_') = true := by
    intro k b hb
    rw [bne_iff_ne]
    rintro rfl
    exact absurd (Text.digits_ofNat k _ hb) (by decide)
  rw [bare, List.filter_eq_self]
  cases i with
  | ofNat k => exact hdigits k
  | negSucc k =>
    rintro b (_ | ⟨_, hb⟩)
    · rfl
    · exact hdigits (k + 1) b hb

theorem parse_ofInt (hlow : -2 ^ 63 ≤ i) (hhigh : i < 2 ^ 64) :
    parse (Text.ofInt i) = some (if i < 2 ^ 63 then .ofInt i else .ofNat i.toNat) := by
  have hbare : bare (Text.ofInt i) = (Decimal.ofInt i).text ++ Suffix.none.text := by
    rw [bare_ofInt, Decimal.text_ofInt]
    exact (List.append_nil _).symm
  have hinteger := Decimal.integer_ofInt i
  rw [parse_decimal hbare, if_neg (by rintro (h | h) <;> cases h)]
  split_ifs with hword
  · have hsuffix : Suffix.none ≠ .unsigned := nofun
    rw [readPlain_word hsuffix (by omega), hinteger]
  · have habs : i.natAbs = i.toNat := by omega
    rw [readPlain_none rfl (by omega), if_pos (by omega), ← Decimal.natAbs_integer, hinteger, habs]

theorem display_integer (h : n.integer? = some i) : n.display = Text.ofInt i := by
  cases n with
  | int v =>
    cases h
    rfl
  | uint v =>
    cases h
    rfl
  | float _ => cases h

theorem parse_display (h : n.integer? = some i) :
    parse n.display = some (if i < 2 ^ 63 then .ofInt i else .ofNat i.toNat) := by
  have hrange := integer_range h
  rw [display_integer h, parse_ofInt hrange.1 hrange.2]

theorem integer_parse_display (h : n.integer? = some i) :
    ∃ m, parse n.display = some m ∧ m.integer? = some i := by
  have hrange := integer_range h
  refine ⟨_, parse_display h, ?_⟩
  split_ifs with hword
  · exact integer_ofInt (SignedWord.fitsInt_iff.2 ⟨hrange.1, hword⟩)
  · rw [integer_ofNat (by rw [uintMax]; omega), Int.toNat_of_nonneg (by omega)]

theorem looseEquals_display (h : n.integer? = some i) :
    Value.looseEquals (.num n) (.str (Value.num n).display) = true := by
  obtain ⟨m, hm, hi⟩ := integer_parse_display h
  have hequals : Value.numberEqualsText n n.display = n.equals m := by
    simp only [Value.numberEqualsText, hm]
  exact hequals.trans ((equals_integers h hi).2 (.inl rfl))

/-- A signed word is read back from its text as it was; an unsigned one as the signed word of the same
value if there is one. The integer survives, and loosely equals its text. -/
theorem integers_read_back :
    (∀ v : Int64, parse (display (.int v)) = some (.int v)) ∧
    (∀ v : UInt64, parse (display (.uint v)) =
      some (if v.toNat ≤ 2 ^ 63 - 1 then .ofInt v.toNat else .uint v)) ∧
    ∀ (n : Number) (i : Int), n.integer? = some i →
      (∃ m, parse n.display = some m ∧ m.integer? = some i) ∧
        Value.looseEquals (.num n) (.str (Value.num n).display) = true := by
  refine ⟨fun v => ?_, fun v => ?_, fun n i h => ⟨integer_parse_display h, looseEquals_display h⟩⟩
  · rw [parse_display (n := .int v) rfl, if_pos v.toInt_lt]
    exact congrArg (fun w => some (Number.int w)) (Int64.ofInt_toInt v)
  · rw [parse_display (n := .uint v) rfl, uint_ofNat (z := v) rfl]
    exact congrArg some (if_congr (by omega) rfl rfl)

/-- The greatest unsigned word. -/
theorem integers_read_back_greatest :
    (Number.uint greatestWord).integer? = some (2 ^ 64 - 1) ∧
      (∃ m, parse (display (.uint greatestWord)) = some m ∧ m.integer? = some (2 ^ 64 - 1)) ∧
      Value.looseEquals (.num (.uint greatestWord))
        (.str (Value.num (.uint greatestWord)).display) = true :=
  ⟨rfl, integers_read_back.2.2 (.uint greatestWord) (2 ^ 64 - 1) rfl⟩

end Number

end ScriptMachine
