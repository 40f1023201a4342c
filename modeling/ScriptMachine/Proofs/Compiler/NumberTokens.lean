import ScriptMachine.Proofs.Compiler.Partition
import ScriptMachine.Proofs.Number.Parsing

set_option autoImplicit false

namespace ScriptMachine

open Lexer

namespace Binary64

theorem isNegative_withSign {n : Nat} (h : n ≤ infinityBits.toNat) :
    (withSign false n.toUInt64).isNegative = false := by
  rw [isNegative, (withSign_spec false h).1, Bool.false_and, Bool.false_and]

end Binary64

namespace Number

theorem Scientific.toFloat_isNegative {s : Scientific} (h : s.negative = false) :
    s.toFloat.isNegative = false := by
  unfold toFloat
  rw [h]
  split_ifs
  · rfl
  · rfl
  · rfl
  · exact Binary64.isNegative_withSign (Binary64.roundBits_le_infinity _ _)
  · exact Binary64.isNegative_withSign (Binary64.roundBits_le_infinity _ _)

/-- The suffix asks for an unsigned word, no point stands before it, and the digits denote a number that is
none. -/
def Oversized (t : Text) : Prop :=
  t.getLast? = some (Text.byte 'u') ∧ Text.byte '.' ∉ t ∧ 2 ^ 64 ≤ Text.natValue (t.filter Text.isDigit)

instance (t : Text) : Decidable (Oversized t) := inferInstanceAs (Decidable (_ ∧ _ ∧ _))

example : Oversized "18_446_744_073_709_551_616u" ∧ ¬Oversized "18446744073709551615u" := by decide +kernel

end Number

theorem isNumberByte_cases {b : UInt8} (h : isNumberByte b = true) :
    Text.isDigit b = true ∨ b = Text.byte '_' := by
  simpa [isNumberByte] using h

theorem isNumberByte_of_isDigit {b : UInt8} (h : Text.isDigit b = true) : isNumberByte b = true := by
  simp [isNumberByte, h]

theorem isSuffix_cases {b : UInt8} (h : isSuffix b = true) :
    b = Text.byte 'u' ∨ b = Text.byte 'i' ∨ b = Text.byte 'f' := by
  simpa [isSuffix, or_assoc] using h

theorem numberByte_classes {b : UInt8} (h : isNumberByte b = true) :
    b ≠ Text.byte '.' ∧ b ≠ Text.byte 'u' := by
  rcases isNumberByte_cases h with hdigit | rfl
  · constructor <;> · rintro rfl; exact absurd hdigit (by decide)
  · decide

namespace Number

variable {t : Text}

theorem bare_append (s t : Text) : bare (s ++ t) = bare s ++ bare t := List.filter_append s t

theorem digits_bare (h : ∀ b ∈ t, isNumberByte b = true) : Text.Digits (bare t) := by
  intro b hb
  obtain ⟨hmem, hunderscore⟩ := List.mem_filter.1 hb
  rcases isNumberByte_cases (h b hmem) with hdigit | rfl
  · exact hdigit
  · exact absurd hunderscore (by decide)

theorem filter_isDigit (h : ∀ b ∈ t, isNumberByte b = true) : t.filter Text.isDigit = bare t := by
  refine List.filter_congr fun b hb => ?_
  rcases isNumberByte_cases (h b hb) with hdigit | rfl
  · have hne : b ≠ Text.byte '_' := by
      rintro rfl
      exact absurd hdigit (by decide)
    rw [hdigit, bne_iff_ne.2 hne]
  · decide

theorem bare_cons_ne_nil {b : UInt8} (hb : Text.isDigit b = true) (t : Text) : bare (b :: t) ≠ [] := by
  have hne : b ≠ Text.byte '_' := by
    rintro rfl
    exact absurd hb (by decide)
  have hkept : b ∈ bare (b :: t) := List.mem_filter.2 ⟨List.mem_cons_self, bne_iff_ne.2 hne⟩
  exact List.ne_nil_of_mem hkept

theorem exists_suffix {letter : Text} (h : Suffixed letter) :
    ∃ σ : Suffix, bare letter = σ.text ∧ (σ = .unsigned ↔ letter = [Text.byte 'u']) := by
  cases h with
  | none => exact ⟨.none, rfl, by simp⟩
  | some hb =>
    rcases isSuffix_cases hb with rfl | rfl | rfl
    · exact ⟨.unsigned, by decide, by decide⟩
    · exact ⟨.signed, by decide, by decide⟩
    · exact ⟨.double, by decide, by decide⟩

/-- The decimal that the digits of a token are. -/
theorem exists_unsigned {b : UInt8} {whole part : Text} (hb : Text.isDigit b = true)
    (hwhole : ∀ c ∈ whole, isNumberByte c = true) (hpart : Fractional part) :
    ∃ d : Decimal, d.text = bare (b :: whole ++ part) ∧ d.sign = none ∧ d.whole = bare (b :: whole) ∧
      (d.isPlain = true ↔ part = []) := by
  have hdigits : Text.Digits (bare (b :: whole)) :=
    digits_bare (List.forall_mem_cons.2 ⟨isNumberByte_of_isDigit hb, hwhole⟩)
  have hsome := bare_cons_ne_nil hb whole
  cases hpart with
  | none =>
    refine ⟨⟨none, _, none, none, hdigits, fun _ h => absurd h (Option.not_mem_none _), .inl hsome⟩, ?_, rfl, rfl,
      iff_of_true rfl rfl⟩
    rw [List.append_nil]
    exact List.append_nil _
  | @some c digits hc hrest =>
    have hfraction : Text.Digits (bare (c :: digits)) :=
      digits_bare (List.forall_mem_cons.2 ⟨isNumberByte_of_isDigit hc, hrest⟩)
    refine ⟨⟨none, _, some (bare (c :: digits)), none, hdigits, ?_, .inl hsome⟩, ?_, rfl, rfl,
      iff_of_false Bool.false_ne_true (List.cons_ne_nil _ _)⟩
    · rintro _ ⟨⟩
      exact hfraction
    · rw [bare_append]
      exact congrArg (bare (b :: whole) ++ Text.byte '.' :: ·) (List.append_nil _)

/-- What is oversized, in the parts of a number token. -/
theorem oversized_iff {b : UInt8} {whole part letter : Text} (hb : Text.isDigit b = true)
    (hwhole : ∀ c ∈ whole, isNumberByte c = true) (hpart : Fractional part) (hletter : Suffixed letter) :
    Oversized (b :: (whole ++ part ++ letter)) ↔
      letter = [Text.byte 'u'] ∧ part = [] ∧ 2 ^ 64 ≤ Text.natValue (bare (b :: whole)) := by
  have hfirst : ∀ c ∈ b :: whole, isNumberByte c = true :=
    List.forall_mem_cons.2 ⟨isNumberByte_of_isDigit hb, hwhole⟩
  have hlast : (b :: (whole ++ part ++ letter)).getLast? = some (Text.byte 'u') ↔
      letter = [Text.byte 'u'] := by
    cases hletter with
    | @some s hs => rw [← List.cons_append, List.getLast?_concat]; simp
    | none =>
      rw [List.append_nil]
      refine iff_of_false (fun h => ?_) nofun
      have hmem : Text.byte 'u' ∈ b :: whole ++ part := List.mem_of_getLast? h
      rcases List.mem_append.1 hmem with hmem | hmem
      · exact (numberByte_classes (hfirst _ hmem)).2 rfl
      · cases hpart with
        | none => cases hmem
        | @some d digits hd hdigits =>
          rcases List.mem_cons.1 hmem with hmem | hmem
          · exact absurd hmem (by decide)
          · rcases List.mem_cons.1 hmem with rfl | hmem
            · exact absurd hd (by decide)
            · exact (numberByte_classes (hdigits _ hmem)).2 rfl
  rw [Oversized, hlast]
  refine and_congr_right fun hu => ?_
  subst hu
  cases hpart with
  | some hd hdigits => exact iff_of_false (fun h => h.1 (by simp)) fun h => nomatch h.1
  | none =>
    have hpoint : Text.byte '.' ∉ b :: (whole ++ [] ++ [Text.byte 'u']) := by
      rw [List.append_nil, ← List.cons_append]
      intro hmem
      rcases List.mem_append.1 hmem with hmem | hmem
      · exact (numberByte_classes (hfirst _ hmem)).1 rfl
      · exact absurd hmem (by decide)
    have hfilter : (b :: (whole ++ [] ++ [Text.byte 'u'])).filter Text.isDigit = bare (b :: whole) := by
      rw [List.append_nil, ← List.cons_append, List.filter_append, filter_isDigit hfirst]
      exact List.append_nil _
    rw [hfilter]
    exact and_congr (iff_of_true hpoint rfl) Iff.rfl

/-- A text written as a number token reads as a number unless it is oversized. -/
theorem parse_spelled {spelling : Text} (h : Spells spelling .number t) :
    (parse t).isSome = true ↔ ¬Oversized t := by
  generalize hkind : TokenKind.number = kind at h
  cases h with
  | word => exact absurd hkind.symm (ofWord_kinds _).2.2
  | quoted => cases hkind
  | sign h =>
    have hsigns : ∀ s ∈ TokenKind.signs, s.2 ≠ .number := by decide
    exact absurd hkind.symm (hsigns _ h)
  | @number b whole part letter hb hwhole hpart hletter =>
    obtain ⟨σ, hσ, hunsigned⟩ := exists_suffix hletter
    obtain ⟨d, htext, hsign, hdigits, hplain⟩ := exists_unsigned hb hwhole hpart
    have hbare : bare (b :: (whole ++ part ++ letter)) = d.text ++ σ.text := by
      rw [htext, ← hσ, ← bare_append]
      rfl
    have hminus : none ≠ some Sign.minus := (Option.some_ne_none _).symm
    rw [parse_isSome hbare, oversized_iff hb hwhole hpart hletter, Decimal.Admits, ← hunsigned, ← hplain,
      ← hdigits, Decimal.integer, hsign]
    have hpositive : d.double.isNegative = false :=
      Scientific.toFloat_isNegative (by rw [Decimal.scientific, hsign]; rfl)
    by_cases hp : d.isPlain = true
    · rw [if_pos hp, if_neg hminus, not_and]
      refine imp_congr_right fun _ => ?_
      rw [and_iff_right hminus, and_iff_right hp, Nat.not_le]
      omega
    · simp [hp, hpositive]

end Number

namespace Lexer

variable {b : UInt8} {t rest : Text} {l : Lexeme} {p : Position} {e : LexError}

theorem fraction_fractional (t : Text) : Fractional (fraction t) := by
  unfold fraction
  split
  · split
    · rename_i h
      obtain ⟨hpoint, hdigit⟩ := Bool.and_eq_true_iff.1 h
      rw [eq_of_beq hpoint]
      exact .some hdigit fun c hc => List.mem_takeWhile_imp hc
    · exact .none
  · exact .none

theorem suffix_suffixed (t : Text) : Suffixed (suffix t) := by
  unfold suffix
  split
  · split
    · rename_i h
      exact .some (Bool.and_eq_true_iff.1 h).1
    · exact .none
  · split
    · exact .some ‹_›
    · exact .none
  · exact .none

theorem takeWhile_stops (f : UInt8 → Bool) (t : Text) : ∃ rest, t = t.takeWhile f ++ rest ∧ StopsAt f rest := by
  refine ⟨t.dropWhile f, List.takeWhile_append_dropWhile.symm, fun b hb => ?_⟩
  have hstop := List.head?_dropWhile_not f t
  rw [Option.mem_def.1 hb] at hstop
  exact hstop

theorem fraction_stops (h : StopsAt isNumberByte t) :
    ∃ rest, t = fraction t ++ rest ∧ StopsAt isNumberByte rest := by
  unfold fraction
  split
  · rename_i c d more
    split
    · obtain ⟨rest, hrest, hstops⟩ := takeWhile_stops isNumberByte more
      exact ⟨rest, congrArg (c :: d :: ·) hrest, hstops⟩
    · exact ⟨_, rfl, h⟩
  · exact ⟨_, rfl, h⟩

theorem exists_digits (t : Text) : ∃ whole part rest, t = whole ++ (part ++ rest) ∧
    t.takeWhile isNumberByte = whole ∧ fraction (part ++ rest) = part ∧ StopsAt isNumberByte rest := by
  obtain ⟨behind, hbehind, hstops⟩ := takeWhile_stops isNumberByte t
  obtain ⟨rest, hrest, hstops⟩ := fraction_stops hstops
  exact ⟨_, _, rest, by rw [← hrest, ← hbehind], rfl, by rw [← hrest], hstops⟩

/-- Whether a text begins with a byte of a word. -/
def beginsWord (t : Text) : Bool := (t.head?.map isWordByte).getD false

/-- Behind the digits, and those after a point, there is a letter that ends no number: it is no suffix, or a
word goes on behind it. -/
def RunsIntoWord (t : Text) : Prop :=
  ∃ whole part c rest, t = whole ++ (part ++ c :: rest) ∧ (∀ b ∈ whole, isNumberByte b = true) ∧
    Fractional part ∧ Text.isLetter c = true ∧ (isSuffix c = true → beginsWord rest = true)

theorem number_parts {whole part : Text} (hwhole : (whole ++ (part ++ rest)).takeWhile isNumberByte = whole)
    (hpart : fraction (part ++ rest) = part) (b : UInt8) :
    number b (whole ++ (part ++ rest)) =
      if beginsWord (rest.drop (suffix rest).length) then none
      else some ⟨.number, b :: (whole ++ part ++ suffix rest), (whole ++ part ++ suffix rest).length⟩ := by
  unfold number
  rw [hwhole]
  dsimp only
  rw [List.drop_left, hpart, List.drop_left]
  rfl

theorem suffix_stops (hletter : suffix t ≠ []) : beginsWord (t.drop (suffix t).length) = false := by
  unfold suffix at hletter ⊢
  split at hletter
  · rename_i s c more
    split at hletter
    · rename_i h
      rw [if_pos h]
      exact Bool.not_eq_true' _ ▸ (Bool.and_eq_true_iff.1 h).2
    · exact absurd rfl hletter
  · split at hletter
    · rw [if_pos ‹_›]
      rfl
    · exact absurd rfl hletter
  · exact absurd rfl hletter

theorem suffix_cons (c : UInt8) (t : Text) :
    suffix (c :: t) = if isSuffix c && !beginsWord t then [c] else [] := by
  cases t with
  | nil => simp [suffix, beginsWord]
  | cons d t => rfl

theorem isLetter_iff {c : UInt8} : Text.isLetter c = true ↔ isWordByte c = true ∧ isNumberByte c = false := by
  refine ⟨fun h => ?_, fun ⟨hword, hnumber⟩ => ?_⟩
  · have hstart : isWordStart c = true := by rw [isWordStart, h, Bool.true_or]
    refine ⟨by rw [isWordByte, hstart, Bool.true_or], Bool.eq_false_iff.2 fun hnumber => ?_⟩
    rcases isNumberByte_cases hnumber with hdigit | rfl
    · rw [digit_starts_no_word hdigit] at hstart
      cases hstart
    · exact absurd h (by decide)
  · obtain ⟨hdigit, hunderscore⟩ := Bool.or_eq_false_iff.1 hnumber
    simpa [isWordByte, isWordStart, hdigit, hunderscore] using hword

/-- What stands before a letter is found as the digits of the number. -/
theorem digits_before_letter {whole part : Text} {c : UInt8} (hwhole : ∀ b ∈ whole, isNumberByte b = true)
    (hpart : Fractional part) (hc : Text.isLetter c = true) :
    (whole ++ (part ++ c :: rest)).takeWhile isNumberByte = whole ∧ fraction (part ++ c :: rest) = part := by
  have hstop : StopsAt isNumberByte (c :: rest) := by
    rintro _ ⟨⟩
    exact (isLetter_iff.1 hc).2
  cases hpart with
  | none =>
    have hpoint : (c == Text.byte '.') = false := by
      refine beq_eq_false_iff_ne.2 ?_
      rintro rfl
      exact absurd hc (by decide)
    refine ⟨takeWhile_stop hwhole hstop, ?_⟩
    rw [List.nil_append]
    unfold fraction
    split
    · rename_i p d more hcons
      obtain ⟨rfl, -⟩ := List.cons_eq_cons.1 hcons
      rw [hpoint, Bool.false_and, if_neg Bool.false_ne_true]
    · rfl
  | @some d digits hd hdigits =>
    refine ⟨takeWhile_stop hwhole ?_, ?_⟩
    · rintro _ ⟨⟩
      decide
    · rw [List.cons_append, List.cons_append, fraction, hd, takeWhile_stop hdigits hstop]
      rfl

/-- A number that does not end is one that runs into a word. -/
theorem number_eq_none_iff (b : UInt8) (t : Text) : number b t = none ↔ RunsIntoWord t := by
  constructor
  · intro h
    obtain ⟨whole, part, rest, rfl, hwhole, hpart, hstops⟩ := exists_digits t
    rw [number_parts hwhole hpart] at h
    split at h
    · rename_i hword
      have hletter : suffix rest = [] := by
        by_contra hletter
        rw [suffix_stops hletter] at hword
        cases hword
      rw [hletter] at hword
      cases rest with
      | nil => cases hword
      | cons c rest =>
        have hc : Text.isLetter c = true := isLetter_iff.2 ⟨hword, hstops c rfl⟩
        refine ⟨whole, part, c, rest, rfl, fun d hd => ?_, hpart ▸ fraction_fractional _, hc, fun hsuffix => ?_⟩
        · rw [← hwhole] at hd
          exact List.mem_takeWhile_imp hd
        · rw [suffix_cons, hsuffix, Bool.true_and] at hletter
          by_contra hmore
          rw [Bool.eq_false_iff.2 hmore] at hletter
          cases hletter
    · cases h
  · rintro ⟨whole, part, c, rest, rfl, hwhole, hpart, hc, hmore⟩
    obtain ⟨hwhole, hpart⟩ := digits_before_letter hwhole hpart hc
    have hletter : suffix (c :: rest) = [] := by
      rw [suffix_cons, if_neg]
      rw [Bool.and_eq_true, not_and]
      exact fun hsuffix hnot => by simp [hmore hsuffix] at hnot
    have hword : beginsWord ((c :: rest).drop (suffix (c :: rest)).length) = true := by
      rw [hletter]
      exact (isLetter_iff.1 hc).1
    rw [number_parts hwhole hpart, if_pos hword]

theorem number_spells {b : UInt8} (hb : Text.isDigit b = true) (h : number b t = some l) :
    l.kind = .number ∧ Spells l.text .number l.text := by
  obtain ⟨whole, part, rest, rfl, hwhole, hpart, -⟩ := exists_digits t
  rw [number_parts hwhole hpart] at h
  split at h
  · cases h
  · cases h
    refine ⟨rfl, .number hb (fun c hc => ?_) (hpart ▸ fraction_fractional _) (suffix_suffixed rest)⟩
    rw [← hwhole] at hc
    exact List.mem_takeWhile_imp hc

/-- What a lexeme is, by its kind. -/
theorem lexeme_spells (h : lexeme p b rest = .ok l) :
    (l.kind = .number → Spells l.text .number l.text) ∧
    (l.kind = .identifier → ∀ c ∈ l.text, isWordByte c = true) := by
  unfold lexeme at h
  split at h
  · cases h
    exact ⟨nofun, nofun⟩
  split at h
  · rename_i hb
    cases h
    refine ⟨fun hkind => absurd hkind (ofWord_kinds _).2.2, fun _ => List.forall_mem_cons.2 ⟨?_, ?_⟩⟩
    · rw [isWordByte, hb, Bool.true_or]
    · exact fun c hc => List.mem_takeWhile_imp hc
  split at h
  · rename_i hb
    split at h
    · rename_i number hnumber
      cases h
      obtain ⟨hkind, hspells⟩ := number_spells hb hnumber
      refine ⟨fun _ => hspells, fun hword => ?_⟩
      rw [hkind] at hword
      cases hword
    · cases h
  split at h
  · split at h
    · cases h
      exact ⟨nofun, nofun⟩
    all_goals cases h
  · split at h
    · rename_i number hsign
      cases h
      obtain ⟨s, hs, rfl⟩ := Option.map_eq_some_iff.1 hsign
      have hsigns : ∀ s ∈ TokenKind.signs, s.2 ≠ .number ∧ s.2 ≠ .identifier := by decide
      obtain ⟨hnumber, hidentifier⟩ := hsigns s (List.mem_of_find?_eq_some hs)
      exact ⟨fun hkind => absurd hkind hnumber, fun hkind => absurd hkind hidentifier⟩
    · cases h

/-- The message that a number runs into a word is given for just these numbers, at their first digit. -/
theorem lexeme_malformed_iff : lexeme p b rest = .error e ∧ e.message = "Malformed number literal" ↔
    Text.isDigit b = true ∧ RunsIntoWord rest ∧ e = located "Malformed number literal" p := by
  constructor
  · rintro ⟨h, hmessage⟩
    unfold lexeme at h
    split at h
    · cases h
    split at h
    · cases h
    split at h
    · split at h
      · cases h
      · cases h
        exact ⟨‹_›, (number_eq_none_iff b rest).1 ‹_›, rfl⟩
    split at h
    · split at h
      · cases h
      all_goals
        cases h
        dsimp only [located] at hmessage
        exact absurd hmessage (by decide)
    · split at h
      · cases h
      · cases h
        dsimp only [located] at hmessage
        exact absurd hmessage (by decide)
  · rintro ⟨hb, hrest, rfl⟩
    have hnewline : (b == Text.byte '\n') = false := by
      refine beq_eq_false_iff_ne.2 ?_
      rintro rfl
      exact absurd hb (by decide)
    refine ⟨?_, rfl⟩
    unfold lexeme
    rw [hnewline, if_neg Bool.false_ne_true, digit_starts_no_word hb, if_neg Bool.false_ne_true, if_pos hb,
      (number_eq_none_iff b rest).2 hrest]

/-- Where tokens may start in a text, and what is ahead there: behind what is skipped at its beginning, and
behind each token and what is skipped there. -/
inductive Reaches : Position → Text → Position → Text → Prop where
  | here (p : Position) (t : Text) : Reaches p t (p.after (t.take (skipLength t))) (t.drop (skipLength t))
  | later {p q r : Position} {t ahead rest : Text} {b : UInt8} {l : Lexeme}
      (hdrop : t.drop (skipLength t) = b :: rest) (hplace : q = p.after (t.take (skipLength t)))
      (hl : lexeme q b rest = .ok l)
      (h : Reaches (q.after (b :: rest.take l.more)) (rest.drop l.more) r ahead) : Reaches p t r ahead

theorem reaches_cons (hdrop : t.drop (skipLength t) = b :: rest) {q r : Position} {ahead : Text}
    (hplace : q = p.after (t.take (skipLength t))) : Reaches p t r ahead ↔ r = q ∧ ahead = b :: rest ∨
      ∃ l, lexeme q b rest = .ok l ∧ Reaches (q.after (b :: rest.take l.more)) (rest.drop l.more) r ahead := by
  constructor
  · intro h
    cases h with
    | here => exact .inl ⟨hplace.symm, hdrop⟩
    | later hdrop' hplace' hl h =>
      obtain ⟨rfl, rfl⟩ := List.cons_eq_cons.1 (hdrop.symm.trans hdrop')
      obtain rfl := hplace.trans hplace'.symm
      exact .inr ⟨_, hl, h⟩
  · rintro (⟨rfl, rfl⟩ | ⟨l, hl, h⟩)
    · rw [hplace, ← hdrop]
      exact .here p t
    · exact .later hdrop hplace hl h

theorem reaches_nil (hdrop : t.drop (skipLength t) = []) {r : Position} {ahead : Text}
    (h : Reaches p t r ahead) : ahead = [] := by
  cases h with
  | here => exact hdrop
  | later hdrop' => cases hdrop.symm.trans hdrop'

theorem bind_eq_error_iff {ε α β : Type} {x : Except ε α} {f : α → Except ε β} {e : ε} :
    x >>= f = .error e ↔ x = .error e ∨ ∃ a, x = .ok a ∧ f a = .error e := by
  cases x with
  | error => simp [bind, Except.bind]
  | ok a => simp [bind, Except.bind]

/-- A source is not split exactly if a token that may start somewhere is none. -/
theorem tokensFrom_eq_error_iff (p : Position) (previous : Option TokenKind) (t : Text) (e : LexError) :
    tokensFrom p previous t = .error e ↔
      ∃ q b rest, Reaches p t q (b :: rest) ∧ lexeme q b rest = .error e := by
  fun_induction tokensFrom p previous t with
  | case1 p previous t skipped place hdrop =>
    refine iff_of_false (fun h => ?_) ?_
    · cases h
    · rintro ⟨q, b, rest, h, -⟩
      cases reaches_nil hdrop h
  | case2 p previous t skipped place b rest hdrop ihSame ihNext =>
    -- whichever way the rest is split, it fails where a token behind this one does
    have hrest (l : Lexeme) (s : Spanned) : (if l.kind = .newline && previous = some .newline then
          tokensFrom (place.after (b :: rest.take l.more)) previous (rest.drop l.more)
        else do
          let others ← tokensFrom (place.after (b :: rest.take l.more)) (some l.kind) (rest.drop l.more)
          return s :: others) = .error e ↔
        ∃ q c more, Reaches (place.after (b :: rest.take l.more)) (rest.drop l.more) q (c :: more) ∧
          lexeme q c more = .error e := by
      split
      · exact ihSame l
      · refine bind_eq_error_iff.trans ((or_iff_left ?_).trans (ihNext l))
        rintro ⟨others, -, h⟩
        cases h
    rw [bind_eq_error_iff]
    constructor
    · rintro (h | ⟨l, hl, h⟩)
      · exact ⟨place, b, rest, (reaches_cons hdrop rfl).2 (.inl ⟨rfl, rfl⟩), h⟩
      · obtain ⟨q, c, more, hreaches, hc⟩ := (hrest l _).1 h
        exact ⟨q, c, more, (reaches_cons hdrop rfl).2 (.inr ⟨l, hl, hreaches⟩), hc⟩
    · rintro ⟨q, c, more, hreaches, hc⟩
      rcases (reaches_cons hdrop rfl).1 hreaches with ⟨rfl, h⟩ | ⟨l, hl, hreaches⟩
      · obtain ⟨rfl, rfl⟩ := List.cons_eq_cons.1 h
        exact .inl hc
      · exact .inr ⟨l, hl, (hrest l _).2 ⟨q, c, more, hreaches, hc⟩⟩

theorem tokensFrom_lexemes (p : Position) (previous : Option TokenKind) (t : Text) :
    ∀ spans, tokensFrom p previous t = .ok spans → ∀ s ∈ spans, s.token.kind ≠ .finish →
      ∃ q b rest l, lexeme q b rest = .ok l ∧ s.token.kind = l.kind ∧ s.token.text = l.text := by
  fun_induction tokensFrom p previous t with
  | case1 p previous t skipped place hdrop =>
    rintro _ ⟨⟩
    exact List.forall_mem_singleton.2 fun hkind => absurd rfl hkind
  | case2 p previous t skipped place b rest hdrop ihSame ihNext =>
    intro spans h
    obtain ⟨l, hl, h⟩ := parts_of_ok h
    dsimp only at h
    split at h
    · exact ihSame l spans h
    · obtain ⟨others, hothers, h⟩ := parts_of_ok h
      cases h
      exact List.forall_mem_cons.2 ⟨fun _ => ⟨place, b, rest, l, hl, rfl, rfl⟩, ihNext l others hothers⟩

end Lexer

/-- A token of a source, as the rest of the compiler relies on it. -/
structure Token.Lexed (t : Token) : Prop where
  number : t.kind = .number → Spells t.text .number t.text
  identifier : t.kind = .identifier → ∀ c ∈ t.text, isWordByte c = true

theorem tokenize_lexed {source : Text} {tokens : List Token} (h : tokenize source = .ok tokens) :
    ∀ t ∈ tokens, t.Lexed := by
  obtain ⟨spans, hspans, h⟩ := parts_of_ok h
  cases h
  intro t ht
  obtain ⟨s, hs, rfl⟩ := List.mem_map.1 ht
  by_cases hfinish : s.token.kind = .finish
  · exact ⟨by simp [hfinish], by simp [hfinish]⟩
  · obtain ⟨q, b, rest, l, hl, hkind, htext⟩ := tokensFrom_lexemes _ _ _ spans hspans s hs hfinish
    obtain ⟨hnumber, hidentifier⟩ := lexeme_spells hl
    exact ⟨by rwa [hkind, htext], by rwa [hkind, htext]⟩

/-- A source is not split for the sake of a number exactly if one, where a token may start, runs into a
word. -/
theorem tokenize_malformed_iff {source : Text} {e : LexError} :
    tokenize source = .error e ∧ e.message = "Malformed number literal" ↔
      ∃ p b rest, Reaches .start source p (b :: rest) ∧ Text.isDigit b = true ∧ RunsIntoWord rest ∧
        e = located "Malformed number literal" p := by
  have hsplit : tokenize source = .error e ↔
      ∃ p b rest, Reaches .start source p (b :: rest) ∧ lexeme p b rest = .error e := by
    rw [← tokensFrom_eq_error_iff .start none, tokenize, bind_eq_error_iff]
    exact or_iff_left nofun
  simp only [hsplit, ← lexeme_malformed_iff]
  constructor
  · rintro ⟨⟨p, b, rest, hreaches, h⟩, hmessage⟩
    exact ⟨p, b, rest, hreaches, h, hmessage⟩
  · rintro ⟨p, b, rest, hreaches, h, hmessage⟩
    exact ⟨⟨p, b, rest, hreaches, h⟩, hmessage⟩

end ScriptMachine
