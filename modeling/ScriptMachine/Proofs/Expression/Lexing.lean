import ScriptMachine.Token.Lexer
import Mathlib.Data.List.Find

set_option autoImplicit false

namespace ScriptMachine

open Lexer

/-- A text between quotes, without the closing quote, and its value. -/
inductive Quotes (quote : UInt8) : Text → Text → Prop
  | empty : Quotes quote [] []
  | plain {b : UInt8} {body value : Text} (hquote : b ≠ quote) (hescape : b ≠ Text.byte '\\')
      (h : Quotes quote body value) : Quotes quote (b :: body) (b :: value)
  | escaped {e : UInt8} {body value : Text} (hquote : quote ≠ Text.byte '\\')
      (h : Quotes quote body value) :
      Quotes quote (Text.byte '\\' :: e :: body) (unescape e :: value)

/-- The part of a number after its point, if it has one. -/
inductive Fractional : Text → Prop
  | none : Fractional []
  | some {d : UInt8} {digits : Text} (hd : Text.isDigit d = true)
      (hdigits : ∀ b ∈ digits, isNumberByte b = true) : Fractional (Text.byte '.' :: d :: digits)

/-- The letter after a number, if there is one. -/
inductive Suffixed : Text → Prop
  | none : Suffixed []
  | some {b : UInt8} (hb : isSuffix b = true) : Suffixed [b]

/-- `Spells spelling kind text`: how a token of a kind with a text is written. -/
inductive Spells : Text → TokenKind → Text → Prop
  | word {b : UInt8} {tail : Text} (hb : isWordStart b = true)
      (htail : ∀ c ∈ tail, isWordByte c = true) :
      Spells (b :: tail) (TokenKind.ofWord (b :: tail)) (b :: tail)
  | number {b : UInt8} {whole part letter : Text} (hb : Text.isDigit b = true)
      (hwhole : ∀ c ∈ whole, isNumberByte c = true) (hpart : Fractional part)
      (hletter : Suffixed letter) :
      Spells (b :: (whole ++ part ++ letter)) .number (b :: (whole ++ part ++ letter))
  | quoted {quote : UInt8} {body value : Text}
      (hquote : quote = Text.byte '"' ∨ quote = Text.byte '\'') (h : Quotes quote body value) :
      Spells (quote :: (body ++ [quote])) .string value
  | sign {text : Text} {kind : TokenKind} (h : (text, kind) ∈ TokenKind.signs) :
      Spells text kind text

theorem Spells.digit {b : UInt8} (hb : Text.isDigit b = true) : Spells [b] .number [b] :=
  @Spells.number b [] [] [] hb nofun .none .none

/-- A source written with the given tokens from a place on; `previous` is the kind of the token
before, if any. Blanks part the tokens, but a number may touch a minus sign. -/
inductive Written : Position → Option TokenKind → List Token → Text → Prop
  | done {p : Position} {previous : Option TokenKind} {blanks : Text}
      (hblanks : ∀ b ∈ blanks, isBlank b = true) : Written p previous [] blanks
  | token {p : Position} {previous : Option TokenKind} {blanks spelling text rest : Text}
      {kind : TokenKind} {ts : List Token} (hblanks : ∀ b ∈ blanks, isBlank b = true)
      (hparted : previous = none ∨ blanks ≠ [] ∨ previous = some .minus ∧ kind = .number)
      (hspells : Spells spelling kind text)
      (hrest : Written ((p.after blanks).after spelling) (some kind) ts rest) :
      Written p previous
        (⟨kind, text, (p.after blanks).line, (p.after blanks).column,
          !blanks.isEmpty && previous.isSome⟩ :: ts)
        (blanks ++ (spelling ++ rest))

namespace Lexer

variable {α : Type} {b : UInt8} {rest : Text}

def StopsAt (p : UInt8 → Bool) (t : Text) : Prop := ∀ b ∈ t.head?, p b = false

theorem takeWhile_stop {p : UInt8 → Bool} {t rest : Text} (ht : ∀ b ∈ t, p b = true)
    (hrest : StopsAt p rest) : (t ++ rest).takeWhile p = t := by
  rw [List.takeWhile_append_of_pos ht]
  cases rest with
  | nil => exact List.append_nil t
  | cons b rest =>
    rw [List.takeWhile_cons, if_neg (by rw [hrest b rfl]; exact Bool.false_ne_true), List.append_nil]

theorem isBlank_cases (h : isBlank b = true) :
    b = Text.byte ' ' ∨ b = Text.byte '\r' ∨ b = Text.byte '\t' := by
  unfold isBlank at h
  simpa [or_assoc] using h

theorem blank_stops (h : isBlank b = true) : isWordByte b = false ∧ isNumberByte b = false ∧
    isSuffix b = false ∧ b ≠ Text.byte '.' := by
  rcases isBlank_cases h with rfl | rfl | rfl <;> decide

def Parted (t : Text) : Prop := ∀ b ∈ t.head?, isBlank b = true

theorem Parted.word (h : Parted rest) : StopsAt isWordByte rest :=
  fun b hb => (blank_stops (h b hb)).1

theorem word_lexeme {tail : Text} (hb : isWordStart b = true) (htail : ∀ c ∈ tail, isWordByte c = true)
    (hrest : Parted rest) (p : Position) :
    lexeme p b (tail ++ rest) = .ok ⟨TokenKind.ofWord (b :: tail), b :: tail, tail.length⟩ := by
  have hnewline : (b == Text.byte '\n') = false := by
    rw [beq_eq_false_iff_ne]
    rintro rfl
    exact absurd hb (by decide)
  unfold lexeme
  rw [hnewline, if_neg Bool.false_ne_true, if_pos hb, word, takeWhile_stop htail hrest.word]

theorem number_stops {part letter : Text} (hpart : Fractional part) (hletter : Suffixed letter)
    (hrest : Parted rest) : StopsAt isNumberByte (part ++ (letter ++ rest)) := by
  intro b hb
  cases hpart with
  | some => cases hb; decide
  | none =>
    cases hletter with
    | none => exact (blank_stops (hrest b hb)).2.1
    | @some s hs =>
      cases hb
      unfold isSuffix at hs
      simp only [Bool.or_eq_true, beq_iff_eq] at hs
      rcases hs with (rfl | rfl) | rfl <;> decide

theorem letter_stops {letter : Text} (hletter : Suffixed letter) (hrest : Parted rest) :
    StopsAt isNumberByte (letter ++ rest) ∧ StopsAt (· == Text.byte '.') (letter ++ rest) := by
  cases hletter with
  | none =>
    refine ⟨fun b hb => (blank_stops (hrest b hb)).2.1, fun b hb => ?_⟩
    exact beq_eq_false_iff_ne.2 (blank_stops (hrest b hb)).2.2.2
  | @some s hs =>
    unfold isSuffix at hs
    simp only [Bool.or_eq_true, beq_iff_eq] at hs
    constructor <;> · rintro b ⟨⟩; rcases hs with (rfl | rfl) | rfl <;> decide

theorem fraction_eq {part letter : Text} (hpart : Fractional part) (hletter : Suffixed letter)
    (hrest : Parted rest) : fraction (part ++ (letter ++ rest)) = part := by
  obtain ⟨hnumber, hpoint⟩ := letter_stops hletter hrest
  cases hpart with
  | none =>
    rw [List.nil_append]
    unfold fraction
    split
    · rename_i p d tail htail
      have hp : (p == Text.byte '.') = false := hpoint p (by rw [htail]; rfl)
      rw [hp, Bool.false_and, if_neg Bool.false_ne_true]
    · rfl
  | @some d digits hd hdigits =>
    have htake := takeWhile_stop hdigits hnumber
    rw [List.cons_append, List.cons_append, fraction, hd, htake]
    rfl

theorem suffix_eq {letter : Text} (hletter : Suffixed letter) (hrest : Parted rest) :
    suffix (letter ++ rest) = letter := by
  cases hletter with
  | none =>
    have hblank : ∀ b ∈ rest.head?, isSuffix b = false :=
      fun b hb => (blank_stops (hrest b hb)).2.2.1
    rw [List.nil_append]
    unfold suffix
    split
    · rw [hblank _ rfl, Bool.false_and, if_neg Bool.false_ne_true]
    · rw [hblank _ rfl, if_neg Bool.false_ne_true]
    · rfl
  | @some s hs =>
    cases rest with
    | nil => exact if_pos hs
    | cons b rest =>
      have hb := hrest.word b rfl
      change (if isSuffix s && !isWordByte b then [s] else []) = [s]
      rw [hs, hb]
      rfl

theorem number_eq {whole part letter : Text} (hwhole : ∀ c ∈ whole, isNumberByte c = true)
    (hpart : Fractional part) (hletter : Suffixed letter) (hrest : Parted rest) :
    number b (whole ++ part ++ letter ++ rest) = some ⟨.number, b :: (whole ++ part ++ letter),
      (whole ++ part ++ letter).length⟩ := by
  have htake := takeWhile_stop hwhole (number_stops hpart hletter hrest)
  have hends : (rest.head?.map isWordByte).getD false = false := by
    cases rest with
    | nil => rfl
    | cons c rest => exact hrest.word c rfl
  rw [List.append_assoc, List.append_assoc]
  unfold number
  rw [htake]
  dsimp only
  rw [List.drop_left, fraction_eq hpart hletter hrest, List.drop_left, suffix_eq hletter hrest,
    List.drop_left, hends, if_neg Bool.false_ne_true]
  rfl

theorem digit_starts_no_word (hb : Text.isDigit b = true) : isWordStart b = false := by
  have hupper : Text.byte '9' < Text.byte 'A' := by decide
  have hlower : Text.byte '9' < Text.byte 'a' := by decide
  have hunderscore : Text.byte '9' < Text.byte '_' := by decide
  unfold Text.isDigit at hb
  unfold isWordStart Text.isLetter
  simp only [Bool.and_eq_true, decide_eq_true_eq] at hb
  simp only [Bool.or_eq_false_iff, Bool.and_eq_false_iff, decide_eq_false_iff_not, UInt8.not_le,
    beq_eq_false_iff_ne]
  grind

theorem number_lexeme {whole part letter : Text} (hb : Text.isDigit b = true)
    (hwhole : ∀ c ∈ whole, isNumberByte c = true) (hpart : Fractional part)
    (hletter : Suffixed letter) (hrest : Parted rest) (p : Position) :
    lexeme p b (whole ++ part ++ letter ++ rest) = .ok ⟨.number, b :: (whole ++ part ++ letter),
      (whole ++ part ++ letter).length⟩ := by
  have hnewline : (b == Text.byte '\n') = false := by
    rw [beq_eq_false_iff_ne]
    rintro rfl
    exact absurd hb (by decide)
  have hword := digit_starts_no_word hb
  unfold lexeme
  rw [hnewline, if_neg Bool.false_ne_true, hword, if_neg Bool.false_ne_true, if_pos hb,
    number_eq hwhole hpart hletter hrest]

theorem quoted_eq {quote : UInt8} {body value : Text} (h : Quotes quote body value) (rest : Text) :
    quoted quote (body ++ quote :: rest) = .ok (value, body.length + 1) := by
  induction h with
  | empty =>
    unfold quoted
    exact if_pos (beq_self_eq_true quote)
  | @plain b body value hquote hescape h ih =>
    have hquote : (b == quote) = false := beq_eq_false_iff_ne.2 hquote
    have hescape : (b == Text.byte '\\') = false := beq_eq_false_iff_ne.2 hescape
    rw [List.cons_append]
    unfold quoted
    rw [hquote, hescape, if_neg Bool.false_ne_true, if_neg Bool.false_ne_true, ih]
    rfl
  | @escaped e body value hquote h ih =>
    have hquote : (Text.byte '\\' == quote) = false := beq_eq_false_iff_ne.2 hquote.symm
    rw [List.cons_append, List.cons_append]
    unfold quoted
    rw [hquote, if_neg Bool.false_ne_true, if_pos (beq_self_eq_true _)]
    dsimp only
    rw [ih]
    rfl

theorem quoted_lexeme {quote : UInt8} {body value : Text}
    (hquote : quote = Text.byte '"' ∨ quote = Text.byte '\'') (h : Quotes quote body value)
    (rest : Text) (p : Position) :
    lexeme p quote (body ++ [quote] ++ rest) = .ok ⟨.string, value, (body ++ [quote]).length⟩ := by
  have hkinds : (quote == Text.byte '\n') = false ∧ isWordStart quote = false ∧
      Text.isDigit quote = false ∧
      (quote == Text.byte '"' || quote == Text.byte '\'') = true := by
    rcases hquote with rfl | rfl <;> decide
  obtain ⟨hnewline, hword, hdigit, hquotes⟩ := hkinds
  unfold lexeme
  rw [hnewline, if_neg Bool.false_ne_true, hword, if_neg Bool.false_ne_true, hdigit,
    if_neg Bool.false_ne_true, if_pos hquotes, List.append_assoc, List.singleton_append,
    quoted_eq h, List.length_append]
  rfl

theorem isPrefixOf_stop {s t : Text} (hrest : ∀ b ∈ rest.head?, b ∉ s) :
    s.isPrefixOf (t ++ rest) = s.isPrefixOf t := by
  induction s generalizing t with
  | nil => rw [List.isPrefixOf_nil_left, List.isPrefixOf_nil_left]
  | cons c s ih =>
    cases t with
    | nil =>
      cases rest with
      | nil => rfl
      | cons b rest =>
        have hne : (c == b) = false := by
          rw [beq_eq_false_iff_ne]
          rintro rfl
          exact hrest c rfl List.mem_cons_self
        rw [List.nil_append, List.isPrefixOf_cons_cons, hne, Bool.false_and]
        rfl
    | cons d t =>
      rw [List.cons_append, List.isPrefixOf_cons_cons, List.isPrefixOf_cons_cons,
        ih fun b hb hm => hrest b hb (List.mem_cons_of_mem c hm)]

theorem sign_eq {text : Text} {kind : TokenKind} (h : (text, kind) ∈ TokenKind.signs)
    (hrest : ∀ b ∈ rest.head?, ∀ s ∈ TokenKind.signs, b ∉ s.1) :
    sign (text ++ rest) = some ⟨kind, text, text.length - 1⟩ := by
  have hlongest : ∀ s ∈ TokenKind.signs,
      TokenKind.signs.find? (fun s' => s'.1.isPrefixOf s.1) = some s := by decide +kernel
  have hsame : TokenKind.signs.find? (fun s => s.1.isPrefixOf (text ++ rest)) =
      TokenKind.signs.find? (fun s => s.1.isPrefixOf text) := by
    refine List.find?_congr fun s hs => ?_
    exact isPrefixOf_stop fun b hb => hrest b hb s hs
  unfold sign
  rw [hsame, hlongest _ h]
  rfl

theorem sign_lexeme {tail : Text} {kind : TokenKind} (h : (b :: tail, kind) ∈ TokenKind.signs)
    (hrest : ∀ b ∈ rest.head?, ∀ s ∈ TokenKind.signs, b ∉ s.1) (p : Position) :
    lexeme p b (tail ++ rest) = .ok ⟨kind, b :: tail, tail.length⟩ := by
  have hheads : ∀ s ∈ TokenKind.signs, ∀ b ∈ s.1.head?, (b == Text.byte '\n') = false ∧
      isWordStart b = false ∧ Text.isDigit b = false ∧
      (b == Text.byte '"' || b == Text.byte '\'') = false := by decide +kernel
  obtain ⟨hnewline, hword, hdigit, hquotes⟩ := hheads _ h b rfl
  unfold lexeme
  rw [hnewline, if_neg Bool.false_ne_true, hword, if_neg Bool.false_ne_true, hdigit,
    if_neg Bool.false_ne_true, hquotes, if_neg Bool.false_ne_true, ← List.cons_append,
    sign_eq h hrest]
  rfl

def Follows (kind : TokenKind) (t : Text) : Prop :=
  ∀ b ∈ t.head?, isBlank b = true ∨ kind = .minus ∧ Text.isDigit b = true

theorem Follows.parted {kind : TokenKind} (h : Follows kind rest) (hkind : kind ≠ .minus) :
    Parted rest := fun b hb => (h b hb).resolve_right fun hd => hkind hd.1

theorem Follows.no_sign {kind : TokenKind} (h : Follows kind rest) :
    ∀ b ∈ rest.head?, ∀ s ∈ TokenKind.signs, b ∉ s.1 := by
  have hsigns : ∀ s ∈ TokenKind.signs, ∀ b ∈ s.1, isBlank b = false ∧ Text.isDigit b = false := by
    decide +kernel
  intro b hb s hs hm
  obtain ⟨hblank, hdigit⟩ := hsigns s hs b hm
  rcases h b hb with h | ⟨-, h⟩
  · rw [hblank] at h
    cases h
  · rw [hdigit] at h
    cases h

theorem ofWord_kinds (t : Text) : TokenKind.ofWord t ≠ .newline ∧ TokenKind.ofWord t ≠ .minus ∧
    TokenKind.ofWord t ≠ .number := by
  have hkeywords : ∀ e ∈ TokenKind.keywords, e.2 ≠ .newline ∧ e.2 ≠ .minus ∧ e.2 ≠ .number := by
    decide +kernel
  unfold TokenKind.ofWord
  cases h : TokenKind.keywords.lookup t with
  | none => decide
  | some kind =>
    obtain ⟨front, back, hsplit, -⟩ := List.lookup_eq_some_iff.1 h
    refine hkeywords (t, kind) ?_
    rw [hsplit]
    exact List.mem_append_right _ List.mem_cons_self

def Solid (b : UInt8) : Prop :=
  isBlank b = false ∧ (b == Text.byte '#') = false ∧ (b == Text.byte '\\') = false

theorem solid_of {p : UInt8 → Bool} (hb : p b = true)
    (hp : ∀ c ∈ [Text.byte ' ', Text.byte '\r', Text.byte '\t', Text.byte '#', Text.byte '\\'],
      p c = false) : Solid b := by
  have hne : ∀ c, p c = false → b ≠ c := by
    rintro c hc rfl
    rw [hc] at hb
    cases hb
  simp only [List.forall_mem_cons, List.not_mem_nil, false_implies, implies_true, and_true] at hp
  obtain ⟨hspace, hreturn, htab, hcomment, hescape⟩ := hp
  refine ⟨?_, beq_eq_false_iff_ne.2 (hne _ hcomment), beq_eq_false_iff_ne.2 (hne _ hescape)⟩
  rw [← Bool.not_eq_true]
  intro hblank
  rcases isBlank_cases hblank with h | h | h
  · exact hne _ hspace h
  · exact hne _ hreturn h
  · exact hne _ htab h

/-- What is written as a token is read as it. -/
theorem spells_lexeme {spelling text : Text} {kind : TokenKind} (h : Spells spelling kind text)
    (hrest : Follows kind rest) : ∃ b tail, spelling = b :: tail ∧ Solid b ∧ kind ≠ .newline ∧
      ∀ p, lexeme p b (tail ++ rest) = .ok ⟨kind, text, tail.length⟩ := by
  cases h with
  | @word b tail hb htail =>
    obtain ⟨hnewline, hminus, -⟩ := ofWord_kinds (b :: tail)
    exact ⟨b, tail, rfl, solid_of hb (by decide +kernel), hnewline,
      word_lexeme hb htail (hrest.parted hminus)⟩
  | @number b whole part letter hb hwhole hpart hletter =>
    exact ⟨b, _, rfl, solid_of hb (by decide +kernel), by decide,
      number_lexeme hb hwhole hpart hletter (hrest.parted (by decide))⟩
  | @quoted quote body value hquote h =>
    have hsolid : Solid quote := by
      unfold Solid
      rcases hquote with rfl | rfl <;> decide
    exact ⟨quote, _, rfl, hsolid, by decide, quoted_lexeme hquote h rest⟩
  | sign h =>
    have hsigns : ∀ s ∈ TokenKind.signs, s.1 ≠ [] ∧ s.2 ≠ .newline ∧ ∀ b ∈ s.1.head?,
        isBlank b = false ∧ (b == Text.byte '#') = false ∧ (b == Text.byte '\\') = false := by
      decide +kernel
    obtain ⟨hne, hnewline, hsolid⟩ := hsigns _ h
    cases spelling with
    | nil => exact absurd rfl hne
    | cons b tail => exact ⟨b, tail, rfl, hsolid b rfl, hnewline, sign_lexeme h hrest.no_sign⟩

theorem skipLength_blanks {blanks : Text} (h : ∀ b ∈ blanks, isBlank b = true) (rest : Text)
    (hrest : ∀ b ∈ rest.head?, Solid b) : skipLength (blanks ++ rest) = blanks.length := by
  induction blanks with
  | nil =>
    cases rest with
    | nil => rfl
    | cons b rest =>
      obtain ⟨hblank, hcomment, hescape⟩ := hrest b rfl
      rw [List.nil_append]
      unfold skipLength
      rw [hblank, hcomment, if_neg Bool.false_ne_true, if_neg Bool.false_ne_true]
      split
      · rfl
      · rw [hescape, Bool.false_and, if_neg Bool.false_ne_true]
        rfl
  | cons b blanks ih =>
    rw [List.cons_append]
    unfold skipLength
    rw [if_pos (h b List.mem_cons_self), ih fun c hc => h c (List.mem_cons_of_mem b hc)]
    rfl

theorem tokensFrom_end {blanks : Text} (h : ∀ b ∈ blanks, isBlank b = true) (p : Position)
    (previous : Option TokenKind) : ∃ finish : Spanned, finish.token.kind = .finish ∧
      tokensFrom p previous blanks = .ok [finish] := by
  have hskip := skipLength_blanks h [] nofun
  rw [List.append_nil] at hskip
  rw [tokensFrom]
  split
  · exact ⟨_, rfl, rfl⟩
  · rename_i b rest hdrop
    rw [hskip, List.drop_length] at hdrop
    cases hdrop

theorem tokensFrom_token {blanks spelling text : Text} {kind : TokenKind} {p : Position}
    {previous : Option TokenKind} {others : List Spanned} (hblanks : ∀ b ∈ blanks, isBlank b = true)
    (hspells : Spells spelling kind text) (hrest : Follows kind rest)
    (hprevious : previous ≠ some .newline)
    (hothers : tokensFrom ((p.after blanks).after spelling) (some kind) rest = .ok others) :
    ∃ first : Spanned, first.token = ⟨kind, text, (p.after blanks).line, (p.after blanks).column,
        !blanks.isEmpty && previous.isSome⟩ ∧
      tokensFrom p previous (blanks ++ (spelling ++ rest)) = .ok (first :: others) := by
  obtain ⟨b, tail, rfl, hsolid, hnewline, hlexeme⟩ := spells_lexeme hspells hrest
  have hskip := skipLength_blanks hblanks (b :: (tail ++ rest)) (by rintro _ ⟨⟩; exact hsolid)
  have hspaced : (decide (0 < blanks.length) && previous.isSome && decide (previous ≠ some .newline)) =
      (!blanks.isEmpty && previous.isSome) := by
    rw [decide_eq_true hprevious, Bool.and_true]
    cases blanks <;> rfl
  refine ⟨⟨⟨kind, text, _, _, _⟩, (p.after blanks).offset, ((p.after blanks).after (b :: tail)).offset⟩,
    rfl, ?_⟩
  rw [List.cons_append, tokensFrom, hskip]
  split
  · rename_i hdrop
    rw [List.drop_left] at hdrop
    cases hdrop
  · rename_i b' rest' hdrop
    rw [List.drop_left] at hdrop
    cases hdrop
    rw [List.take_left, hlexeme]
    simp only [bind, Except.bind, decide_eq_false hnewline, Bool.false_and, Bool.false_eq_true,
      if_false, List.take_left, List.drop_left]
    rw [hothers, hspaced]
    rfl

end Lexer

theorem Spells.number_head {spelling text rest : Text} (h : Spells spelling .number text) :
    ∀ b ∈ (spelling ++ rest).head?, Text.isDigit b = true := by
  generalize hkind : TokenKind.number = kind at h
  intro b hb
  cases h with
  | word _ _ => exact absurd hkind.symm (ofWord_kinds _).2.2
  | number hdigit _ _ _ =>
    cases hb
    exact hdigit
  | quoted _ _ => cases hkind
  | sign h =>
    have hsigns : ∀ s ∈ TokenKind.signs, s.2 ≠ .number := by decide
    exact absurd hkind.symm (hsigns _ h)

namespace Written

theorem follows {p : Position} {kind : TokenKind} {ts : List Token} {rest : Text}
    (h : Written p (some kind) ts rest) : Lexer.Follows kind rest := by
  intro b hb
  cases h with
  | done hblanks => exact Or.inl (hblanks b (List.mem_of_head? hb))
  | @token _ _ blanks spelling text rest kind' ts hblanks hparted hspells hrest =>
    cases blanks with
    | cons c blanks =>
      cases hb
      exact Or.inl (hblanks b List.mem_cons_self)
    | nil =>
      rcases hparted with hparted | hparted | ⟨hminus, hnumber⟩
      · cases hparted
      · exact absurd rfl hparted
      · cases hminus
        subst hnumber
        exact Or.inr ⟨rfl, hspells.number_head b hb⟩

theorem tokensFrom_eq {p : Position} {previous : Option TokenKind} {ts : List Token} {source : Text}
    (h : Written p previous ts source) (hprevious : previous ≠ some .newline) :
    ∃ (spans : List Spanned) (finish : Token), finish.kind = .finish ∧
      tokensFrom p previous source = .ok spans ∧ spans.map (·.token) = ts ++ [finish] := by
  induction h with
  | @done p previous blanks hblanks =>
    obtain ⟨finish, hfinish, hrun⟩ := tokensFrom_end hblanks p previous
    exact ⟨[finish], finish.token, hfinish, hrun, rfl⟩
  | @token p previous blanks spelling text rest kind ts hblanks hparted hspells hrest ih =>
    obtain ⟨-, -, -, -, hnewline, -⟩ := spells_lexeme hspells hrest.follows
    have hkind : some kind ≠ some TokenKind.newline := by
      rintro ⟨⟩
      exact hnewline rfl
    obtain ⟨spans, finish, hfinish, hrun, hspans⟩ := ih hkind
    obtain ⟨first, hfirst, hrun⟩ := tokensFrom_token hblanks hspells hrest.follows hprevious hrun
    refine ⟨first :: spans, finish, hfinish, hrun, ?_⟩
    rw [List.map_cons, hfirst, hspans]
    rfl

theorem tokenize_eq {ts : List Token} {source : Text} (h : Written .start none ts source) :
    ∃ finish : Token, finish.kind = .finish ∧ tokenize source = .ok (ts ++ [finish]) := by
  obtain ⟨spans, finish, hfinish, hrun, hspans⟩ := h.tokensFrom_eq nofun
  refine ⟨finish, hfinish, ?_⟩
  unfold tokenize ScriptMachine.spans
  rw [hrun, ← hspans]
  rfl

end Written

end ScriptMachine
