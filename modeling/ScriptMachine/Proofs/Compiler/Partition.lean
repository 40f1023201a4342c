import ScriptMachine.Proofs.Compiler.SourcedPrograms
import ScriptMachine.Proofs.Expression.Lexing
import Mathlib.Data.List.Induction
import Mathlib.Data.List.TakeWhile

set_option autoImplicit false

/-!
# Tokens partition the source

The tokens of a source stand for pieces of it that follow one another, and what lies between them is
skipped: blanks, escaped line ends, comments, and after a line end that is a token further line ends. The
invariant of reading, `Lexer.Pending`, says which bytes in front of the place have been skipped since the last
token. Main statement: `tokenize_partition`.
-/
namespace ScriptMachine

namespace Position

/-- How many bytes stand after the last line end of a text. -/
def sinceNewline (t : Text) : Nat := (t.reverse.takeWhile (· != Text.byte '\n')).length

theorem after_append (p : Position) (t u : Text) : p.after (t ++ u) = (p.after t).after u := List.foldl_append

theorem after_start (t : Text) :
    start.after t = ⟨t.length, 1 + t.count (Text.byte '\n'), 1 + sinceNewline t⟩ := by
  induction t using List.reverseRecOn with
  | nil => rfl
  | append_singleton t b ih =>
    rw [after_append, ih]
    unfold after sinceNewline
    rw [List.foldl_cons, List.foldl_nil, next, List.reverse_append, List.count_append]
    cases hb : b == Text.byte '\n' with
    | true =>
      obtain rfl := eq_of_beq hb
      simp [Nat.add_assoc]
    | false =>
      have hne : (b != Text.byte '\n') = true := by simp [bne, hb]
      simp [hne, List.count_singleton, hb, Nat.add_assoc]

theorem offset_after_start (t : Text) : (start.after t).offset = t.length := by rw [after_start]

end Position

namespace Lexer

/-- The bytes `gap` in front of `rest` belong to no token: blanks, escaped line ends, comments, each up to the
end of its line, and line ends where `lines` says so. -/
inductive Skipped (lines : Bool) : Text → Text → Prop where
  | done (rest : Text) : Skipped lines [] rest
  | blank {b : UInt8} {gap rest : Text} : isBlank b = true → Skipped lines gap rest →
      Skipped lines (b :: gap) rest
  | escape {gap rest : Text} : Skipped lines gap rest →
      Skipped lines (Text.byte '\\' :: Text.byte '\n' :: gap) rest
  | comment {body gap rest : Text} : (∀ b ∈ body, b ≠ Text.byte '\n') →
      (∀ b ∈ (gap ++ rest).head?, b = Text.byte '\n') → Skipped lines gap rest →
      Skipped lines (Text.byte '#' :: (body ++ gap)) rest
  | newline {gap rest : Text} : lines = true → Skipped lines gap rest →
      Skipped lines (Text.byte '\n' :: gap) rest

theorem Skipped.append {lines : Bool} {gap more rest : Text} (h : Skipped lines gap (more ++ rest))
    (hmore : Skipped lines more rest) : Skipped lines (gap ++ more) rest := by
  generalize hall : more ++ rest = all at h
  induction h with
  | done => exact hmore
  | blank hb _ ih => exact .blank hb (ih hall)
  | escape _ ih => exact .escape (ih hall)
  | @comment body gap _ hbody hend _ ih =>
    subst hall
    rw [List.cons_append, List.append_assoc]
    exact .comment hbody (by rwa [List.append_assoc]) (ih rfl)
  | newline hlines _ ih => exact .newline hlines (ih hall)

theorem commentLength_skipped (lines : Bool) (t : Text) :
    Skipped lines (Text.byte '#' :: t.take (commentLength t)) (t.drop (commentLength t)) := by
  let p : UInt8 → Bool := (· != Text.byte '\n')
  have hsplit : t.takeWhile p ++ t.dropWhile p = t := List.takeWhile_append_dropWhile
  have hbody : t.take (commentLength t) = t.takeWhile p :=
    (List.prefix_iff_eq_take.1 (List.takeWhile_prefix p)).symm
  have hrest : t.drop (commentLength t) = t.dropWhile p := by
    calc
      t.drop (commentLength t) = (t.takeWhile p ++ t.dropWhile p).drop (t.takeWhile p).length := by
        rw [hsplit]
        rfl
      _ = t.dropWhile p := List.drop_left
  rw [hbody, hrest, ← List.append_nil (t.takeWhile p)]
  refine .comment (fun b hb => by simpa [p] using List.mem_takeWhile_imp hb) (fun b hb => ?_) (.done _)
  rw [List.nil_append, ← List.find?_not_eq_head?_dropWhile] at hb
  simpa [p] using List.find?_some hb

theorem skipLength_skipped (lines : Bool) (t : Text) :
    Skipped lines (t.take (skipLength t)) (t.drop (skipLength t)) := by
  fun_induction skipLength t with
  | case1 => exact .done []
  | case2 b rest hb ih => exact .blank hb ih
  | case3 b rest _ hb =>
    obtain rfl := eq_of_beq hb
    exact commentLength_skipped lines rest
  | case4 b => exact .done _
  | case5 b c rest _ _ hescape ih =>
    obtain ⟨hb, hc⟩ := Bool.and_eq_true_iff.1 hescape
    obtain rfl := eq_of_beq hb
    obtain rfl := eq_of_beq hc
    exact .escape ih
  | case6 => exact .done _

/-- What a token takes of the bytes at hand. -/
structure Lexeme.Takes (l : Lexeme) (b : UInt8) (rest : Text) : Prop where
  fits : l.more ≤ rest.length
  kind : l.kind ≠ .finish
  newline : l.kind = .newline → b = Text.byte '\n' ∧ l.more = 0
  verbatim : l.kind ≠ .newline → l.kind ≠ .string → l.text = b :: rest.take l.more

section Lexemes
variable {b : UInt8} {t rest : Text} {kind : TokenKind} {l : Lexeme}

theorem Lexeme.Takes.of_prefix (h : t <+: rest) (hfinish : kind ≠ .finish) (hnewline : kind ≠ .newline) :
    Lexeme.Takes ⟨kind, b :: t, t.length⟩ b rest where
  fits := h.length_le
  kind := hfinish
  newline := fun hkind => absurd hkind hnewline
  verbatim := fun _ _ => congrArg (b :: ·) (List.prefix_iff_eq_take.1 h)

theorem ofWord_ne_finish (t : Text) : TokenKind.ofWord t ≠ .finish := by
  have hkeywords : ∀ e ∈ TokenKind.keywords, e.2 ≠ .finish := by decide
  unfold TokenKind.ofWord
  cases h : TokenKind.keywords.lookup t with
  | none => decide
  | some kind =>
    obtain ⟨front, back, hsplit, -⟩ := List.lookup_eq_some_iff.1 h
    exact hkeywords (t, kind) (hsplit ▸ List.mem_append_right _ List.mem_cons_self)

theorem word_takes (b : UInt8) (rest : Text) : (word b rest).Takes b rest :=
  Lexeme.Takes.of_prefix (List.takeWhile_prefix _) (ofWord_ne_finish _) (ofWord_kinds _).1

theorem prefix_of_drop {a : Text} (ha : a <+: t) (hrest : rest <+: t.drop a.length) : a ++ rest <+: t := by
  obtain ⟨t, rfl⟩ := ha
  rw [List.drop_left] at hrest
  exact (List.prefix_append_right_inj a).2 hrest

theorem fraction_begins (t : Text) : fraction t <+: t := by
  unfold fraction
  split
  · rename_i p d rest
    split
    · exact List.cons_prefix_cons.2 ⟨rfl, List.cons_prefix_cons.2 ⟨rfl, List.takeWhile_prefix _⟩⟩
    · exact List.nil_prefix
  · exact List.nil_prefix

theorem suffix_begins (t : Text) : suffix t <+: t := by
  unfold suffix
  split
  · split
    · exact List.cons_prefix_cons.2 ⟨rfl, List.nil_prefix⟩
    · exact List.nil_prefix
  · split
    · exact List.prefix_rfl
    · exact List.nil_prefix
  · exact List.nil_prefix

theorem number_takes (h : number b rest = some l) : l.Takes b rest := by
  unfold number at h
  dsimp only at h
  split at h
  · cases h
  · cases h
    refine Lexeme.Takes.of_prefix ?_ nofun nofun
    have hwhole : rest.takeWhile isNumberByte <+: rest := List.takeWhile_prefix _
    refine prefix_of_drop (prefix_of_drop hwhole (fraction_begins _)) ?_
    rw [List.length_append, ← List.drop_drop]
    exact suffix_begins _

theorem quoted_fits {quote : UInt8} {value : Text} {n : Nat} (h : quoted quote t = .ok (value, n)) :
    n ≤ t.length := by
  fun_induction quoted quote t generalizing value n with
  | case1 => cases h
  | case2 => cases h; exact Nat.succ_le_succ (Nat.zero_le _)
  | case3 => cases h
  | case4 b _ _ e rest ih =>
    obtain ⟨⟨v, k⟩, hrest, h⟩ := parts_of_ok h
    cases h
    exact Nat.add_le_add_right (ih hrest) 2
  | case5 b rest _ _ ih =>
    obtain ⟨⟨v, k⟩, hrest, h⟩ := parts_of_ok h
    cases h
    exact Nat.succ_le_succ (ih hrest)

theorem sign_takes (h : sign (b :: rest) = some l) : l.Takes b rest := by
  have hsigns : ∀ s ∈ TokenKind.signs, s.1 ≠ [] ∧ s.2 ≠ .finish ∧ s.2 ≠ .newline := by decide
  obtain ⟨⟨text, kind⟩, hfind, hl⟩ := Option.map_eq_some_iff.1 h
  cases hl
  obtain ⟨hne, hfinish, hnewline⟩ := hsigns _ (List.mem_of_find?_eq_some hfind)
  have hstarts := List.find?_some hfind
  have hprefix : text <+: b :: rest := List.isPrefixOf_iff_prefix.1 hstarts
  cases text with
  | nil => exact absurd rfl hne
  | cons c text =>
    obtain ⟨rfl, htext⟩ := List.cons_prefix_cons.1 hprefix
    exact Lexeme.Takes.of_prefix htext hfinish hnewline

theorem lexeme_takes {p : Position} (h : lexeme p b rest = .ok l) : l.Takes b rest := by
  unfold lexeme at h
  split at h
  · rename_i hb
    cases h
    exact ⟨Nat.zero_le _, nofun, fun _ => ⟨eq_of_beq hb, rfl⟩, fun hkind => absurd rfl hkind⟩
  split at h
  · cases h
    exact word_takes b rest
  split at h
  · split at h
    · rename_i l' hnumber
      cases h
      exact number_takes hnumber
    · cases h
  split at h
  · split at h
    · rename_i value n hquoted
      cases h
      exact ⟨quoted_fits hquoted, nofun, nofun, fun _ hkind => absurd rfl hkind⟩
    all_goals cases h
  · split at h
    · rename_i l' hsign
      cases h
      exact sign_takes hsign
    · cases h

end Lexemes

/-- Where the last token, if any, ends. -/
def endOf (last : Option Spanned) : Nat := (last.map Spanned.stop).getD 0

def isNewline (last : Option Spanned) : Bool := last.any fun s => s.token.kind = .newline

/-- How a token follows the last one, or starts the source. -/
structure Continues (source : Text) (last : Option Spanned) (s : Spanned) : Prop where
  order : endOf last ≤ s.start
  gap : Skipped (isNewline last) (source.extract (endOf last) s.start) (source.drop s.start)
  separate : isNewline last = true → s.token.kind ≠ .newline
  spaced : s.token.spaceBefore = true ↔
    s.token.kind ≠ .finish ∧ last.isSome = true ∧ isNewline last = false ∧ endOf last < s.start

/-- What a token tells about its piece of the source. -/
structure Describes (source : Text) (s : Spanned) : Prop where
  line : s.token.line = 1 + (source.take s.start).count (Text.byte '\n')
  column : s.token.column = 1 + Position.sinceNewline (source.take s.start)
  verbatim : s.token.kind ≠ .finish → s.token.kind ≠ .newline → s.token.kind ≠ .string →
    s.token.text = source.extract s.start s.stop

/-- The tokens from a place on, after the last one before it. -/
inductive Tiled (source : Text) : Option Spanned → List Spanned → Prop where
  | finish {last : Option Spanned} {s : Spanned} : Continues source last s → Describes source s →
      s.token.kind = .finish → s.start = source.length → s.stop = source.length → Tiled source last [s]
  | token {last : Option Spanned} {s : Spanned} {spans : List Spanned} : Continues source last s →
      Describes source s → s.token.kind ≠ .finish → s.start < s.stop → Tiled source (some s) spans →
      Tiled source last (s :: spans)

variable {source read ahead rest t : Text} {last : Option Spanned} {n : Nat} {b : UInt8} {l : Lexeme}

/-- The source has been read up to a place; the bytes since the last token have been skipped. Unless that is a
line end, they are `n`. -/
structure Pending (source : Text) (last : Option Spanned) (n : Nat) (read ahead : Text) : Prop where
  source : source = read ++ ahead
  order : endOf last ≤ read.length
  gap : Skipped (isNewline last) (read.drop (endOf last)) ahead
  count : isNewline last = false → read.length = endOf last + n

theorem Pending.start (source : Text) : Pending source none 0 [] source :=
  ⟨rfl, Nat.le_refl 0, .done source, fun _ => rfl⟩

theorem Pending.skip (h : Pending source last 0 read t) :
    Pending source last (t.take (skipLength t)).length (read ++ t.take (skipLength t))
      (t.drop (skipLength t)) where
  source := by rw [h.source, List.append_assoc, List.take_append_drop]
  order := h.order.trans (by simp)
  gap := by
    rw [List.drop_append_of_le_length h.order]
    refine Skipped.append ?_ (skipLength_skipped _ t)
    rw [List.take_append_drop]
    exact h.gap
  count := fun hlast => by rw [List.length_append, h.count hlast, Nat.add_zero]

theorem Pending.newline (h : Pending source last n read (Text.byte '\n' :: rest))
    (hlast : isNewline last = true) : Pending source last 0 (read ++ [Text.byte '\n']) rest where
  source := by rw [h.source, List.append_assoc, List.singleton_append]
  order := h.order.trans (by simp)
  gap := by
    rw [List.drop_append_of_le_length h.order]
    exact Skipped.append h.gap (.newline hlast (.done rest))
  count := fun hno => by rw [hlast] at hno; cases hno

theorem Pending.token (h : Pending source last n read (b :: rest)) {s : Spanned}
    (hstop : s.stop = (read ++ b :: rest.take l.more).length) :
    Pending source (some s) 0 (read ++ b :: rest.take l.more) (rest.drop l.more) := by
  have hend : endOf (some s) = (read ++ b :: rest.take l.more).length := hstop
  constructor
  case source => rw [h.source, List.append_assoc, List.cons_append, List.take_append_drop]
  case order => exact hend.le
  case gap =>
    rw [hend, List.drop_length]
    exact .done _
  case count => exact fun _ => hend.symm

theorem Pending.continues (h : Pending source last n read ahead) {s : Spanned}
    (hstart : s.start = read.length)
    (hseparate : isNewline last = true → s.token.kind ≠ .newline)
    (hspaced : s.token.spaceBefore = true ↔
      s.token.kind ≠ .finish ∧ last.isSome = true ∧ isNewline last = false ∧ 0 < n) :
    Continues source last s where
  order := hstart ▸ h.order
  gap := by
    have hgap : source.extract (endOf last) read.length = read.drop (endOf last) := by
      rw [h.source, List.extract, List.drop_append_of_le_length h.order]
      exact List.take_left' List.length_drop
    have hahead : source.drop read.length = ahead := by rw [h.source, List.drop_left]
    rw [hstart, hgap, hahead]
    exact h.gap
  separate := hseparate
  spaced := by
    rw [hspaced, hstart]
    refine and_congr_right fun _ => and_congr_right fun _ => and_congr_right fun hlast => ?_
    rw [h.count hlast]
    omega

theorem Pending.describes (h : Pending source last n read ahead) {s : Spanned}
    (hstart : s.start = read.length)
    (hline : s.token.line = (Position.start.after read).line)
    (hcolumn : s.token.column = (Position.start.after read).column)
    (hverbatim : s.token.kind ≠ .finish → s.token.kind ≠ .newline → s.token.kind ≠ .string →
      s.token.text = ahead.take (s.stop - s.start)) : Describes source s := by
  have hread : source.take read.length = read := by rw [h.source, List.take_left]
  have hahead : source.drop read.length = ahead := by rw [h.source, List.drop_left]
  constructor
  case line => rw [hline, hstart, hread, Position.after_start]
  case column => rw [hcolumn, hstart, hread, Position.after_start]
  case verbatim =>
    intro hfinish hnewline hstring
    rw [hverbatim hfinish hnewline hstring, List.extract, hstart, hahead]

def spanOf (read : Text) (b : UInt8) (rest : Text) (l : Lexeme) (spaced : Bool) : Spanned :=
  let p := Position.start.after read
  ⟨⟨l.kind, l.text, p.line, p.column, spaced⟩, p.offset, (p.after (b :: rest.take l.more)).offset⟩

theorem Pending.reads (h : Pending source last n read (b :: rest)) (hl : l.Takes b rest) {spaced : Bool}
    (hseparate : isNewline last = true → l.kind ≠ .newline)
    (hspaced : spaced = true ↔ last.isSome = true ∧ isNewline last = false ∧ 0 < n) :
    Continues source last (spanOf read b rest l spaced) ∧ Describes source (spanOf read b rest l spaced) ∧
      (spanOf read b rest l spaced).start < (spanOf read b rest l spaced).stop ∧
      Pending source (some (spanOf read b rest l spaced)) 0 (read ++ b :: rest.take l.more)
        (rest.drop l.more) := by
  have hstart : (spanOf read b rest l spaced).start = read.length := Position.offset_after_start read
  have hstop : (spanOf read b rest l spaced).stop = (read ++ b :: rest.take l.more).length := by
    rw [← Position.offset_after_start, Position.after_append]
    rfl
  have hlength : (read ++ b :: rest.take l.more).length = read.length + (l.more + 1) := by
    rw [List.length_append, List.length_cons, List.length_take, Nat.min_eq_left hl.fits]
  refine ⟨h.continues hstart hseparate ?_, h.describes hstart rfl rfl fun _ hplain hstring => ?_, ?_,
    h.token hstop⟩
  · exact hspaced.trans (and_iff_right hl.kind).symm
  · rw [hstart, hstop, hlength, Nat.add_sub_cancel_left, List.take_succ_cons]
    exact hl.verbatim hplain hstring
  · omega

theorem tokensFrom_tiled {p : Position} {previous : Option TokenKind} :
    ∀ last read, p = Position.start.after read → previous = last.map (·.token.kind) →
      Pending source last 0 read t → ∀ spans, tokensFrom p previous t = .ok spans →
        Tiled source last spans := by
  fun_induction tokensFrom p previous t with
  | case1 p previous t skipped place hdrop =>
    rintro last read rfl hprevious h _ ⟨⟩
    have hskip := h.skip
    have hread : read ++ t.take skipped = source := by
      rw [hskip.source, hdrop, List.append_nil]
    have hplace : place = Position.start.after (read ++ t.take skipped) := (Position.after_append ..).symm
    have hoffset : place.offset = (read ++ t.take skipped).length := by
      rw [hplace, Position.offset_after_start]
    have hend : place.offset = source.length := by rw [hoffset, hread]
    refine .finish (hskip.continues hoffset (by simp) (by simp)) ?_ rfl hend hend
    exact hskip.describes hoffset (by rw [hplace]) (by rw [hplace]) fun hkind => absurd rfl hkind
  | case2 p previous t skipped place b rest hdrop ihSame ihNext =>
    rintro last read rfl hprevious h spans hspans
    obtain ⟨l, hl, hspans⟩ := parts_of_ok hspans
    have htakes := lexeme_takes hl
    have hskip := h.skip
    rw [hdrop] at hskip
    have hplace : place = Position.start.after (read ++ t.take skipped) := (Position.after_append ..).symm
    have hnext : place.after (b :: rest.take l.more) =
        Position.start.after (read ++ t.take skipped ++ b :: rest.take l.more) := by
      rw [hplace, ← Position.after_append]
    have hnewline : isNewline last = true ↔ previous = some .newline := by
      rw [hprevious]
      cases last <;> simp [isNewline]
    dsimp only at hspans
    split at hspans
    · rename_i hcollapse
      obtain ⟨hkind, hlast⟩ : l.kind = .newline ∧ previous = some .newline := by simpa using hcollapse
      obtain ⟨rfl, hmore⟩ := htakes.newline hkind
      have hpending : Pending source last 0
          (read ++ t.take skipped ++ Text.byte '\n' :: rest.take l.more) (rest.drop l.more) := by
        rw [hmore]
        exact hskip.newline (hnewline.2 hlast)
      exact ihSame l last _ hnext hprevious hpending spans hspans
    · rename_i hkept
      obtain ⟨others, hothers, hspans⟩ := parts_of_ok hspans
      cases hspans
      have hseparate : isNewline last = true → l.kind ≠ .newline := by
        intro hlast hkind
        refine hkept ?_
        rw [Bool.and_eq_true, decide_eq_true_iff, decide_eq_true_iff]
        exact ⟨hkind, hnewline.1 hlast⟩
      have hspaced : (0 < skipped && previous.isSome && previous ≠ some .newline) = true ↔
          last.isSome = true ∧ isNewline last = false ∧ 0 < (t.take skipped).length := by
        have hskipped : (t.take skipped).length = skipped := by
          have hlength := congrArg List.length hdrop
          rw [List.length_drop, List.length_cons] at hlength
          exact List.length_take_of_le (by omega)
        have hsome : previous.isSome = last.isSome := by rw [hprevious, Option.isSome_map]
        rw [hskipped, ← hsome, ← Bool.not_eq_true, hnewline]
        simp only [Bool.and_eq_true, decide_eq_true_iff]
        tauto
      obtain ⟨hcontinues, hdescribes, horder, hpending⟩ := hskip.reads htakes hseparate hspaced
      rw [spanOf, ← hplace] at hcontinues hdescribes horder hpending
      exact .token hcontinues hdescribes htakes.kind horder (ihNext l _ _ hnext rfl hpending others hothers)

namespace Tiled

variable {s : Spanned} {spans : List Spanned}

theorem disjoint (h : Tiled source last spans) :
    (∀ s ∈ spans, endOf last ≤ s.start ∧ s.start ≤ s.stop) ∧ spans.Pairwise fun a b => a.stop ≤ b.start := by
  induction h with
  | finish hs _ _ hstart hstop =>
    refine ⟨List.forall_mem_singleton.2 ⟨hs.order, ?_⟩, List.pairwise_singleton _ _⟩
    rw [hstart, hstop]
  | @token last s spans hs _ _ hlt _ ih =>
    refine ⟨List.forall_mem_cons.2 ⟨⟨hs.order, hlt.le⟩, fun a ha => ?_⟩, List.pairwise_cons.2 ⟨?_, ih.2⟩⟩
    · obtain ⟨hstart, hstop⟩ := ih.1 a ha
      exact ⟨hs.order.trans (hlt.le.trans hstart), hstop⟩
    · exact fun a ha => (ih.1 a ha).1

theorem finishes (h : Tiled source last spans) : ∃ tokens final, spans = tokens ++ [final] ∧
    final.token.kind = .finish ∧ final.start = source.length ∧ final.stop = source.length ∧
    ∀ s ∈ tokens, s.token.kind ≠ .finish ∧ s.start < s.stop := by
  induction h with
  | finish _ _ hkind hstart hstop => exact ⟨[], _, rfl, hkind, hstart, hstop, nofun⟩
  | @token last s spans _ _ hkind hlt _ ih =>
    obtain ⟨tokens, final, rfl, hfinal, hstart, hstop, htokens⟩ := ih
    exact ⟨s :: tokens, final, rfl, hfinal, hstart, hstop, List.forall_mem_cons.2 ⟨⟨hkind, hlt⟩, htokens⟩⟩

theorem last_of_cons (s : Spanned) (before : List Spanned) (last : Option Spanned) :
    (s :: before).getLast?.or last = before.getLast?.or (some s) := by
  rw [List.getLast?_cons]
  cases before.getLast? <;> rfl

theorem continues (h : Tiled source last spans) {before after : List Spanned}
    (hspans : spans = before ++ s :: after) : Continues source (before.getLast?.or last) s := by
  induction h generalizing before with
  | finish hs =>
    cases before with
    | nil =>
      cases hspans
      exact hs
    | cons => simp at hspans
  | @token last first spans hs _ _ _ _ ih =>
    cases before with
    | nil =>
      cases hspans
      exact hs
    | cons _ before =>
      obtain ⟨rfl, hrest⟩ := List.cons_eq_cons.1 hspans
      rw [last_of_cons]
      exact ih hrest

theorem covered (h : Tiled source last spans) {i : Nat} (hlast : endOf last ≤ i) (hi : i < source.length) :
    ∃ before s after, spans = before ++ s :: after ∧ endOf (before.getLast?.or last) ≤ i ∧ i < s.stop := by
  induction h with
  | @finish last s _ _ _ _ hstop => exact ⟨[], s, [], rfl, hlast, hstop ▸ hi⟩
  | @token last s spans _ _ _ _ _ ih =>
    by_cases hs : i < s.stop
    · exact ⟨[], s, spans, rfl, hlast, hs⟩
    · obtain ⟨before, a, after, rfl, hbefore, ha⟩ := ih (Nat.le_of_not_lt hs)
      refine ⟨s :: before, a, after, rfl, ?_, ha⟩
      rwa [last_of_cons]

theorem describes (h : Tiled source last spans) : ∀ s ∈ spans, Describes source s := by
  induction h with
  | finish _ hs => exact List.forall_mem_singleton.2 hs
  | token _ hs _ _ _ ih => exact List.forall_mem_cons.2 ⟨hs, ih⟩

end Tiled

/-- Pieces of a source, one for each token, and what lies between them. -/
structure Partition (source : Text) (spans : List Spanned) : Prop where
  /-- There is one end token, behind all others, and only it is empty. -/
  finish : ∃ tokens final, spans = tokens ++ [final] ∧ final.token.kind = .finish ∧
    final.start = source.length ∧ final.stop = source.length ∧
    ∀ s ∈ tokens, s.token.kind ≠ .finish ∧ s.start < s.stop
  disjoint : spans.Pairwise fun a b => a.stop ≤ b.start
  /-- Each byte is in a token, or between it and the one before it. -/
  covered : ∀ i < source.length, ∃ before s after, spans = before ++ s :: after ∧
    endOf before.getLast? ≤ i ∧ i < s.stop
  continues : ∀ before s after, spans = before ++ s :: after → Continues source before.getLast? s
  describes : ∀ s ∈ spans, Describes source s

end Lexer

/-- A source that can be split into tokens is partitioned by them. -/
theorem tokenize_partition {source : Text} {tokens : List Token} (h : tokenize source = .ok tokens) :
    ∃ spans : List Lexer.Spanned, spans.map (·.token) = tokens ∧ Lexer.Partition source spans := by
  obtain ⟨spans, hspans, h⟩ := parts_of_ok h
  cases h
  have htiled := Lexer.tokensFrom_tiled none [] rfl rfl (.start source) spans hspans
  refine ⟨spans, rfl, htiled.finishes, htiled.disjoint.2, fun i hi => ?_, fun before s after hsplit => ?_,
    htiled.describes⟩
  · simpa using htiled.covered (Nat.zero_le i) hi
  · simpa using htiled.continues hsplit

/-- Two words, between them a comment and a blank line. -/
theorem tokenize_partition_words :
    let source : Text := "a # c\n\n\tb"
    let tokens : List Token := [⟨.identifier, "a", 1, 1, false⟩, ⟨.newline, "\\n", 1, 6, true⟩,
      ⟨.identifier, "b", 3, 2, false⟩, ⟨.finish, [], 3, 3, false⟩]
    tokenize source = .ok tokens ∧
      ∃ spans : List Lexer.Spanned, spans.map (·.token) = tokens ∧ Lexer.Partition source spans := by
  intro source tokens
  have hcheck : (tokenize source).toOption = some tokens := by decide +kernel
  have htokens : tokenize source = .ok tokens := by
    cases hc : tokenize source with
    | error e => simp [hc, Except.toOption] at hcheck
    | ok ts => simpa [hc, Except.toOption] using hcheck
  exact ⟨htokens, tokenize_partition htokens⟩

end ScriptMachine
