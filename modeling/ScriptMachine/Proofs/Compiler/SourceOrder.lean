import ScriptMachine.Proofs.Compiler.SourcedPrograms

set_option autoImplicit false

namespace ScriptMachine

namespace Location

/-- One place comes before another one in the source. -/
def Before (a b : Location) : Prop := a.line < b.line ∨ a.line = b.line ∧ a.column < b.column

instance (a b : Location) : Decidable (a.Before b) := inferInstanceAs (Decidable (_ ∨ _))

variable {a b c : Location}

theorem Before.trans (h : a.Before b) (h' : b.Before c) : a.Before c := by
  unfold Before at *
  omega

theorem Before.asymm (h : a.Before b) : ¬b.Before a := by
  unfold Before at *
  omega

theorem Before.ne (h : a.Before b) : a ≠ b := by
  rintro rfl
  exact h.asymm h

theorem before_or_after (h : a ≠ b) : a.Before b ∨ b.Before a := by
  obtain ⟨line, column⟩ := a
  obtain ⟨line', column'⟩ := b
  rw [Ne, mk.injEq, not_and_or] at h
  simp only [Before]
  omega

end Location

namespace Position

def location (p : Position) : Location := ⟨p.line, p.column⟩

variable {p : Position} {l : Location}

theorem before_next (p : Position) (b : UInt8) : p.location.Before (p.next b).location := by
  unfold next
  split
  · exact .inl (Nat.lt_succ_self _)
  · exact .inr ⟨rfl, Nat.lt_succ_self _⟩

theorem before_after (h : l.Before p.location) (t : Text) : l.Before (p.after t).location := by
  unfold after
  induction t generalizing p with
  | nil => exact h
  | cons b t ih => exact ih (h.trans (p.before_next b))

end Position

namespace Lexer

/-- Tokens behind all that comes before a place, each of them before the next ones, up to an end token. -/
structure Ordered (p : Position) (spans : List Spanned) : Prop where
  behind : ∀ l : Location, l.Before p.location → ∀ s ∈ spans, l.Before (Compile.place s.token)
  ordered : (spans.map fun s => Compile.place s.token).Pairwise Location.Before
  finish : ∃ s, spans.getLast? = some s ∧ s.token.kind = .finish

theorem tokensFrom_ordered {p : Position} {previous : Option TokenKind} {t : Text} :
    ∀ spans, tokensFrom p previous t = .ok spans → Ordered p spans := by
  fun_induction tokensFrom p previous t with
  | case1 p previous t skipped place =>
    rintro _ ⟨⟩
    refine ⟨fun l hl s hs => ?_, List.pairwise_singleton _ _, _, rfl, rfl⟩
    rw [List.mem_singleton.1 hs]
    exact Position.before_after hl _
  | case2 p previous t skipped place b rest _ ihSame ihNext =>
    intro spans h
    obtain ⟨l, -, h⟩ := parts_of_ok h
    have hnext : place.location.Before (place.after (b :: rest.take l.more)).location :=
      Position.before_after (place.before_next b) _
    dsimp only at h
    split at h
    · have hspans := ihSame l spans h
      exact ⟨fun a ha => hspans.behind a ((Position.before_after ha _).trans hnext), hspans.ordered,
        hspans.finish⟩
    · obtain ⟨others, hothers, h⟩ := parts_of_ok h
      cases h
      have hrest := ihNext l others hothers
      refine ⟨fun a ha => ?_, List.pairwise_cons.2 ⟨?_, hrest.ordered⟩, ?_⟩
      · have hplace : a.Before place.location := Position.before_after ha _
        exact List.forall_mem_cons.2 ⟨hplace, hrest.behind a (hplace.trans hnext)⟩
      · exact List.forall_mem_map.2 (hrest.behind _ hnext)
      · obtain ⟨s, hs, hfinish⟩ := hrest.finish
        exact ⟨s, by rw [List.getLast?_cons, hs]; rfl, hfinish⟩

end Lexer

theorem tokenize_ordered {source : Text} {tokens : List Token} (h : tokenize source = .ok tokens) :
    (Location.unknown :: tokens.map Compile.place).Pairwise Location.Before ∧
      ∃ t, withEndToken tokens = (tokens, t) ∧ t.kind = .finish := by
  obtain ⟨spans, hspans, h⟩ := parts_of_ok h
  cases h
  have hordered := Lexer.tokensFrom_ordered spans hspans
  obtain ⟨s, hs, hfinish⟩ := hordered.finish
  have hlast : (spans.map (·.token)).getLast? = some s.token := by
    rw [List.getLast?_map, hs]
    rfl
  refine ⟨?_, s.token, ?_, hfinish⟩
  · rw [List.map_map]
    refine List.pairwise_cons.2 ⟨?_, hordered.ordered⟩
    exact List.forall_mem_map.2 (hordered.behind .unknown (.inl Nat.one_pos))
  · unfold withEndToken
    rw [hlast]
    exact if_pos hfinish

end ScriptMachine
