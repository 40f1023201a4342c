import ScriptMachine.Proofs.Compiler.NumberTokens
import ScriptMachine.Proofs.Compiler.Termination
import ScriptMachine.Proofs.Expression.Reading

set_option autoImplicit false

namespace ScriptMachine

/-- The token is a number that is too large for the word that its suffix asks for. -/
def Token.Oversized (t : Token) : Prop := t.kind = .number ∧ Number.Oversized t.text

namespace CompileError

/-- How a number that cannot be read is reported. -/
def malformed (t : Token) (function : Text) : CompileError :=
  .source ("Malformed number literal '" ++ t.text ++ "'") (Compile.place t) function

/-- A message that cannot be taken for that of a malformed number. -/
def Foreign (m : Text) : Prop := ¬("Malformed number literal" : Text) <+: m

instance (m : Text) : Decidable (Foreign m) := inferInstanceAs (Decidable ¬_)

/-- What is reported is a malformed number. -/
def Malformed (e : CompileError) : Prop := ∃ m l f, e = .source m l f ∧ ¬Foreign m

theorem foreign_of_head {m : Text} (h : (m.head? == some (Text.byte 'M')) = false) : Foreign m := by
  rintro ⟨rest, rfl⟩
  exact Bool.noConfusion (show true = false from h)

theorem Foreign.source {m : Text} (h : Foreign m) (l : Location) (f : Text) : ¬(source m l f).Malformed := by
  rintro ⟨_, _, _, ⟨⟩, hm⟩
  exact hm h

end CompileError

open CompileError

namespace Draft

/-- The tokens ahead are those of a source. -/
structure Lexed (d : Draft) : Prop where
  final : d.final.kind = .finish
  ahead : ∀ t ∈ d.ahead, t.Lexed

def second (d : Draft) : Token := (d.ahead[1]?).getD d.final

/-- Tokens have been read, and no number among them is oversized. -/
structure Proceeds (d d' : Draft) : Prop where
  final : d'.final = d.final
  ahead : ∃ read, d.ahead = read ++ d'.ahead ∧ ∀ t ∈ read, ¬t.Oversized

/-- A part has failed: with something else than a number, or with the first oversized number, which it has
just read. -/
inductive Stops (d : Draft) : CompileError → Draft → Prop where
  | elsewhere {e : CompileError} {d' : Draft} (he : ¬e.Malformed) (h : Proceeds d d') : Stops d e d'
  | oversized {d' : Draft} {read : List Token} {t : Token} (hahead : d.ahead = read ++ t :: d'.ahead)
      (hread : ∀ u ∈ read, ¬u.Oversized) (ht : t.Oversized) : Stops d (malformed t d'.functionName) d'

variable {d d' d'' : Draft} {e : CompileError}

theorem Proceeds.refl (d : Draft) : Proceeds d d := ⟨rfl, [], rfl, nofun⟩

theorem Keeps.proceeds (h : Keeps d d') : Proceeds d d' := ⟨h.final, [], h.ahead.symm, nofun⟩

theorem Keeps.second (h : Keeps d d') : d'.second = d.second := by
  rw [Draft.second, h.ahead, h.final, Draft.second]

theorem Proceeds.trans (h : Proceeds d d') (h' : Proceeds d' d'') : Proceeds d d'' := by
  obtain ⟨read, hread, hsizes⟩ := h.ahead
  obtain ⟨more, hmore, hsizes'⟩ := h'.ahead
  refine ⟨h'.final.trans h.final, read ++ more, ?_, List.forall_mem_append.2 ⟨hsizes, hsizes'⟩⟩
  rw [hread, hmore, List.append_assoc]

theorem Proceeds.stops (h : Proceeds d d') (h' : Stops d' e d'') : Stops d e d'' := by
  cases h' with
  | elsewhere he h' => exact .elsewhere he (h.trans h')
  | @oversized _ more t hmore hsizes' ht =>
    obtain ⟨read, hread, hsizes⟩ := h.ahead
    have hahead : d.ahead = (read ++ more) ++ t :: d''.ahead := by rw [hread, hmore, List.append_assoc]
    exact .oversized hahead (List.forall_mem_append.2 ⟨hsizes, hsizes'⟩) ht

theorem Proceeds.lexed (h : Proceeds d d') (hd : d.Lexed) : d'.Lexed := by
  obtain ⟨read, hread, -⟩ := h.ahead
  refine ⟨h.final ▸ hd.final, fun t ht => hd.ahead t ?_⟩
  rw [hread]
  exact List.mem_append_right read ht

end Draft

namespace Compile

variable {α β : Type}

/-- Where the next two tokens are `t` and `s`, whatever the action reads holds no oversized number, unless it
fails with it. -/
def Scans (t s : Token) (x : Compile α) : Prop :=
  ∀ d : Draft, d.Lexed → d.next = t → d.second = s → Ensures x d (fun _ d' => d.Proceeds d') d.Stops

def Heeds (x : Compile α) : Prop := ∀ t s, Scans t s x

def Peeks (x : Compile α) : Prop :=
  ∀ d : Draft, Ensures x d (fun _ d' => d.Keeps d') fun e d' => ¬e.Malformed ∧ d.Keeps d'

variable {x y : Compile α} {f : α → Compile β} {t s : Token} {kind : TokenKind} {m : Text}

namespace Peeks

theorem pure (a : α) : Peeks (pure a) := fun d => .refl d

theorem throw {e : CompileError} (h : ¬e.Malformed) : Peeks (throw e : Compile α) := fun d => ⟨h, .refl d⟩

theorem get : Peeks get := fun d => .refl d

theorem modify {g : Draft → Draft} (h : ∀ d, Draft.Keeps d (g d)) : Peeks (modify g : Compile Unit) :=
  fun d => h d

theorem bind (hx : Peeks x) (hf : ∀ a, Peeks (f a)) : Peeks (x >>= f) :=
  fun d => (hx d).bind fun a d' h =>
    (hf a d').mono (fun _ _ h' => h.trans h') fun _ _ h' => ⟨h'.1, h.trans h'.2⟩

theorem ite {c : Prop} [Decidable c] (hx : Peeks x) (hy : Peeks y) : Peeks (if c then x else y) := by
  split
  · exact hx
  · exact hy

theorem fail (hm : Foreign m) (site : Token) : Peeks (fail m site : Compile α) :=
  get.bind fun _ => throw (hm.source _ _)

end Peeks

theorem peeks_peek : Peeks peek := .bind .get fun _ => .pure _

theorem peeks_peekAt (i : Nat) : Peeks (peekAt i) := .bind .get fun _ => .pure _

theorem peeks_previous : Peeks previous := by
  refine .bind .get fun d => ?_
  cases d.previous with
  | some t => exact .pure t
  | none => exact peeks_peek

theorem peeks_check (kind : TokenKind) : Peeks (check kind) := peeks_peek.bind fun _ => .pure _

theorem peeks_checkAny (kinds : List TokenKind) : Peeks (checkAny kinds) := peeks_peek.bind fun _ => .pure _

theorem scanned_since {d d' : Draft} (h : d.Proceeds d')
    (hx : Ensures x d' (fun _ d'' => d'.Proceeds d'') d'.Stops) :
    Ensures x d' (fun _ d'' => d.Proceeds d'') d.Stops :=
  hx.mono (fun _ _ h' => h.trans h') fun _ _ h' => h.stops h'

namespace Scans

theorem of_peeks (hx : Peeks x) : Scans t s x := fun d _ _ _ =>
  (hx d).mono (fun _ _ h => h.proceeds) fun _ _ h => .elsewhere h.1 h.2.proceeds

theorem pure (a : α) : Scans t s (Pure.pure a) := of_peeks (.pure a)

theorem fail (hm : Foreign m) (site : Token) : Scans t s (Compile.fail m site : Compile α) :=
  of_peeks (.fail hm site)

theorem ite {c : Prop} [Decidable c] (hx : Scans t s x) (hy : Scans t s y) :
    Scans t s (if c then x else y) := by
  split
  · exact hx
  · exact hy

theorem bind (hx : Scans t s x) (hf : ∀ a, Heeds (f a)) : Scans t s (x >>= f) := by
  intro d hd hnext hsecond
  exact (hx d hd hnext hsecond).bind fun a d' h => scanned_since h (hf a _ _ d' (h.lexed hd) rfl rfl)

theorem look (hx : Peeks x) (hf : ∀ a, Scans t s (f a)) : Scans t s (x >>= f) := by
  intro d hd hnext hsecond
  have hx := (hx d).mono (fun _ _ => id) fun _ _ h => Draft.Stops.elsewhere h.1 h.2.proceeds
  refine hx.bind fun a d' h => scanned_since h.proceeds (hf a d' (h.proceeds.lexed hd) ?_ ?_)
  · rw [h.next, hnext]
  · rw [h.second, hsecond]

theorem peek {f : Token → Compile β} (h : Scans t s (f t)) : Scans t s (Compile.peek >>= f) := by
  intro d hd hnext hsecond
  exact Ensures.run (a := d.next) (t := d) rfl (hnext ▸ h d hd hnext hsecond)

theorem peekAt {f : Token → Compile β} (h : Scans t s (f s)) : Scans t s (Compile.peekAt 1 >>= f) := by
  intro d hd hnext hsecond
  exact Ensures.run (a := d.second) (t := d) rfl (hsecond ▸ h d hd hnext hsecond)

theorem check {f : Bool → Compile β} (h : Scans t s (f (decide (t.kind = kind)))) :
    Scans t s (Compile.check kind >>= f) := by
  intro d hd hnext hsecond
  exact Ensures.run (a := decide (d.next.kind = kind)) (t := d) rfl (hnext ▸ h d hd hnext hsecond)

theorem checkAny {kinds : List TokenKind} {f : Bool → Compile β}
    (h : Scans t s (f (kinds.contains t.kind))) : Scans t s (Compile.checkAny kinds >>= f) := by
  intro d hd hnext hsecond
  exact Ensures.run (a := kinds.contains d.next.kind) (t := d) rfl (hnext ▸ h d hd hnext hsecond)

end Scans

theorem ahead_eq {d : Draft} (hd : d.Lexed) (hnext : d.next = t) (hsecond : d.second = s)
    (ht : t.kind ≠ .finish) : ∃ rest, d.ahead = t :: rest ∧ (d.moved t rest).next = s := by
  subst hnext hsecond
  unfold Draft.next Draft.second at *
  cases hahead : d.ahead with
  | nil =>
    rw [hahead] at ht
    exact absurd hd.final ht
  | cons first rest =>
    refine ⟨rest, rfl, ?_⟩
    cases rest <;> rfl

namespace Scans

theorem shift {f : Token → Compile β} (hnumber : t.kind ≠ .number) (hfinish : t.kind ≠ .finish)
    (hf : ∀ u, Scans s u (f t)) : Scans t s (Compile.advance >>= f) := by
  intro d hd hnext hsecond
  obtain ⟨rest, hahead, hnext'⟩ := ahead_eq hd hnext hsecond hfinish
  have h : d.Proceeds (d.moved t rest) :=
    ⟨rfl, [t], hahead, List.forall_mem_singleton.2 fun h => hnumber h.1⟩
  exact Ensures.run (advance_run hahead hfinish) (scanned_since h (hf _ _ (h.lexed hd) hnext' rfl))

theorem advance (hnumber : t.kind ≠ .number) : Scans t s Compile.advance := by
  by_cases hfinish : t.kind = .finish
  · refine .peek ?_
    rw [if_pos hfinish]
    exact .of_peeks peeks_previous
  · have h : Scans t s (Compile.advance >>= Pure.pure) := .shift hnumber hfinish fun _ => .pure t
    rwa [bind_pure] at h

/-- A number is read as a literal, or reported. -/
theorem number {f : Token → Compile β} {g : Number → Compile β} (ht : t.kind = .number)
    (h : f t = numberLiteral t >>= g) (hg : ∀ n, Heeds (g n)) : Scans t s (Compile.advance >>= f) := by
  intro d hd hnext hsecond
  have hfinish : t.kind ≠ .finish := by rw [ht]; decide
  obtain ⟨rest, hahead, -⟩ := ahead_eq hd hnext hsecond hfinish
  have hlexed : t.Lexed := hd.ahead t (hahead ▸ List.mem_cons_self)
  have hsize := Number.parse_spelled (hlexed.number ht)
  refine Ensures.run (advance_run hahead hfinish) ?_
  rw [h]
  unfold numberLiteral
  cases hparse : Number.parse t.text with
  | none =>
    rw [hparse] at hsize
    have ht : t.Oversized := ⟨ht, by_contra fun hnot => nomatch hsize.2 hnot⟩
    have hahead : d.ahead = [] ++ t :: rest := hahead
    exact Draft.Stops.oversized hahead nofun ht
  | some n =>
    rw [hparse] at hsize
    have h : d.Proceeds (d.moved t rest) :=
      ⟨rfl, [t], hahead, List.forall_mem_singleton.2 fun h => hsize.1 rfl h.2⟩
    exact scanned_since h (hg n _ _ _ (h.lexed hd) rfl rfl)

end Scans

namespace Heeds

theorem of_peeks (hx : Peeks x) : Heeds x := fun _ _ => .of_peeks hx

theorem pure (a : α) : Heeds (Pure.pure a) := of_peeks (.pure a)

theorem fail (hm : Foreign m) (site : Token) : Heeds (Compile.fail m site : Compile α) :=
  of_peeks (.fail hm site)

theorem ite {c : Prop} [Decidable c] (hx : Heeds x) (hy : Heeds y) : Heeds (if c then x else y) :=
  fun t s => .ite (hx t s) (hy t s)

theorem bind (hx : Heeds x) (hf : ∀ a, Heeds (f a)) : Heeds (x >>= f) := fun t s => .bind (hx t s) hf

theorem look (hx : Peeks x) (hf : ∀ a, Heeds (f a)) : Heeds (x >>= f) := fun t s => .look hx fun a => hf a t s

end Heeds

theorem accept_heeds (h : kind ≠ .number) : Heeds (accept kind) := by
  refine fun t s => .check ?_
  split
  · rename_i hkind
    have ht : t.kind = kind := of_decide_eq_true hkind
    exact .bind (.advance (ht ▸ h)) fun _ => .pure true
  · exact .pure false

theorem expect_heeds (h : kind ≠ .number) (hm : Foreign m) : Heeds (expect kind m) := by
  refine fun t s => .check ?_
  split
  · rename_i hkind
    have ht : t.kind = kind := of_decide_eq_true hkind
    exact .advance (ht ▸ h)
  · exact .look peeks_peek fun t => .fail hm t

theorem skip_heeds {kinds : List TokenKind} (h : .number ∉ kinds) : Heeds (skip kinds) := by
  have hskip : ∀ (previous : Option Token) (tokens : List Token),
      ∃ read, tokens = read ++ (skipTokens kinds previous tokens).2 ∧ ∀ t ∈ read, ¬t.Oversized := by
    intro previous tokens
    induction tokens generalizing previous with
    | nil => exact ⟨[], rfl, nofun⟩
    | cons t rest ih =>
      unfold skipTokens
      split
      · rename_i hkind
        obtain ⟨read, hread, hsizes⟩ := ih (some t)
        refine ⟨t :: read, congrArg (t :: ·) hread, List.forall_mem_cons.2 ⟨?_, hsizes⟩⟩
        intro hsize
        exact h (hsize.1 ▸ List.contains_iff_mem.1 hkind)
      · exact ⟨[], rfl, nofun⟩
  exact fun t s d _ _ _ => Ensures.change ⟨rfl, hskip d.previous d.ahead⟩

theorem skipNewlines_heeds : Heeds skipNewlines := skip_heeds (by decide)

theorem skipSeparators_heeds : Heeds skipSeparators := skip_heeds (by decide)

theorem endStatement_heeds : Heeds endStatement := by
  refine .bind (accept_heeds (by decide)) fun _ => .ite (.pure ()) ?_
  refine .bind (accept_heeds (by decide)) fun _ => .ite (.pure ()) ?_
  refine .look (peeks_checkAny _) fun _ => .ite (.pure ()) (.look peeks_peek fun t => ?_)
  exact .fail (foreign_of_head rfl) t

section
variable {step : α → Compile (α × Bool)} {E : Token → Prop}

theorem loop_scans
    (hstep : ∀ a (d : Draft), d.Lexed →
      Ensures (step a) d (fun b d' => d.Proceeds d' ∧ (b.2 = false → E d'.next)) d.Stops)
    (limit : Nat) (a : α) {d : Draft} (hd : d.Lexed) :
    Ensures (loop step limit a) d (fun _ d' => d.Proceeds d' ∧ E d'.next) d.Stops := by
  induction limit generalizing a d with
  | zero => exact Draft.Stops.elsewhere (fun ⟨_, _, _, h, _⟩ => nomatch h) (.refl d)
  | succ limit ih =>
    refine (hstep a d hd).bind fun b d' hb => ?_
    obtain ⟨b, again⟩ := b
    obtain ⟨hproceeds, hexit⟩ := hb
    cases again with
    | false => exact ⟨hproceeds, hexit rfl⟩
    | true =>
      have hrest := ih b (hproceeds.lexed hd)
      exact hrest.mono (fun _ _ h' => ⟨hproceeds.trans h'.1, h'.2⟩) fun _ _ h' => hproceeds.stops h'

theorem Heeds.whileReading (hstep : ∀ a, Heeds (step a)) (a : α) : Heeds (Compile.whileReading a step) := by
  intro t s d hd _ _
  have hrounds : ∀ a (d : Draft), d.Lexed →
      Ensures (step a) d (fun b d' => d.Proceeds d' ∧ (b.2 = false → True)) d.Stops :=
    fun a d hd => (hstep a d.next d.second d hd rfl rfl).imp fun _ _ h => ⟨h, fun _ => trivial⟩
  exact Ensures.get_bind ((loop_scans (E := fun _ => True) hrounds _ a hd).imp fun _ _ h => h.1)

theorem commaSeparated_heeds {item : Compile α} (h : Heeds item) : Heeds (commaSeparated item) := by
  rw [commaSeparated_eq]
  refine .bind (.whileReading (fun items => .bind h fun a => ?_) []) fun _ => .pure _
  exact .bind (accept_heeds (by decide)) fun _ => .pure _

end

theorem peeks_modifyProgram (f : Program → Program) : Peeks (modifyProgram f) := .modify fun _ => ⟨rfl, rfl⟩

theorem peeks_modifyScope (i : Nat) (f : Scope → Scope) : Peeks (modifyScope i f) := peeks_modifyProgram _

theorem peeks_addScope (kind : ScopeKind) (name : Text) (site : Token) : Peeks (addScope kind name site) :=
  .bind .get fun _ => .bind (peeks_modifyProgram _) fun _ => .pure _

theorem peeks_openScope (kind : ScopeKind) (name : Text) (isFunction isClosure : Bool) (site : Token) :
    Peeks (openScope kind name isFunction isClosure site) :=
  .bind (peeks_addScope _ _ _) fun _ => .bind (.modify fun _ => ⟨rfl, rfl⟩) fun _ => .pure _

theorem peeks_closeScope : Peeks closeScope := .modify fun _ => ⟨rfl, rfl⟩

theorem peeks_currentScope : Peeks currentScope := .bind .get fun _ => .pure _

theorem peeks_scopeAt (i : Nat) : Peeks (scopeAt i) := .bind .get fun _ => .pure _

theorem peeks_codeSize : Peeks codeSize :=
  peeks_currentScope.bind fun i => (peeks_scopeAt i).bind fun _ => .pure _

theorem peeks_alloc : Peeks alloc :=
  peeks_currentScope.bind fun i => (peeks_scopeAt i).bind fun _ => (peeks_modifyScope i _).bind fun _ => .pure _

theorem peeks_emit (op : Operation) (site : Token) : Peeks (emit op site) :=
  peeks_currentScope.bind fun i => peeks_modifyScope i _

theorem peeks_emitTo (op : Register → Operation) (site : Token) (f : Register → α) : Peeks (do
    let out ← alloc
    emit (op out) site
    return f out) :=
  peeks_alloc.bind fun out => (peeks_emit (op out) site).bind fun _ => .pure (f out)

theorem emitTo_heeds (op : Register → Operation) (site : Token) (f : Register → α) : Heeds (do
    let out ← alloc
    emit (op out) site
    return f out) := .of_peeks (peeks_emitTo op site f)

theorem peeks_declareAs (name : Text) (info : NameInfo) : Peeks (declareAs name info) := by
  refine .modify fun d => ?_
  split
  · exact ⟨rfl, rfl⟩
  · exact .refl d

theorem peeks_declare (name : Text) (isMutable : Bool) : Peeks (declare name isMutable) :=
  peeks_declareAs name _

theorem peeks_forM {γ : Type} {f : γ → Compile Unit} (h : ∀ a, Peeks (f a)) (l : List γ) :
    Peeks (l.forM f) := by
  induction l with
  | nil => exact .pure ()
  | cons a l ih => exact (h a).bind fun _ => ih

theorem peeks_declareParams (scope : Nat) (params : List Parameter) : Peeks (declareParams scope params) :=
  (peeks_modifyScope scope _).bind fun _ => peeks_forM (fun p => peeks_declare p.name false) params

theorem peeks_lookup (name : Text) : Peeks (lookup name) := by
  intro d
  refine Ensures.get_bind ?_
  dsimp only
  split
  · exact Ensures.bind (R := fun _ d' => d.Keeps d') (Ensures.set ⟨rfl, rfl⟩) fun _ _ h => Ensures.pure h
  · exact Ensures.pure (.refl d)

theorem peeks_atTopLevel : Peeks atTopLevel := .bind .get fun _ => .pure _

theorem peeks_requireTopLevel {what : Text} (h : Foreign (what ++ " must be declared at top level"))
    (site : Token) : Peeks (requireTopLevel site what) :=
  peeks_atTopLevel.bind fun _ => .ite (.pure ()) (.fail h site)

theorem peeks_register (f : Registry → Except RegistryError Registry) : Peeks (register f) := by
  refine .bind .get fun d => ?_
  split
  · exact peeks_modifyProgram _
  · exact .throw fun ⟨_, _, _, h, _⟩ => nomatch h

theorem within_heeds {x : Compile α} (name : Text) (h : Heeds x) : Heeds (within name x) := by
  have hname (name : Text) : Peeks (modify fun d => { d with functionName := name }) :=
    .modify fun _ => ⟨rfl, rfl⟩
  refine .look .get fun d => .look (hname name) fun _ => h.bind fun a => ?_
  exact .look (hname d.functionName) fun _ => .pure a

theorem literalValue_heeds : Heeds literalValue := by
  refine fun t s => .peek ?_
  have hpass {v : Value} (h : t.kind ≠ .number) : Scans t s (do
      let _ ← advance
      return v) := .bind (.advance h) fun _ => .pure _
  split <;> rename_i hkind
  · refine .peekAt ?_
    split
    · rename_i hnumber
      exact .shift (by simp [hkind]) (by simp [hkind]) fun u => .number hnumber rfl fun _ => .pure _
    · exact .fail (by decide) t
  · exact .number hkind rfl fun _ => .pure _
  · exact .bind (.advance (by simp [hkind])) fun _ => .pure _
  · exact hpass (by simp [hkind])
  · exact hpass (by simp [hkind])
  · exact hpass (by simp [hkind])
  · refine .bind (.advance (by simp [hkind])) fun _ => ?_
    exact .bind (expect_heeds (by decide) (by decide)) fun _ => .pure _
  · refine .bind (.advance (by simp [hkind])) fun _ => ?_
    exact .bind (expect_heeds (by decide) (by decide)) fun _ => .pure _
  · exact .fail (by decide) t

theorem typeName_heeds : Heeds typeName := .bind (expect_heeds (by decide) (by decide)) fun _ => .pure _

theorem typeAnnotation_heeds : Heeds typeAnnotation :=
  .bind (accept_heeds (by decide)) fun _ => .ite typeName_heeds (.pure _)

theorem tag_heeds : Heeds tag := by
  refine .bind (expect_heeds (by decide) (by decide)) fun name => .bind (accept_heeds (by decide)) fun _ => ?_
  have hrest : ∀ args : List Value, Heeds (do
      let _ ← expect .rparen "Expected ')' after lifecycle arguments"
      return (⟨name.text, args⟩ : Tag)) := fun args =>
    .bind (expect_heeds (by decide) (by decide)) fun _ => .pure _
  refine .ite (.look (peeks_check _) fun empty => .ite (.look (.pure _) hrest) ?_) (.pure _)
  exact .bind (commaSeparated_heeds literalValue_heeds) hrest

theorem tags_heeds : Heeds tags := by
  rw [tags_eq]
  refine .bind (.whileReading (fun found => ?_) []) fun found => .look (peeks_check _) fun _ => ?_
  · refine .bind (accept_heeds (by decide)) fun _ => .ite (.bind tag_heeds fun t => ?_) (.pure _)
    exact .bind skipSeparators_heeds fun _ => .pure _
  · exact .ite (.pure _) (.look peeks_peek fun t => .fail (by decide) t)

theorem parameter_heeds (params : List Parameter) : Heeds (parameter params) := by
  refine .bind (expect_heeds (by decide) (by decide)) fun name => .bind typeAnnotation_heeds fun type => ?_
  refine .bind (accept_heeds (by decide)) fun _ => .ite (.bind literalValue_heeds fun _ => .pure _) ?_
  exact .ite (.look peeks_previous fun t => .fail (foreign_of_head rfl) t) (.pure _)

theorem parameterList_heeds {close : TokenKind} (h : close ≠ .number) (hm : Foreign m) :
    Heeds (parameterList close m) := by
  have hrest : ∀ params : List Parameter, Heeds (do
      let _ ← expect close m
      return params.reverse) := fun params => .bind (expect_heeds h hm) fun _ => .pure _
  rw [parameterList_eq]
  refine .bind skipNewlines_heeds fun _ => .look (peeks_check _) fun _ => .ite (.look (.pure _) hrest) ?_
  refine .bind (.whileReading (fun params => ?_) []) hrest
  refine .bind skipNewlines_heeds fun _ => .bind (parameter_heeds params) fun _ => ?_
  exact .bind skipNewlines_heeds fun _ => .bind (accept_heeds (by decide)) fun _ => .pure _

theorem header_heeds (tags : List Tag) (owner : Option Text) : Heeds (header tags owner) := by
  refine .bind (expect_heeds (by decide) (by decide)) fun token => ?_
  refine .bind (accept_heeds (by decide)) fun mutableReceiver => ?_
  refine .bind (expect_heeds (by decide) (by decide)) fun first => ?_
  -- whichever way the name and the receiver are found, the same parts follow
  have hrest : ∀ name : Text × Option DeclaredType, Heeds (
      if mutableReceiver && name.2.isNone then
        fail "Only extension functions take a mutable receiver" first
      else do
        let params ← if ← accept .lparen then parameterList .rparen "Expected ')' after parameters"
          else pure []
        let returns ← if ← accept .arrow then typeName else pure .any
        return (⟨token, name.1, ⟨params, returns, name.2, mutableReceiver⟩, tags⟩ : Header)) := by
    intro name
    have hreturns : ∀ params, Heeds (do
        let returns ← if ← accept .arrow then typeName else pure .any
        return (⟨token, name.1, ⟨params, returns, name.2, mutableReceiver⟩, tags⟩ : Header)) := fun params =>
      .bind (accept_heeds (by decide)) fun _ =>
        .ite (.bind typeName_heeds fun _ => .pure _) (.look (.pure _) fun _ => .pure _)
    refine .ite (.fail (by decide) first) (.bind (accept_heeds (by decide)) fun _ => ?_)
    exact .ite (.bind (parameterList_heeds (by decide) (by decide)) hreturns) (.look (.pure _) hreturns)
  refine .bind (accept_heeds (by decide)) fun _ => .ite ?_ (.look (.pure _) hrest)
  exact .bind (expect_heeds (by decide) (by decide)) fun name => .look (.pure _) hrest

def IsWord (name : Text) : Prop := ∀ c ∈ name, Lexer.isWordByte c = true

theorem expect_identifier {d : Draft} (hd : d.Lexed) (message : Text) :
    Post (expect .identifier message) d fun t _ => IsWord t.text := by
  refine Ensures.run (a := decide (d.next.kind = .identifier)) (t := d) rfl ?_
  split
  · rename_i hkind
    have hkind : d.next.kind = .identifier := of_decide_eq_true hkind
    have hfinish : d.next.kind ≠ .finish := by simp [hkind]
    obtain ⟨rest, hahead, -⟩ := ahead_eq hd rfl rfl hfinish
    have ht : d.next ∈ d.ahead := hahead ▸ List.mem_cons_self
    exact Ensures.of_run (advance_run hahead hfinish) ((hd.ahead _ ht).identifier hkind)
  · exact trivial

theorem Heeds.lexed (hx : Heeds x) {d : Draft} (hd : d.Lexed) : Post x d fun _ d' => d'.Lexed :=
  (hx _ _ d hd rfl rfl).mono (fun _ _ h => h.lexed hd) fun _ _ _ => trivial

/-- The name of a function is an identifier. -/
theorem header_named (tags : List Tag) (owner : Option Text) {d : Draft} (hd : d.Lexed) :
    Post (header tags owner) d fun h _ => IsWord h.name := by
  have hany {α : Type} (x : Compile α) (d : Draft) : Post x d fun _ _ => True :=
    Ensures.intro (fun _ _ _ => trivial) fun _ _ _ => trivial
  refine Ensures.bind ((expect_heeds (by decide) (by decide)).lexed hd) fun token d₁ h₁ => ?_
  refine Ensures.bind ((accept_heeds (by decide)).lexed h₁) fun mutableReceiver d₂ h₂ => ?_
  refine Ensures.bind (post_both ((expect_heeds (by decide) (by decide)).lexed h₂) (expect_identifier h₂ _)) ?_
  rintro first d₃ ⟨h₃, hfirst⟩
  refine Ensures.bind ((accept_heeds (by decide)).lexed h₃) fun dot d₄ h₄ => ?_
  have hrest (name : Text × Option DeclaredType) (hname : IsWord name.1) (d : Draft) : Post (
      if mutableReceiver && name.2.isNone then
        fail "Only extension functions take a mutable receiver" first
      else do
        let params ← if ← accept .lparen then parameterList .rparen "Expected ')' after parameters"
          else pure []
        let returns ← if ← accept .arrow then typeName else pure .any
        return (⟨token, name.1, ⟨params, returns, name.2, mutableReceiver⟩, tags⟩ : Header)) d
      fun h _ => IsWord h.name := by
    split
    · exact trivial
    · refine Ensures.bind (hany _ _) fun _ _ _ => Ensures.ite_bind (hany _ _) fun params _ _ => ?_
      refine Ensures.bind (hany _ _) fun _ _ _ => Ensures.ite_bind (hany _ _) fun returns _ _ => ?_
      exact Ensures.pure hname
  split
  · refine Ensures.bind (expect_identifier h₄ _) fun name d₅ h₅ => Ensures.pure_bind ?_
    exact hrest (name.text, some (.named first.text)) h₅ d₅
  · exact Ensures.pure_bind (hrest (first.text, owner.map .named) hfirst d₄)

end Compile

end ScriptMachine
