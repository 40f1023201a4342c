import ScriptMachine.Proofs.Compiler.Reading

set_option autoImplicit false

namespace ScriptMachine

namespace Draft

/-- Tokens have been read, none of them an end token. -/
structure ReadsOn (d d' : Draft) : Prop where
  final : d'.final = d.final
  ahead : ∃ read, d.ahead = read ++ d'.ahead ∧ ∀ t ∈ read, t.kind ≠ .finish

/-- No token has been read. -/
structure Keeps (d d' : Draft) : Prop where
  final : d'.final = d.final
  ahead : d'.ahead = d.ahead

variable {d d' d'' : Draft}

theorem Keeps.refl (d : Draft) : Keeps d d := ⟨rfl, rfl⟩

theorem Keeps.trans (h : Keeps d d') (h' : Keeps d' d'') : Keeps d d'' :=
  ⟨h'.final.trans h.final, h'.ahead.trans h.ahead⟩

theorem Keeps.next (h : Keeps d d') : d'.next = d.next := by rw [Draft.next, h.ahead, h.final, Draft.next]

theorem Keeps.readsOn (h : Keeps d d') : ReadsOn d d' := ⟨h.final, [], h.ahead.symm, nofun⟩

theorem ReadsOn.trans (h : ReadsOn d d') (h' : ReadsOn d' d'') : ReadsOn d d'' := by
  obtain ⟨read, hread, hkinds⟩ := h.ahead
  obtain ⟨more, hmore, hkinds'⟩ := h'.ahead
  refine ⟨h'.final.trans h.final, read ++ more, ?_, List.forall_mem_append.2 ⟨hkinds, hkinds'⟩⟩
  rw [hread, hmore, List.append_assoc]

theorem ReadsOn.length_le (h : ReadsOn d d') : d'.ahead.length ≤ d.ahead.length := by
  obtain ⟨read, hread, -⟩ := h.ahead
  rw [hread, List.length_append]
  exact Nat.le_add_left _ _

end Draft

namespace Compile

variable {α β : Type}

/-- Where fewer than `n` tokens are ahead, the first of them with the property `P`, the action ends without
reaching a bound and has read on. If its answer has the property `q`, at least one token has been read. -/
def Advances (n : Nat) (P : Token → Prop) (q : α → Prop) (x : Compile α) : Prop :=
  ∀ d : Draft, d.final.kind = .finish → d.ahead.length < n → P d.next →
    Ensures x d (fun a d' => d.ReadsOn d' ∧ (q a → d'.ahead.length < d.ahead.length))
      fun e d' => e ≠ .exhausted ∧ d.ReadsOn d'

/-- An action that ends without reading a token. -/
def Looks (x : Compile α) : Prop :=
  ∀ d : Draft, Ensures x d (fun _ d' => d.Keeps d') fun e d' => e ≠ .exhausted ∧ d.Keeps d'

/-- Wherever fewer than `n` tokens are ahead, the action ends. -/
abbrev Ends (n : Nat) (x : Compile α) : Prop := Advances n (fun _ => True) (fun _ => False) x

/-- Wherever fewer than `n` tokens are ahead, the action ends, and its success costs tokens. -/
abbrev Consumes (n : Nat) (x : Compile α) : Prop := Advances n (fun _ => True) (fun _ => True) x

namespace Looks
variable {x : Compile α} {f : α → Compile β}

theorem pure (a : α) : Looks (pure a) := fun d => .refl d

theorem throw {e : CompileError} (h : e ≠ .exhausted) : Looks (throw e : Compile α) := fun d => ⟨h, .refl d⟩

theorem get : Looks get := fun d => .refl d

theorem modify {g : Draft → Draft} (h : ∀ d, Draft.Keeps d (g d)) : Looks (modify g : Compile Unit) :=
  fun d => h d

theorem bind (hx : Looks x) (hf : ∀ a, Looks (f a)) : Looks (x >>= f) :=
  fun d => (hx d).bind fun a d' h =>
    (hf a d').mono (fun _ _ h' => h.trans h') fun _ _ h' => ⟨h'.1, h.trans h'.2⟩

theorem ite {c : Prop} [Decidable c] {y : Compile α} (hx : Looks x) (hy : Looks y) :
    Looks (if c then x else y) := by
  split
  · exact hx
  · exact hy

theorem fail (message : Text) (site : Token) : Looks (fail message site : Compile α) :=
  get.bind fun _ => throw nofun

end Looks

namespace Advances

variable {n m : Nat} {P P' : Token → Prop} {q q' : α → Prop} {r : β → Prop} {x : Compile α}
  {f : α → Compile β}

theorem mono (h : Advances n P q x) (hm : m ≤ n) (hP : ∀ t, P' t → P t) (hq : ∀ a, q' a → q a) :
    Advances m P' q' x := fun d hfinal hlength hnext =>
  (h d hfinal (Nat.lt_of_lt_of_le hlength hm) (hP _ hnext)).imp fun a _ h' => ⟨h'.1, fun hqa => h'.2 (hq a hqa)⟩

theorem less (h : Advances (n + 1) P q x) : Advances n P q x :=
  h.mono (Nat.le_succ n) (fun _ => id) fun _ => id

theorem ends (h : Advances n P q x) : Advances n P (fun _ => False) x :=
  h.mono (Nat.le_refl n) (fun _ => id) fun _ => False.elim

theorem anywhere (h : Advances n (fun _ => True) q x) : Advances n P q x :=
  h.mono (Nat.le_refl n) (fun _ _ => trivial) fun _ => id

theorem ite {c : Prop} [Decidable c] {y : Compile α} (hx : Advances n P q x) (hy : Advances n P q y) :
    Advances n P q (if c then x else y) := by
  split
  · exact hx
  · exact hy

theorem of_looks (hx : Looks x) (hq : ∀ a, ¬q a) : Advances n P q x := fun d _ _ _ =>
  (hx d).mono (fun a _ h => ⟨h.readsOn, fun ha => absurd ha (hq a)⟩) fun _ _ h => ⟨h.1, h.2.readsOn⟩

theorem pure {a : α} (hq : ¬q a) : Advances n P q (pure a) := fun d _ _ _ =>
  ⟨(Draft.Keeps.refl d).readsOn, fun ha => absurd ha hq⟩

theorem done (a : α) : Advances n P (fun _ => False) (Pure.pure a) := pure id

theorem fail (message : Text) (site : Token) : Advances n P q (fail message site : Compile α) :=
  fun d _ _ _ => ⟨nofun, (Draft.Keeps.refl d).readsOn⟩

theorem since {d d' : Draft} {Q R : α → Draft → Prop} (h : d.ReadsOn d')
    (hx : Ensures x d' (fun a d'' => d'.ReadsOn d'' ∧ Q a d'') fun e d'' => e ≠ .exhausted ∧ d'.ReadsOn d'')
    (hQ : ∀ a d'', d'.ReadsOn d'' → Q a d'' → R a d'') :
    Ensures x d' (fun a d'' => d.ReadsOn d'' ∧ R a d'') fun e d'' => e ≠ .exhausted ∧ d.ReadsOn d'' :=
  hx.mono (fun a d'' h' => ⟨h.trans h'.1, hQ a d'' h'.1 h'.2⟩) fun _ _ h' => ⟨h'.1, h.trans h'.2⟩

theorem look (hx : Looks x) (hf : ∀ a, Advances n P r (f a)) : Advances n P r (x >>= f) := by
  intro d hfinal hlength hnext
  refine Ensures.bind ((hx d).mono (fun _ _ => id) fun _ _ h => ⟨h.1, h.2.readsOn⟩) fun a d' h => ?_
  refine since h.readsOn (hf a d' (h.final ▸ hfinal) (h.ahead ▸ hlength) (h.next ▸ hnext)) ?_
  exact fun _ _ _ hless hr => h.ahead ▸ hless hr

theorem peek {f : Token → Compile β} (hf : ∀ t, P t → Advances n (· = t) r (f t)) :
    Advances n P r (Compile.peek >>= f) := fun d hfinal hlength hnext =>
  Ensures.run (a := d.next) (t := d) rfl (hf d.next hnext d hfinal hlength rfl)

theorem bind (hx : Advances n P q x) (hf : ∀ a, Advances n (fun _ => True) r (f a)) :
    Advances n P r (x >>= f) := by
  intro d hfinal hlength hnext
  refine (hx d hfinal hlength hnext).bind fun a d' h => ?_
  have hfewer := Nat.lt_of_le_of_lt h.1.length_le hlength
  refine since h.1 (hf a d' (h.1.final ▸ hfinal) hfewer trivial) fun _ _ _ hless hr => ?_
  exact Nat.lt_of_lt_of_le (hless hr) h.1.length_le

theorem consume (hx : Advances (n + 1) P (fun _ => True) x) (hf : ∀ a, Ends n (f a)) :
    Advances (n + 1) P r (x >>= f) := by
  intro d hfinal hlength hnext
  refine (hx d hfinal hlength hnext).bind fun a d' h => ?_
  have hfewer := Nat.lt_of_lt_of_le (h.2 trivial) (Nat.le_of_lt_succ hlength)
  refine since h.1 (hf a d' (h.1.final ▸ hfinal) hfewer trivial) fun _ _ hreads _ _ => ?_
  exact Nat.lt_of_le_of_lt hreads.length_le (h.2 trivial)

theorem reading (hx : Advances n P (fun _ => True) x) (hf : ∀ a, Ends n (f a)) :
    Advances n P r (x >>= f) := by
  cases n with
  | zero => exact fun d _ hlength => absurd hlength (Nat.not_lt_zero _)
  | succ n => exact consume hx fun a => (hf a).less

theorem bind_pure {g : α → β} (hx : Advances n P q x) (hg : ∀ a, r (g a) → q a) :
    Advances n P r (x >>= fun a => Pure.pure (g a)) := fun d hfinal hlength hnext =>
  (hx d hfinal hlength hnext).bind fun a _ h => ⟨h.1, fun hr => h.2 (hg a hr)⟩

end Advances

variable {n : Nat} {P : Token → Prop} {r : β → Prop} {kind : TokenKind}

theorem looks_peek : Looks peek := .bind .get fun _ => .pure _

theorem looks_peekAt (i : Nat) : Looks (peekAt i) := .bind .get fun _ => .pure _

theorem looks_previous : Looks previous := by
  refine .bind .get fun d => ?_
  cases d.previous with
  | some t => exact .pure t
  | none => exact looks_peek

theorem looks_isAtEnd : Looks isAtEnd := looks_peek.bind fun _ => .pure _

theorem looks_check (kind : TokenKind) : Looks (check kind) := looks_peek.bind fun _ => .pure _

theorem looks_checkAny (kinds : List TokenKind) : Looks (checkAny kinds) := looks_peek.bind fun _ => .pure _

theorem shift_readsOn {d : Draft} (hfinal : d.final.kind = .finish) (hnext : d.next.kind ≠ .finish)
    (t : Token) :
    d.ReadsOn { d with ahead := d.ahead.tail, previous := some t } ∧ d.ahead.tail.length < d.ahead.length := by
  cases hahead : d.ahead with
  | nil =>
    rw [Draft.next, hahead] at hnext
    exact absurd hfinal hnext
  | cons first rest =>
    have hfirst : d.next = first := by
      rw [Draft.next, hahead]
      rfl
    exact ⟨⟨rfl, [first], hahead, List.forall_mem_singleton.2 (hfirst ▸ hnext)⟩, Nat.lt_succ_self _⟩

theorem advance_advances {q : Token → Prop} (h : ∀ t, P t → t.kind = .finish → ∀ a, ¬q a) :
    Advances n P q advance := by
  refine .peek fun t ht => ?_
  split
  · rename_i hkind
    exact .of_looks looks_previous (h t ht hkind)
  · rename_i hkind
    rintro d hfinal - rfl
    obtain ⟨hreads, hless⟩ := shift_readsOn hfinal hkind d.next
    exact Ensures.change_bind ⟨hreads, fun _ => hless⟩

theorem advance_ends : Advances n P (fun _ => False) advance := advance_advances fun _ _ _ _ => id

theorem advance_known {t : Token} (ht : t.kind ≠ .finish) : Advances n (· = t) (fun _ => True) advance :=
  advance_advances fun _ heq hkind => absurd (heq ▸ hkind) ht

theorem Advances.check {f : Bool → Compile β} (hyes : Advances n (fun t => t.kind = kind) r (f true))
    (hno : Advances n P r (f false)) : Advances n P r (check kind >>= f) := by
  intro d hfinal hlength hnext
  refine Ensures.run (a := decide (d.next.kind = kind)) (t := d) rfl ?_
  by_cases hkind : d.next.kind = kind
  · rw [decide_eq_true hkind]
    exact hyes d hfinal hlength hkind
  · rw [decide_eq_false hkind]
    exact hno d hfinal hlength hnext

theorem accept_advances (h : kind ≠ .finish) : Advances n P (fun b => b = true) (accept kind) := by
  refine .check ?_ (.pure Bool.false_ne_true)
  have hadvance : Advances n (fun t => t.kind = kind) (fun _ => True) advance :=
    advance_advances fun t ht hfinish => absurd (ht.symm.trans hfinish) h
  exact hadvance.reading fun _ => .done true

theorem Advances.accept_less {y z : Compile β} (h : kind ≠ .finish) (hy : Ends n y)
    (hz : Advances (n + 1) (fun _ => True) r z) :
    Advances (n + 1) P r (accept kind >>= fun b => if b = true then y else z) := by
  intro d hfinal hlength hnext
  refine (accept_advances h d hfinal hlength hnext).bind fun b d' hb => ?_
  obtain ⟨hreads, hless⟩ := hb
  have hfinal' : d'.final.kind = .finish := hreads.final ▸ hfinal
  cases b with
  | true =>
    have hfewer := Nat.lt_of_lt_of_le (hless rfl) (Nat.le_of_lt_succ hlength)
    refine since hreads (hy d' hfinal' hfewer trivial) fun _ _ hreads' _ _ => ?_
    exact Nat.lt_of_le_of_lt hreads'.length_le (hless rfl)
  | false =>
    have hfewer := Nat.lt_of_le_of_lt hreads.length_le hlength
    refine since hreads (hz d' hfinal' hfewer trivial) fun _ _ _ hless hr => ?_
    exact Nat.lt_of_lt_of_le (hless hr) hreads.length_le

theorem Advances.accept {y z : Compile β} (h : kind ≠ .finish) (hy : Ends n y)
    (hz : Advances n (fun _ => True) r z) :
    Advances n P r (accept kind >>= fun b => if b = true then y else z) := by
  cases n with
  | zero => exact fun d _ hlength => absurd hlength (Nat.not_lt_zero _)
  | succ n => exact .accept_less h hy.less hz

theorem expect_consumes (h : kind ≠ .finish) (message : Text) :
    Advances n P (fun _ => True) (expect kind message) := by
  refine .check ?_ (.look looks_peek fun t => .fail message t)
  exact advance_advances fun t ht hfinish => absurd (ht.symm.trans hfinish) h

theorem skipTokens_read {kinds : List TokenKind} (h : .finish ∉ kinds) (previous : Option Token)
    (tokens : List Token) :
    ∃ read, tokens = read ++ (skipTokens kinds previous tokens).2 ∧ ∀ t ∈ read, t.kind ≠ .finish := by
  induction tokens generalizing previous with
  | nil => exact ⟨[], rfl, nofun⟩
  | cons t rest ih =>
    unfold skipTokens
    split
    · rename_i hkind
      obtain ⟨read, hread, hkinds⟩ := ih (some t)
      refine ⟨t :: read, congrArg (t :: ·) hread, List.forall_mem_cons.2 ⟨?_, hkinds⟩⟩
      intro hfinish
      exact h (hfinish ▸ List.contains_iff_mem.1 hkind)
    · exact ⟨[], rfl, nofun⟩

theorem skip_ends {kinds : List TokenKind} (h : .finish ∉ kinds) : Advances n P (fun _ => False) (skip kinds) :=
  fun d _ _ _ => Ensures.change ⟨⟨rfl, skipTokens_read h d.previous d.ahead⟩, False.elim⟩

theorem skipNewlines_ends : Advances n P (fun _ => False) skipNewlines := skip_ends (by decide)

theorem skipSeparators_ends : Advances n P (fun _ => False) skipSeparators := skip_ends (by decide)

theorem endStatement_ends : Ends n endStatement := by
  refine .accept (by decide) (.done ()) (.accept (by decide) (.done ()) ?_)
  refine .look (looks_checkAny _) fun b => .ite (.done ()) ?_
  exact .look looks_peek fun t => .fail _ t

section
variable {α : Type} {step : α → Compile (α × Bool)}

/-- Where fewer than `n` tokens are ahead, a round ends, and it reads a token if it is to be repeated. -/
def Rounds (n : Nat) (step : α → Compile (α × Bool)) : Prop :=
  ∀ a, Advances n (fun _ => True) (fun b => b.2 = true) (step a)

theorem loop_ends (hstep : Rounds n step) (limit : Nat) (a : α) {d : Draft} (hfinal : d.final.kind = .finish)
    (hlength : d.ahead.length < n) (hlimit : d.ahead.length < limit) :
    Ensures (loop step limit a) d (fun _ d' => d.ReadsOn d') fun e d' => e ≠ .exhausted ∧ d.ReadsOn d' := by
  induction limit generalizing a d with
  | zero => exact absurd hlimit (Nat.not_lt_zero _)
  | succ limit ih =>
    refine (hstep a d hfinal hlength trivial).bind fun b d' hb => ?_
    obtain ⟨b, again⟩ := b
    obtain ⟨hreads, hless⟩ := hb
    cases again with
    | false => exact hreads
    | true =>
      have hshorter := hless rfl
      have hrest := ih b (hreads.final ▸ hfinal) (Nat.lt_trans hshorter hlength)
        (Nat.lt_of_lt_of_le hshorter (Nat.le_of_lt_succ hlimit))
      exact hrest.mono (fun _ _ h' => hreads.trans h') fun _ _ h' => ⟨h'.1, hreads.trans h'.2⟩

theorem whileReading_ends (hstep : Rounds n step) (a : α) : Ends n (whileReading a step) :=
  fun _ hfinal hlength _ => Ensures.get_bind
    ((loop_ends hstep _ a hfinal hlength (Nat.lt_succ_self _)).imp fun _ _ h => ⟨h, False.elim⟩)

/-- An item and a comma, if one follows. -/
def commaRound (item : Compile α) (items : List α) : Compile (List α × Bool) := do
  let a ← item
  return (a :: items, ← accept .comma)

theorem commaSeparated_eq (item : Compile α) : commaSeparated item = (do
    let items ← whileReading ([] : List α) (commaRound item)
    return items.reverse) := rfl

theorem commaRound_rounds {item : Compile α} (h : Ends n item) : Rounds n (commaRound item) := fun _ =>
  .bind h fun _ => (accept_advances (by decide)).bind_pure fun _ => id

theorem commaSeparated_ends {item : Compile α} (h : Ends n item) : Ends n (commaSeparated item) := by
  rw [commaSeparated_eq]
  exact .bind (whileReading_ends (commaRound_rounds h) []) fun _ => .done _

end

theorem looks_modifyProgram (f : Program → Program) : Looks (modifyProgram f) := .modify fun _ => ⟨rfl, rfl⟩

theorem looks_modifyScope (i : Nat) (f : Scope → Scope) : Looks (modifyScope i f) := looks_modifyProgram _

theorem looks_addScope (kind : ScopeKind) (name : Text) (site : Token) : Looks (addScope kind name site) :=
  .bind .get fun _ => .bind (looks_modifyProgram _) fun _ => .pure _

theorem looks_openScope (kind : ScopeKind) (name : Text) (isFunction isClosure : Bool) (site : Token) :
    Looks (openScope kind name isFunction isClosure site) :=
  .bind (looks_addScope _ _ _) fun _ => .bind (.modify fun _ => ⟨rfl, rfl⟩) fun _ => .pure _

theorem looks_closeScope : Looks closeScope := .modify fun _ => ⟨rfl, rfl⟩

theorem looks_currentScope : Looks currentScope := .bind .get fun _ => .pure _

theorem looks_scopeAt (i : Nat) : Looks (scopeAt i) := .bind .get fun _ => .pure _

theorem looks_codeSize : Looks codeSize :=
  looks_currentScope.bind fun i => (looks_scopeAt i).bind fun _ => .pure _

theorem looks_alloc : Looks alloc :=
  looks_currentScope.bind fun i => (looks_scopeAt i).bind fun _ => (looks_modifyScope i _).bind fun _ => .pure _

theorem looks_emit (op : Operation) (site : Token) : Looks (emit op site) :=
  looks_currentScope.bind fun i => looks_modifyScope i _

theorem looks_emitTo (op : Register → Operation) (site : Token) (f : Register → α) : Looks (do
    let out ← alloc
    emit (op out) site
    return f out) :=
  looks_alloc.bind fun out => (looks_emit (op out) site).bind fun _ => .pure (f out)

theorem emitTo_ends (op : Register → Operation) (site : Token) (f : Register → α) : Ends n (do
    let out ← alloc
    emit (op out) site
    return f out) := .of_looks (looks_emitTo op site f) fun _ => id

theorem looks_declareAs (name : Text) (info : NameInfo) : Looks (declareAs name info) := by
  refine .modify fun d => ?_
  split
  · exact ⟨rfl, rfl⟩
  · exact .refl d

theorem looks_declare (name : Text) (isMutable : Bool) : Looks (declare name isMutable) :=
  looks_declareAs name _

theorem looks_forM {γ : Type} {f : γ → Compile Unit} (h : ∀ a, Looks (f a)) (l : List γ) :
    Looks (l.forM f) := by
  induction l with
  | nil => exact .pure ()
  | cons a l ih => exact (h a).bind fun _ => ih

theorem looks_declareParams (scope : Nat) (params : List Parameter) : Looks (declareParams scope params) :=
  (looks_modifyScope scope _).bind fun _ => looks_forM (fun p => looks_declare p.name false) params

theorem looks_lookup (name : Text) : Looks (lookup name) := by
  intro d
  refine Ensures.get_bind ?_
  dsimp only
  split
  · exact Ensures.bind (R := fun _ d' => d.Keeps d') (Ensures.set ⟨rfl, rfl⟩) fun _ _ h => Ensures.pure h
  · exact Ensures.pure (.refl d)

theorem looks_atTopLevel : Looks atTopLevel := .bind .get fun _ => .pure _

theorem looks_requireTopLevel (site : Token) (what : Text) : Looks (requireTopLevel site what) :=
  looks_atTopLevel.bind fun _ => .ite (.pure ()) (.fail _ site)

theorem looks_register (f : Registry → Except RegistryError Registry) : Looks (register f) := by
  refine .bind .get fun d => ?_
  split
  · exact looks_modifyProgram _
  · exact .throw nofun

theorem within_ends {x : Compile α} (name : Text) (h : Ends n x) : Ends n (within name x) := by
  have hname (name : Text) : Looks (modify fun d => { d with functionName := name }) :=
    .modify fun _ => ⟨rfl, rfl⟩
  refine .look .get fun d => .look (hname name) fun _ => h.bind fun a => ?_
  exact .look (hname d.functionName) fun _ => .done a

theorem looks_numberLiteral (t : Token) : Looks (numberLiteral t) := by
  unfold numberLiteral
  split
  · exact .pure _
  · exact .fail _ t

theorem literalValue_ends : Ends n literalValue := by
  refine .peek fun t _ => ?_
  have hnumber : Ends n (do return Value.num (← numberLiteral (← advance))) :=
    .bind advance_ends fun number => .look (looks_numberLiteral number) fun _ => .done _
  split
  · refine .look (looks_peekAt 1) fun next => .ite (.bind advance_ends fun _ => ?_) (.fail _ t)
    exact .bind advance_ends fun number => .look (looks_numberLiteral number) fun _ => .done _
  · exact hnumber.anywhere
  · exact .bind advance_ends fun _ => .done _
  · exact .bind advance_ends fun _ => .done _
  · exact .bind advance_ends fun _ => .done _
  · exact .bind advance_ends fun _ => .done _
  · exact .bind advance_ends fun _ => .bind (expect_consumes (by decide) _) fun _ => .done _
  · exact .bind advance_ends fun _ => .bind (expect_consumes (by decide) _) fun _ => .done _
  · exact .fail _ t

theorem typeName_consumes : Consumes n typeName := (expect_consumes (by decide) _).bind_pure fun _ => id

theorem typeAnnotation_ends : Ends n typeAnnotation := .accept (by decide) typeName_consumes.ends (.done _)

theorem tag_ends : Ends n tag := by
  refine .bind (expect_consumes (by decide) _) fun name => .accept (by decide) ?_ (.done _)
  have hrest : ∀ args : List Value, Ends n (do
      let _ ← expect .rparen "Expected ')' after lifecycle arguments"
      return (⟨name.text, args⟩ : Tag)) := fun args =>
    .bind (expect_consumes (by decide) _) fun _ => .done _
  refine .look (looks_check _) fun empty => .ite (.look (.pure _) hrest) ?_
  exact .bind (commaSeparated_ends literalValue_ends) hrest

/-- A tag after its sign, and the separators behind it. -/
def tagRound (found : List Tag) : Compile (List Tag × Bool) := do
  if ← accept .atSign then
    let t ← tag
    skipSeparators
    return (t :: found, true)
  else return (found, false)

theorem tags_eq : tags = (do
    let found ← whileReading ([] : List Tag) tagRound
    if found.isEmpty || (← check .kwFn) then return found.reverse
    else fail "Expected 'fn' after lifecycle tags" (← peek)) := rfl

theorem tagRound_rounds : Rounds n tagRound := fun _ =>
  .accept (by decide) (.bind tag_ends fun _ => .bind skipSeparators_ends fun _ => .done _)
    (.pure Bool.false_ne_true)

theorem tags_ends : Ends n tags := by
  rw [tags_eq]
  refine .bind (whileReading_ends tagRound_rounds []) fun found => .look (looks_check _) fun _ => ?_
  exact .ite (.done _) (.look looks_peek fun t => .fail _ t)

theorem parameter_ends (params : List Parameter) : Ends n (parameter params) := by
  refine .bind (expect_consumes (by decide) _) fun name => .bind typeAnnotation_ends fun type => ?_
  refine .accept (by decide) (.bind literalValue_ends fun _ => .done _) (.ite ?_ (.done _))
  exact .look looks_previous fun t => .fail _ t

/-- A parameter and a comma, if one follows. -/
def parameterRound (params : List Parameter) : Compile (List Parameter × Bool) := do
  skipNewlines
  let p ← parameter params
  skipNewlines
  return (p :: params, ← accept .comma)

theorem parameterList_eq (close : TokenKind) (message : Text) : parameterList close message = (do
    skipNewlines
    let params ← if ← check close then pure [] else whileReading ([] : List Parameter) parameterRound
    let _ ← expect close message
    return params.reverse) := rfl

theorem parameterRound_rounds : Rounds n parameterRound := fun params =>
  .bind skipNewlines_ends fun _ => .bind (parameter_ends params) fun _ => .bind skipNewlines_ends fun _ =>
    (accept_advances (by decide)).bind_pure fun _ => id

theorem parameterList_ends {close : TokenKind} (h : close ≠ .finish) (message : Text) :
    Ends n (parameterList close message) := by
  have hrest : ∀ params : List Parameter, Ends n (do
      let _ ← expect close message
      return params.reverse) := fun params => .bind (expect_consumes h _) fun _ => .done _
  rw [parameterList_eq]
  refine .bind skipNewlines_ends fun _ => .look (looks_check _) fun _ => .ite (.look (.pure _) hrest) ?_
  exact .bind (whileReading_ends parameterRound_rounds []) hrest

theorem header_consumes (tags : List Tag) (owner : Option Text) : Consumes n (header tags owner) := by
  refine (expect_consumes (by decide) _).reading fun token => ?_
  refine .bind (accept_advances (by decide)) fun mutableReceiver => ?_
  refine .bind (expect_consumes (by decide) _) fun first => ?_
  -- whichever way the name and the receiver are found, the same parts follow
  have hrest : ∀ name : Text × Option DeclaredType, Ends n (
      if mutableReceiver && name.2.isNone then
        fail "Only extension functions take a mutable receiver" first
      else do
        let params ← if ← accept .lparen then parameterList .rparen "Expected ')' after parameters"
          else pure []
        let returns ← if ← accept .arrow then typeName else pure .any
        return (⟨token, name.1, ⟨params, returns, name.2, mutableReceiver⟩, tags⟩ : Header)) := by
    intro name
    have hreturns : ∀ params, Ends n (do
        let returns ← if ← accept .arrow then typeName else pure .any
        return (⟨token, name.1, ⟨params, returns, name.2, mutableReceiver⟩, tags⟩ : Header)) := fun params =>
      .accept (by decide) (.bind typeName_consumes fun _ => .done _) (.look (.pure _) fun _ => .done _)
    refine .ite (.fail _ first) (.accept (by decide) ?_ (.look (.pure _) hreturns))
    exact .bind (parameterList_ends (by decide) _) hreturns
  refine .accept (by decide) ?_ (.look (.pure _) hrest)
  exact .bind (expect_consumes (by decide) _) fun name => .look (.pure _) hrest

end Compile

end ScriptMachine
