import ScriptMachine.Proofs.Compiler.Headers
import ScriptMachine.Proofs.Value.Renaming
import ScriptMachine.Compiler.Source

set_option autoImplicit false

namespace ScriptMachine

/-- A value that looks the same whatever numbers are given from the time on. -/
def Value.Lasting (time : Nat) (v : Value) : Prop :=
  ∀ ρ : Renaming, ρ.time = time → ρ.value v = v

theorem Value.Literal.lasting {v : Value} (h : v.Literal) (time : Nat) : v.Lasting time := by
  intro ρ _
  cases h with
  | emptyList => exact Renaming.value_list []
  | emptyMap => exact Renaming.value_map []
  | _ => rfl

def Signature.Lasting (time : Nat) (s : Signature) : Prop :=
  ∀ p ∈ s.params, ∀ v ∈ p.default, v.Lasting time

def Trait.Lasting (time : Nat) (t : Trait) : Prop := ∀ e ∈ t.functions, e.2.Lasting time

/-- A function that a source declares. -/
structure Function.Sourced (time : Nat) (f : Function) : Prop where
  signature : f.signature.Lasting time
  native : ∀ code, f.body = .native code →
    ∃ t : RecordType, code = some (Compile.constructRecord t) ∧ ∀ f ∈ t.fields, f.Literal

structure Instruction.Sourced (i : Instruction) : Prop where
  placed : i.location.known = true
  literal : ∀ v out, i.operation = .load v out → v.Literal

structure Program.Sourced (time : Nat) (p : Program) : Prop where
  code : ∀ s ∈ p.scopes, ∀ i ∈ s.code, i.Sourced
  closures : ∀ f ∈ p.closures, f.Sourced time ∧ f.tags = []
  functions : ∀ f ∈ p.modules.functions, f.Sourced time
  traits : ∀ e ∈ p.modules.traits, e.2.Lasting time

def Token.Placed (t : Token) : Prop := t.line ≠ 0

structure Draft.Sourced (time : Nat) (d : Draft) : Prop where
  program : d.program.Sourced time
  builtins : ∀ b ∈ d.builtins, ∀ e ∈ b.traits, e.2.Lasting time
  ahead : ∀ t ∈ d.ahead, t.Placed
  previous : ∀ t ∈ d.previous, t.Placed
  final : d.final.Placed

namespace Compile

/-- A header as it is read after some tags. -/
structure Header.Sourced (tags : List Tag) (h : Header) : Prop where
  token : h.token.Placed
  signature : h.signature.Literal
  tags : h.tags = tags

def Answers {α : Type} (time : Nat) (x : Compile α) (R : α → Prop) : Prop :=
  ∀ d, d.Sourced time → Post x d fun a d' => d'.Sourced time ∧ R a

abbrev Minds {α : Type} (time : Nat) (x : Compile α) : Prop := Answers time x fun _ => True

section

variable {α β : Type} {time : Nat} {x y : Compile α} {f : α → Compile β} {R Q : α → Prop}
  {S : β → Prop}

namespace Answers

theorem pure {a : α} (h : R a) : Answers time (Pure.pure a) R := fun _ hd => ⟨hd, h⟩

theorem throw (e : CompileError) : Answers time (MonadExcept.throw e) R := fun _ _ => trivial

theorem bind (hx : Answers time x R) (hf : ∀ a, R a → Answers time (f a) S) :
    Answers time (x >>= f) S :=
  fun d hd => Ensures.bind (hx d hd) fun a d' h => hf a h.2 d' h.1

theorem imp (hx : Answers time x R) (h : ∀ a, R a → Q a) : Answers time x Q :=
  fun d hd => (hx d hd).imp fun a _ hr => ⟨hr.1, h a hr.2⟩

theorem ite {c : Prop} [Decidable c] (hx : Answers time x R) (hy : Answers time y R) :
    Answers time (if c then x else y) R := by
  split
  · exact hx
  · exact hy

theorem ite_bind {c : Prop} [Decidable c] (hx : Answers time x R) (hy : Answers time y R)
    (hf : ∀ a, R a → Answers time (f a) S) :
    Answers time (if c then x >>= f else y >>= f) S :=
  ite (hx.bind hf) (hy.bind hf)

theorem get : Answers time (MonadState.get : Compile Draft) (Draft.Sourced time) :=
  fun _ hd => ⟨hd, hd⟩

theorem change {g : Draft → Draft} (h : ∀ d, d.Sourced time → (g d).Sourced time) :
    Minds time (modify g : Compile Unit) := fun d hd => ⟨h d hd, trivial⟩

theorem put {d : Draft} (h : d.Sourced time) : Minds time (MonadStateOf.set d : Compile Unit) :=
  fun _ _ => ⟨h, trivial⟩

theorem fail (message : Text) (site : Token) : Answers time (Compile.fail message site) R :=
  get.bind fun _ _ => throw _

theorem whileReading {step : α → Compile (α × Bool)} {a : α}
    (hstep : ∀ a, R a → Answers time (step a) fun b => R b.1) (ha : R a) :
    Answers time (Compile.whileReading a step) R := fun _ hd =>
  whileReading_post (I := fun a (e : Draft) => e.Sourced time ∧ R a) (fun a _ h => hstep a h.2 _ h.1) ⟨hd, ha⟩

end Answers

end

variable {time : Nat}

theorem peek_answers : Answers time peek Token.Placed := by
  refine Answers.get.bind fun d hd => .pure ?_
  have hahead := hd.ahead
  cases h : d.ahead with
  | nil => exact hd.final
  | cons t rest => exact hahead t (by simp [h])

theorem peekAt_answers (i : Nat) : Answers time (peekAt i) Token.Placed := by
  refine Answers.get.bind fun d hd => .pure ?_
  cases h : d.ahead[i]? with
  | none => exact hd.final
  | some t => exact hd.ahead t (List.mem_of_getElem? h)

theorem previous_answers : Answers time previous Token.Placed := by
  refine Answers.get.bind fun d hd => ?_
  cases h : d.previous with
  | none => exact peek_answers
  | some t => exact .pure (hd.previous t h)

theorem isAtEnd_minds : Minds time isAtEnd := peek_answers.bind fun _ _ => .pure trivial

theorem advance_answers : Answers time advance Token.Placed := by
  refine peek_answers.bind fun t ht => .ite previous_answers ?_
  refine Answers.bind (.change fun d hd => ?_) fun _ _ => .pure ht
  refine { hd with ahead := fun u hu => hd.ahead u (List.mem_of_mem_tail hu), previous := ?_ }
  rintro _ ⟨⟩
  exact ht

theorem check_minds (kind : TokenKind) : Minds time (check kind) :=
  peek_answers.bind fun _ _ => .pure trivial

theorem checkAny_minds (kinds : List TokenKind) : Minds time (checkAny kinds) :=
  peek_answers.bind fun _ _ => .pure trivial

theorem accept_minds (kind : TokenKind) : Minds time (accept kind) := by
  refine (check_minds kind).bind fun _ _ => .ite ?_ (.pure trivial)
  exact advance_answers.bind fun _ _ => .pure trivial

theorem expect_answers (kind : TokenKind) (message : Text) :
    Answers time (expect kind message) Token.Placed :=
  (check_minds kind).bind fun _ _ => .ite advance_answers (peek_answers.bind fun t _ => .fail _ t)

theorem skipTokens_placed {kinds : List TokenKind} {previous : Option Token} {ahead : List Token}
    (hp : ∀ t ∈ previous, t.Placed) (ha : ∀ t ∈ ahead, t.Placed) :
    (∀ t ∈ (skipTokens kinds previous ahead).1, t.Placed) ∧
      ∀ t ∈ (skipTokens kinds previous ahead).2, t.Placed := by
  induction ahead generalizing previous with
  | nil => exact ⟨hp, ha⟩
  | cons t rest ih =>
    obtain ⟨ht, hrest⟩ := List.forall_mem_cons.1 ha
    unfold skipTokens
    split
    · refine ih ?_ hrest
      rintro _ ⟨⟩
      exact ht
    · exact ⟨hp, ha⟩

theorem skip_minds (kinds : List TokenKind) : Minds time (skip kinds) :=
  .change fun _ hd =>
    { hd with
      ahead := (skipTokens_placed hd.previous hd.ahead).2
      previous := (skipTokens_placed hd.previous hd.ahead).1 }

theorem endStatement_minds : Minds time endStatement := by
  refine (accept_minds .newline).bind fun _ _ => .ite (.pure trivial) ?_
  refine (accept_minds .semicolon).bind fun _ _ => .ite (.pure trivial) ?_
  refine (checkAny_minds _).bind fun _ _ => .ite (.pure trivial) ?_
  exact peek_answers.bind fun t _ => .fail _ t

theorem commaSeparated_minds {α : Type} {item : Compile α} (hi : Minds time item) :
    Minds time (commaSeparated item) := by
  refine Answers.bind (R := fun _ => True) (.whileReading (fun items _ => ?_) trivial) fun _ _ =>
    .pure trivial
  exact hi.bind fun _ _ => (accept_minds .comma).bind fun _ _ => .pure trivial

theorem place_known {t : Token} (h : t.Placed) : (place t).known = true := by
  simpa [place, Location.known, Token.Placed] using h

theorem modifyProgram_minds {f : Program → Program}
    (h : ∀ p, p.Sourced time → (f p).Sourced time) : Minds time (modifyProgram f) :=
  .change fun _ hd => { hd with program := h _ hd.program }

theorem addScope_minds (kind : ScopeKind) (name : Text) (site : Token) :
    Minds time (addScope kind name site) := by
  refine Answers.get.bind fun d _ => ?_
  refine Answers.bind (R := fun _ => True) (modifyProgram_minds fun p hp =>
    { hp with code := fun s hs => ?_ }) fun _ _ => .pure trivial
  rcases Array.mem_push.1 hs with hs | rfl
  · exact hp.code s hs
  · exact fun i hi => absurd hi (Array.not_mem_empty i)

theorem openScope_minds (kind : ScopeKind) (name : Text) (isFunction isClosure : Bool) (site : Token) :
    Minds time (openScope kind name isFunction isClosure site) :=
  (addScope_minds kind name site).bind fun _ _ =>
    Answers.bind (.change fun _ hd => { hd with }) fun _ _ => .pure trivial

theorem closeScope_minds : Minds time closeScope := .change fun _ hd => { hd with }

theorem currentScope_minds : Minds time currentScope := Answers.get.bind fun _ _ => .pure trivial

theorem scopeAt_answers (i : Nat) :
    Answers time (scopeAt i) fun s => ∀ j ∈ s.code, j.Sourced := by
  refine Answers.get.bind fun d hd => .pure ?_
  cases h : d.program.scopes[i]? with
  | none => exact fun j hj => absurd hj (Array.not_mem_empty j)
  | some s => exact hd.program.code s (Array.mem_of_getElem? h)

theorem modifyScope_minds (i : Nat) {f : Scope → Scope}
    (h : ∀ s : Scope, (∀ j ∈ s.code, j.Sourced) → ∀ j ∈ (f s).code, j.Sourced) :
    Minds time (modifyScope i f) := by
  refine modifyProgram_minds fun p hp => { hp with code := fun s hs => ?_ }
  obtain ⟨j, hj⟩ := Array.mem_iff_getElem?.1 hs
  rw [Array.getElem?_modify] at hj
  split at hj
  · obtain ⟨t, ht, rfl⟩ := Option.map_eq_some_iff.1 hj
    exact h t (hp.code t (Array.mem_of_getElem? ht))
  · exact hp.code s (Array.mem_of_getElem? hj)

theorem alloc_minds : Minds time alloc := by
  refine currentScope_minds.bind fun i _ => (scopeAt_answers i).bind fun s _ => ?_
  exact Answers.bind (R := fun _ => True) (modifyScope_minds i fun _ hs => hs) fun _ _ => .pure trivial

theorem emit_minds {op : Operation} {site : Token} (hsite : site.Placed)
    (h : ∀ v out, op = .load v out → v.Literal) : Minds time (emit op site) := by
  refine currentScope_minds.bind fun i _ => modifyScope_minds i fun s hs j hj => ?_
  rcases Array.mem_push.1 hj with hj | rfl
  · exact hs j hj
  · exact ⟨place_known hsite, h⟩

theorem codeSize_minds : Minds time codeSize :=
  currentScope_minds.bind fun i _ => (scopeAt_answers i).bind fun _ _ => .pure trivial

theorem declareAs_minds (name : Text) (info : NameInfo) : Minds time (declareAs name info) := by
  refine .change fun d hd => ?_
  cases h : d.opened with
  | nil => exact hd
  | cons s rest => exact { hd with }

theorem declareAll_minds (names : List Text) : Minds time (names.forM fun n => declare n false) := by
  induction names with
  | nil => exact .pure trivial
  | cons n names ih => exact (declareAs_minds n _).bind fun _ _ => ih

theorem lookup_minds (name : Text) : Minds time (lookup name) := by
  refine Answers.get.bind fun d hd => ?_
  dsimp only
  split
  · exact Answers.bind (.put { hd with }) fun _ _ => .pure trivial
  · exact .pure trivial

theorem atTopLevel_minds : Minds time atTopLevel := Answers.get.bind fun _ _ => .pure trivial

theorem requireTopLevel_minds (site : Token) (what : Text) : Minds time (requireTopLevel site what) :=
  atTopLevel_minds.bind fun _ _ => .ite (.pure trivial) (.fail _ site)

theorem within_answers {α : Type} {R : α → Prop} (name : Text) {body : Compile α}
    (hb : Answers time body R) : Answers time (within name body) R := by
  refine Answers.get.bind fun d _ => ?_
  refine Answers.bind (R := fun _ => True) (.change fun _ hd => { hd with }) fun _ _ => ?_
  refine hb.bind fun a ha => ?_
  exact Answers.bind (R := fun _ => True) (.change fun _ hd => { hd with }) fun _ _ => .pure ha

theorem register_minds {f : Registry → Except RegistryError Registry}
    (hf : ∀ p : Program, p.Sourced time → ∀ r, f p.modules = .ok r →
      ({ p with modules := r } : Program).Sourced time) : Minds time (register f) := by
  intro d hd
  refine Ensures.get_bind ?_
  dsimp only
  split
  · exact ⟨{ hd with program := hf _ hd.program _ ‹_› }, trivial⟩
  · trivial

theorem numberLiteral_minds (t : Token) : Minds time (numberLiteral t) := by
  unfold numberLiteral
  split
  · exact .pure trivial
  · exact .fail _ t

theorem literalValue_minds : Minds time literalValue := by
  refine peek_answers.bind fun t _ => ?_
  split
  · refine (peekAt_answers 1).bind fun _ _ => .ite ?_ (.fail _ t)
    refine advance_answers.bind fun _ _ => advance_answers.bind fun number _ => ?_
    exact (numberLiteral_minds number).bind fun _ _ => .pure trivial
  · refine advance_answers.bind fun number _ => ?_
    exact (numberLiteral_minds number).bind fun _ _ => .pure trivial
  · exact advance_answers.bind fun _ _ => .pure trivial
  · exact advance_answers.bind fun _ _ => .pure trivial
  · exact advance_answers.bind fun _ _ => .pure trivial
  · exact advance_answers.bind fun _ _ => .pure trivial
  · exact advance_answers.bind fun _ _ => (expect_answers _ _).bind fun _ _ => .pure trivial
  · exact advance_answers.bind fun _ _ => (expect_answers _ _).bind fun _ _ => .pure trivial
  · exact .fail _ t

theorem typeName_minds : Minds time typeName := (expect_answers _ _).bind fun _ _ => .pure trivial

theorem typeAnnotation_minds : Minds time typeAnnotation :=
  (accept_minds _).bind fun _ _ => .ite typeName_minds (.pure trivial)

theorem tag_minds : Minds time tag := by
  refine (expect_answers _ _).bind fun _ _ => (accept_minds _).bind fun _ _ => ?_
  refine .ite ((check_minds _).bind fun _ _ => ?_) (.pure trivial)
  refine .ite_bind (R := fun _ => True) (.pure trivial) (commaSeparated_minds literalValue_minds)
    fun _ _ => ?_
  exact (expect_answers _ _).bind fun _ _ => .pure trivial

theorem tags_minds : Minds time tags := by
  refine Answers.bind (R := fun _ => True) (.whileReading (fun found _ => ?_) trivial) fun found _ => ?_
  · refine (accept_minds _).bind fun _ _ => .ite ?_ (.pure trivial)
    exact tag_minds.bind fun _ _ => (skip_minds _).bind fun _ _ => .pure trivial
  · refine (check_minds _).bind fun _ _ => .ite (.pure trivial) ?_
    exact peek_answers.bind fun t _ => .fail _ t

theorem parameter_minds (params : List Parameter) : Minds time (parameter params) := by
  refine (expect_answers _ _).bind fun _ _ => typeAnnotation_minds.bind fun _ _ => ?_
  refine (accept_minds _).bind fun _ _ => .ite ?_ (.ite ?_ (.pure trivial))
  · exact literalValue_minds.bind fun _ _ => .pure trivial
  · exact previous_answers.bind fun t _ => .fail _ t

theorem parameterList_minds (close : TokenKind) (message : Text) :
    Minds time (parameterList close message) := by
  refine (skip_minds _).bind fun _ _ => (check_minds _).bind fun _ _ => ?_
  refine .ite_bind (R := fun _ => True) (.pure trivial) (.whileReading (fun params _ => ?_) trivial)
    fun _ _ => ?_
  · refine (skip_minds _).bind fun _ _ => (parameter_minds params).bind fun _ _ => ?_
    exact (skip_minds _).bind fun _ _ => (accept_minds _).bind fun _ _ => .pure trivial
  · exact (expect_answers _ _).bind fun _ _ => .pure trivial

theorem parameterList_answers (close : TokenKind) (message : Text) :
    Answers time (parameterList close message) fun params => ∀ p ∈ params, p.Literal :=
  fun d hd => (post_both (parameterList_minds close message d hd) (parameterList_literal close message d)).imp
    fun _ _ h => ⟨h.1.1, h.2⟩

theorem header_placed (tags : List Tag) (owner : Option Text) :
    Answers time (header tags owner) fun h => h.token.Placed ∧ h.tags = tags := by
  refine (expect_answers _ _).bind fun token htoken => (accept_minds _).bind fun mutableReceiver _ => ?_
  refine (expect_answers _ _).bind fun first _ => (accept_minds _).bind fun _ _ => ?_
  have hrest : ∀ name : Text × Option DeclaredType, Answers time (
      if mutableReceiver && name.2.isNone then
        fail "Only extension functions take a mutable receiver" first
      else do
        let params ← if ← accept .lparen then parameterList .rparen "Expected ')' after parameters"
          else pure []
        let returns ← if ← accept .arrow then typeName else pure .any
        return (⟨token, name.1, ⟨params, returns, name.2, mutableReceiver⟩, tags⟩ : Header))
      fun h => h.token.Placed ∧ h.tags = tags := by
    intro name
    refine .ite (.fail _ first) ((accept_minds _).bind fun _ _ => ?_)
    refine .ite_bind (parameterList_minds _ _) (.pure trivial) fun _ _ => ?_
    refine (accept_minds _).bind fun _ _ => ?_
    exact .ite_bind typeName_minds (.pure trivial) fun _ _ => .pure ⟨htoken, rfl⟩
  refine .ite ((expect_answers _ _).bind fun _ _ => ?_) ?_
  · exact Answers.bind (R := fun _ => True) (.pure trivial) fun name _ => hrest name
  · exact Answers.bind (R := fun _ => True) (.pure trivial) fun name _ => hrest name

theorem header_answers (tags : List Tag) (owner : Option Text) :
    Answers time (header tags owner) (Header.Sourced tags) :=
  fun d hd => (post_both (header_placed tags owner d hd) (header_literal tags owner d)).imp
    fun _ _ h => ⟨h.1.1, h.1.2.1, h.2, h.1.2.2⟩

theorem field_answers : Answers time field Field.Literal := by
  have hminds : Minds time field := by
    refine (expect_answers _ _).bind fun name _ => typeAnnotation_minds.bind fun type _ => ?_
    refine (accept_minds _).bind fun _ _ => ?_
    have hrest : ∀ default : Option Value, Minds time (do
        endStatement
        return (⟨name.text, type, default⟩ : Field)) := fun default =>
      endStatement_minds.bind fun _ _ => .pure trivial
    refine .ite ?_ (Answers.bind (R := fun _ => True) (.pure trivial) fun default _ => hrest default)
    refine literalValue_minds.bind fun _ _ => ?_
    exact Answers.bind (R := fun _ => True) (.pure trivial) fun default _ => hrest default
  exact fun d hd => (post_both (hminds d hd) (field_literal d)).imp fun _ _ h => ⟨h.1.1, h.2⟩

end Compile

end ScriptMachine
