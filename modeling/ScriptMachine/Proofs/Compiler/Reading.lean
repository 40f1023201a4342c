import ScriptMachine.Proofs.Outcome
import ScriptMachine.Compiler.Declaration

set_option autoImplicit false

namespace ScriptMachine

/-- The token to be read next. -/
def Draft.next (d : Draft) : Token := d.ahead.headD d.final

namespace Compile

abbrev Post {α : Type} (x : Compile α) (d : Draft) (Q : α → Draft → Prop) : Prop :=
  Ensures x d Q fun _ _ => True

theorem post_both {α : Type} {x : Compile α} {d : Draft} {Q R : α → Draft → Prop} (h : Post x d Q)
    (h' : Post x d R) : Post x d fun a d' => Q a d' ∧ R a d' :=
  (Ensures.both h h').mono (fun _ _ => id) fun _ _ _ => trivial

/-- Only tokens have been read. -/
structure Still (d d' : Draft) : Prop where
  program : d'.program = d.program
  opened : d'.opened = d.opened
  builtins : d'.builtins = d.builtins
  ahead : d'.ahead <:+ d.ahead
  final : d'.final = d.final

theorem Still.refl (d : Draft) : Still d d := ⟨rfl, rfl, rfl, List.suffix_rfl, rfl⟩

theorem Still.trans {d d' d'' : Draft} (h : Still d d') (h' : Still d' d'') : Still d d'' :=
  ⟨h'.program.trans h.program, h'.opened.trans h.opened, h'.builtins.trans h.builtins,
    h'.ahead.trans h.ahead, h'.final.trans h.final⟩

theorem Still.rename (d : Draft) (name : Text) : Still d { d with functionName := name } :=
  ⟨rfl, rfl, rfl, List.suffix_rfl, rfl⟩

/-- The same program, and the same scopes are open. -/
structure Undisturbed (d d' : Draft) : Prop where
  program : d'.program = d.program
  opened : d'.opened.map (·.scope) = d.opened.map (·.scope)

theorem Undisturbed.refl (d : Draft) : Undisturbed d d := ⟨rfl, rfl⟩

theorem Undisturbed.trans {d d' d'' : Draft} (h : Undisturbed d d') (h' : Undisturbed d' d'') :
    Undisturbed d d'' := ⟨h'.program.trans h.program, h'.opened.trans h.opened⟩

theorem Still.undisturbed {d d' : Draft} (h : Still d d') : Undisturbed d d' :=
  ⟨h.program, congrArg (List.map (·.scope)) h.opened⟩

/-- A relation of a draft to a later one for which reading tokens counts for nothing. -/
class Flow (T : Draft → Draft → Prop) : Prop where
  still : ∀ {d d' : Draft}, Still d d' → T d d'
  trans : ∀ {d d' d'' : Draft}, T d d' → T d' d'' → T d d''

theorem Flow.refl (T : Draft → Draft → Prop) [Flow T] (d : Draft) : T d d := Flow.still (Still.refl d)

instance : Flow Still := ⟨id, Still.trans⟩

instance : Flow Undisturbed := ⟨Still.undisturbed, Undisturbed.trans⟩

def Follows {α : Type} (T : Draft → Draft → Prop) (x : Compile α) : Prop :=
  ∀ d, Post x d fun _ d' => T d d'

abbrev Silent {α : Type} (x : Compile α) : Prop := Follows Still x

abbrev Discreet {α : Type} (x : Compile α) : Prop := Follows Undisturbed x

section
variable {α β : Type} {T : Draft → Draft → Prop} [Flow T] {x : Compile α} {f : α → Compile β}

theorem Follows.pure (a : α) : Follows T (Pure.pure a : Compile α) := fun d => Flow.refl T d

omit [Flow T] in
theorem Follows.throw (e : CompileError) : Follows T (MonadExcept.throw e : Compile α) :=
  fun _ => trivial

theorem Follows.bind (hx : Follows T x) (hf : ∀ a, Follows T (f a)) : Follows T (x >>= f) :=
  fun d => Ensures.bind (hx d) fun a d' h => (hf a d').imp fun _ _ h' => Flow.trans h h'

omit [Flow T] in
theorem Follows.ite {c : Prop} [Decidable c] {y : Compile α} (hx : Follows T x) (hy : Follows T y) :
    Follows T (if c then x else y) := by
  split
  · exact hx
  · exact hy

theorem Follows.ite_bind {c : Prop} [Decidable c] {y : Compile α} (hx : Follows T x)
    (hy : Follows T y) (hf : ∀ a, Follows T (f a)) :
    Follows T (if c then x >>= f else y >>= f) :=
  Follows.ite (hx.bind hf) (hy.bind hf)

omit [Flow T] in
theorem Follows.then {d : Draft} {P : β → Draft → Prop} (hx : Follows T x)
    (hf : ∀ a d', T d d' → Post (f a) d' P) : Post (x >>= f) d P :=
  Ensures.bind (hx d) hf

theorem Silent.follows (hx : Silent x) : Follows T x := fun d => (hx d).imp fun _ _ => Flow.still

theorem Silent.before (hx : Silent x) (hf : ∀ a, Follows T (f a)) : Follows T (x >>= f) :=
  hx.follows.bind hf

theorem Silent.then {d : Draft} {P : β → Draft → Prop} (hx : Silent x)
    (hf : ∀ a d', Undisturbed d d' → Post (f a) d' P) : Post (x >>= f) d P :=
  Ensures.bind (hx d) fun a d' h => hf a d' h.undisturbed

theorem silent_pure (a : α) : Silent (pure a) := Follows.pure a

theorem silent_throw (e : CompileError) : Silent (throw e : Compile α) := Follows.throw e

theorem silent_get : Silent (get : Compile Draft) := fun d => Still.refl d

theorem silent_modify {g : Draft → Draft} (h : ∀ d, Still d (g d)) :
    Silent (modify g : Compile Unit) := fun d => h d

end

section
variable {α : Type}

theorem loop_post {step : α → Compile (α × Bool)} {I : α → Draft → Prop}
    (hstep : ∀ a d, I a d → Post (step a) d fun b d' => I b.1 d') (n : Nat) (a : α) (d : Draft)
    (h : I a d) : Post (loop step n a) d I := by
  induction n generalizing a d with
  | zero => exact trivial
  | succ n ih =>
    refine Ensures.bind (hstep a d h) fun b d' hb => ?_
    obtain ⟨b, again⟩ := b
    cases again with
    | false => exact Ensures.pure hb
    | true => exact ih b d' hb

theorem whileReading_post {step : α → Compile (α × Bool)} {I : α → Draft → Prop}
    (hstep : ∀ a d, I a d → Post (step a) d fun b d' => I b.1 d') {a : α} {d : Draft}
    (h : I a d) : Post (whileReading a step) d I :=
  Ensures.bind (R := fun _ d' => I a d') (Ensures.get h) fun b d' h' =>
    loop_post hstep (b.ahead.length + 1) a d' h'

theorem Follows.whileReading {T : Draft → Draft → Prop} [Flow T] {step : α → Compile (α × Bool)}
    (hstep : ∀ a, Follows T (step a)) (a : α) : Follows T (Compile.whileReading a step) := fun d =>
  whileReading_post (I := fun _ d' => T d d')
    (fun a d' h => (hstep a d').imp fun _ _ h' => Flow.trans h h') (Flow.refl T d)

end

theorem silent_peek : Silent peek := silent_get.bind fun _ => silent_pure _

theorem silent_peekAt (i : Nat) : Silent (peekAt i) := silent_get.bind fun _ => silent_pure _

theorem silent_previous : Silent previous := by
  refine silent_get.bind fun d => ?_
  cases d.previous with
  | some t => exact silent_pure t
  | none => exact silent_peek

theorem silent_isAtEnd : Silent isAtEnd := silent_peek.bind fun _ => silent_pure _

theorem silent_advance : Silent advance := by
  refine silent_peek.bind fun t => Follows.ite silent_previous ?_
  refine Follows.bind (silent_modify ?_) fun _ => silent_pure t
  exact fun d => ⟨rfl, rfl, rfl, List.tail_suffix _, rfl⟩

theorem silent_check (kind : TokenKind) : Silent (check kind) :=
  silent_peek.bind fun _ => silent_pure _

theorem silent_checkAny (kinds : List TokenKind) : Silent (checkAny kinds) :=
  silent_peek.bind fun _ => silent_pure _

theorem silent_accept (kind : TokenKind) : Silent (accept kind) := by
  refine (silent_check kind).bind fun b => Follows.ite ?_ (silent_pure false)
  exact silent_advance.bind fun _ => silent_pure true

theorem silent_fail {α : Type} (message : Text) (site : Token) :
    Silent (fail message site : Compile α) :=
  silent_get.bind fun _ => silent_throw _

theorem silent_expect (kind : TokenKind) (message : Text) : Silent (expect kind message) := by
  refine (silent_check kind).bind fun b => Follows.ite silent_advance ?_
  exact silent_peek.bind fun t => silent_fail message t

theorem skipTokens_suffix (kinds : List TokenKind) (previous : Option Token) (tokens : List Token) :
    (skipTokens kinds previous tokens).2 <:+ tokens := by
  induction tokens generalizing previous with
  | nil => exact List.suffix_rfl
  | cons t rest ih =>
    unfold skipTokens
    split
    · exact (ih (some t)).trans (List.suffix_cons t rest)
    · exact List.suffix_rfl

theorem silent_skip (kinds : List TokenKind) : Silent (skip kinds) :=
  silent_modify fun d => ⟨rfl, rfl, rfl, skipTokens_suffix kinds d.previous d.ahead, rfl⟩

theorem silent_skipNewlines : Silent skipNewlines := silent_skip _

theorem silent_skipSeparators : Silent skipSeparators := silent_skip _

theorem silent_endStatement : Silent endStatement := by
  refine (silent_accept .newline).bind fun b => Follows.ite (silent_pure ()) ?_
  refine (silent_accept .semicolon).bind fun b => Follows.ite (silent_pure ()) ?_
  refine (silent_checkAny _).bind fun b => Follows.ite (silent_pure ()) ?_
  exact silent_peek.bind fun t => silent_fail _ t

theorem Follows.commaSeparated {α : Type} {T : Draft → Draft → Prop} [Flow T] {item : Compile α}
    (hi : Follows T item) : Follows T (commaSeparated item) := by
  refine (Follows.whileReading (fun items => ?_) []).bind fun items => Follows.pure _
  refine hi.bind fun a => ?_
  exact (silent_accept .comma).follows.bind fun b => Follows.pure _

theorem silent_currentScope : Silent currentScope := silent_get.bind fun _ => silent_pure _

theorem silent_scopeAt (i : Nat) : Silent (scopeAt i) := silent_get.bind fun _ => silent_pure _

theorem silent_codeSize : Silent codeSize :=
  silent_currentScope.bind fun i => (silent_scopeAt i).bind fun _ => silent_pure _

theorem discreet_declareAs (name : Text) (info : NameInfo) : Discreet (declareAs name info) := by
  refine fun d => Ensures.change ?_
  cases h : d.opened with
  | nil => exact ⟨rfl, by rw [h]⟩
  | cons s rest => exact ⟨rfl, by simp [h, OpenScope.declare]⟩

theorem discreet_declare (name : Text) (isMutable : Bool) : Discreet (declare name isMutable) :=
  discreet_declareAs _ _

theorem discreet_declareCallable (name : Text) : Discreet (declareCallable name) :=
  discreet_declareAs _ _

theorem discreet_declareAll (names : List Text) :
    Discreet (names.forM fun n => declare n false) := by
  induction names with
  | nil => exact Follows.pure ()
  | cons n names ih => exact (discreet_declare n false).bind fun _ => ih

theorem capture_scope (s : OpenScope) (name : Text) : (s.capture name).scope = s.scope := by
  unfold OpenScope.capture
  split <;> rfl

theorem resolve_scopes {globals : List (Text × NameInfo)} {name : Text} {opened : List OpenScope}
    {info : NameInfo} {isLocal : Bool} {opened' : List OpenScope}
    (h : OpenScope.resolve globals name opened = some (info, isLocal, opened')) :
    opened'.map (·.scope) = opened.map (·.scope) := by
  induction opened generalizing info isLocal opened' with
  | nil => cases h
  | cons s rest ih =>
    unfold OpenScope.resolve at h
    split at h
    · cases h
      rfl
    · split at h
      · obtain ⟨i, -, hi⟩ := Option.map_eq_some_iff.1 h
        cases hi
        rfl
      · obtain ⟨⟨i, l, o⟩, ho, hi⟩ := Option.map_eq_some_iff.1 h
        cases hi
        simp only [List.map_cons, ih ho, List.cons.injEq, and_true]
        split
        · exact capture_scope s name
        · rfl

theorem discreet_lookup (name : Text) : Discreet (lookup name) := by
  intro d
  refine Ensures.bind (R := fun e d' => e = d ∧ d' = d) (Ensures.get ⟨rfl, rfl⟩) ?_
  rintro e d' ⟨he, hd'⟩
  subst e d'
  dsimp only
  split
  · rename_i info isLocal opened h
    exact Ensures.bind (R := fun _ d' => Undisturbed d d')
      (Ensures.set ⟨rfl, resolve_scopes h⟩) fun _ _ h' => Ensures.pure h'
  · exact Ensures.pure (Undisturbed.refl _)

theorem silent_atTopLevel : Silent atTopLevel := silent_get.bind fun _ => silent_pure _

theorem silent_requireTopLevel (site : Token) (what : Text) : Silent (requireTopLevel site what) :=
  silent_atTopLevel.bind fun _ => Follows.ite (silent_pure ()) (silent_fail _ _)

theorem silent_numberLiteral (t : Token) : Silent (numberLiteral t) := by
  unfold numberLiteral
  split
  · exact silent_pure _
  · exact silent_fail _ _

theorem silent_literalValue : Silent literalValue := by
  refine silent_peek.bind fun t => ?_
  split
  · refine (silent_peekAt 1).bind fun next => Follows.ite ?_ (silent_fail _ _)
    refine silent_advance.bind fun _ => silent_advance.bind fun number => ?_
    exact (silent_numberLiteral number).bind fun _ => silent_pure _
  · refine silent_advance.bind fun number => ?_
    exact (silent_numberLiteral number).bind fun _ => silent_pure _
  · exact silent_advance.bind fun _ => silent_pure _
  · exact silent_advance.bind fun _ => silent_pure _
  · exact silent_advance.bind fun _ => silent_pure _
  · exact silent_advance.bind fun _ => silent_pure _
  · exact silent_advance.bind fun _ => (silent_expect _ _).bind fun _ => silent_pure _
  · exact silent_advance.bind fun _ => (silent_expect _ _).bind fun _ => silent_pure _
  · exact silent_fail _ _

theorem silent_typeName : Silent typeName := (silent_expect _ _).bind fun _ => silent_pure _

theorem silent_typeAnnotation : Silent typeAnnotation :=
  (silent_accept _).bind fun _ => Follows.ite silent_typeName (silent_pure _)

theorem silent_tag : Silent tag := by
  refine (silent_expect _ _).bind fun name => (silent_accept _).bind fun b => ?_
  refine Follows.ite ?_ (silent_pure _)
  refine (silent_check _).bind fun empty => ?_
  refine Follows.ite_bind (silent_pure _) (Follows.commaSeparated silent_literalValue) fun args => ?_
  exact (silent_expect _ _).bind fun _ => silent_pure _

theorem silent_tags : Silent tags := by
  refine (Follows.whileReading (fun found => ?_) []).bind fun found => ?_
  · refine (silent_accept _).bind fun b => Follows.ite ?_ (silent_pure _)
    exact silent_tag.bind fun t => silent_skipSeparators.bind fun _ => silent_pure _
  · refine (silent_check _).bind fun b => Follows.ite (silent_pure _) ?_
    exact silent_peek.bind fun t => silent_fail _ t

theorem silent_parameter (params : List Parameter) : Silent (parameter params) := by
  refine (silent_expect _ _).bind fun name => silent_typeAnnotation.bind fun type => ?_
  refine (silent_accept _).bind fun b => Follows.ite ?_ (Follows.ite ?_ (silent_pure _))
  · exact silent_literalValue.bind fun v => silent_pure _
  · exact silent_previous.bind fun t => silent_fail _ t

theorem silent_parameterList (close : TokenKind) (message : Text) :
    Silent (parameterList close message) := by
  refine silent_skipNewlines.bind fun _ => (silent_check _).bind fun empty => ?_
  refine Follows.ite_bind (silent_pure _) (Follows.whileReading (fun params => ?_) []) fun params => ?_
  · refine silent_skipNewlines.bind fun _ => (silent_parameter params).bind fun p => ?_
    exact silent_skipNewlines.bind fun _ => (silent_accept _).bind fun _ => silent_pure _
  · exact (silent_expect _ _).bind fun _ => silent_pure _

theorem silent_header (tags : List Tag) (owner : Option Text) : Silent (header tags owner) := by
  refine (silent_expect _ _).bind fun token => (silent_accept _).bind fun mutableReceiver => ?_
  refine (silent_expect _ _).bind fun first => (silent_accept _).bind fun dot => ?_
  -- whichever way the name and the receiver are found, the same parts follow
  have hrest : ∀ name : Text × Option DeclaredType, Silent (
      if mutableReceiver && name.2.isNone then
        fail "Only extension functions take a mutable receiver" first
      else do
        let params ← if ← accept .lparen then parameterList .rparen "Expected ')' after parameters"
          else pure []
        let returns ← if ← accept .arrow then typeName else pure .any
        return (⟨token, name.1, ⟨params, returns, name.2, mutableReceiver⟩, tags⟩ : Header)) := by
    intro name
    refine Follows.ite (silent_fail _ _) ((silent_accept _).bind fun b => ?_)
    refine Follows.ite_bind (silent_parameterList _ _) (silent_pure _) fun params => ?_
    refine (silent_accept _).bind fun b => ?_
    exact Follows.ite_bind silent_typeName (silent_pure _) fun returns => silent_pure _
  refine Follows.ite ?_ ((silent_pure _).bind hrest)
  exact (silent_expect _ _).bind fun name => (silent_pure _).bind hrest

theorem silent_startsOperand : Silent startsOperand := by
  refine silent_peek.bind fun t => ?_
  split <;> first | exact silent_pure _ | exact (silent_peekAt 1).bind fun _ => silent_pure _

theorem silent_loopVariables : Silent loopVariables := by
  refine (silent_expect _ _).bind fun first => (silent_accept _).bind fun b => ?_
  refine Follows.ite ((silent_expect _ _).bind fun second => ?_) (silent_pure _)
  exact Follows.ite (silent_fail _ _) (silent_pure _)

theorem silent_field : Silent field := by
  refine (silent_expect _ _).bind fun name => silent_typeAnnotation.bind fun type => ?_
  refine (silent_accept _).bind fun b => ?_
  have hrest : ∀ default : Option Value, Silent (do
      endStatement
      return (⟨name.text, type, default⟩ : Field)) := fun default =>
    silent_endStatement.bind fun _ => silent_pure _
  refine Follows.ite ?_ ((silent_pure _).bind hrest)
  exact silent_literalValue.bind fun v => (silent_pure _).bind hrest

theorem silent_isDeclarationOnly : Silent isDeclarationOnly := by
  intro d
  refine Ensures.bind (R := fun mark _ => mark = d) (Ensures.get rfl) ?_
  rintro mark d₁ hmark
  refine Ensures.bind (R := fun _ _ => True) ((silent_skipSeparators _).imp fun _ _ _ => trivial) ?_
  rintro - d₂ -
  refine Ensures.bind (R := fun _ _ => True) ((silent_checkAny _ _).imp fun _ _ _ => trivial) ?_
  rintro alone d₃ -
  exact Ensures.bind (R := fun _ d' => Still d d') (Ensures.set (hmark ▸ Flow.refl Still d))
    fun _ _ h => Ensures.pure h

end Compile

end ScriptMachine
