import ScriptMachine.Proofs.Compiler.Reading
import ScriptMachine.Proofs.Value.Closures

set_option autoImplicit false

namespace ScriptMachine

/-- A value that can be written down as a default. -/
inductive Value.Literal : Value → Prop where
  | none : Literal .none
  | bool (b : Bool) : Literal (.bool b)
  | num (n : Number) : Literal (.num n)
  | str (t : Text) : Literal (.str t)
  | emptyList : Literal (.list [])
  | emptyMap : Literal (.map [])

theorem Value.Literal.all {P : Value → Prop} [Hereditary P] {v : Value} (h : v.Literal) : P v := by
  cases h with
  | none => exact Hereditary.none
  | bool b => exact Hereditary.bool b
  | num n => exact Hereditary.num n
  | str t => exact Hereditary.str t
  | emptyList => exact Hereditary.list.2 (List.forall_mem_nil _)
  | emptyMap => exact Hereditary.map.2 (List.forall_mem_nil _)

theorem Value.Literal.inert {v : Value} (h : v.Literal) : v.Inert := fun _ => h.all

def Parameter.Literal (p : Parameter) : Prop := ∀ v ∈ p.default, v.Literal

def Signature.Literal (s : Signature) : Prop := ∀ p ∈ s.params, p.Literal

def Field.Literal (f : Field) : Prop := ∀ v ∈ f.default, v.Literal

def Field.Inert (f : Field) : Prop := ∀ v ∈ f.default, v.Inert

theorem Parameter.Literal.inert {p : Parameter} (h : p.Literal) : p.Inert := fun v hv => (h v hv).inert

theorem Signature.Literal.inert {s : Signature} (h : s.Literal) : s.Inert := fun p hp => (h p hp).inert

theorem Field.Literal.inert {f : Field} (h : f.Literal) : f.Inert := fun v hv => (h v hv).inert

namespace Compile

variable {d : Draft}

theorem literalValue_literal (d : Draft) : Post literalValue d fun v _ => v.Literal := by
  have hnumber : ∀ (number : Token) (f : Number → Number) (d : Draft), Post (do
      return .num (f (← numberLiteral number))) d fun v _ => Value.Literal v :=
    fun number f d => (silent_numberLiteral number).then fun n _ _ => Ensures.pure (.num _)
  refine silent_peek.then fun t d₁ _ => ?_
  split
  · refine (silent_peekAt 1).then fun next d₂ _ => ?_
    split
    · refine silent_advance.then fun _ d₃ _ => silent_advance.then fun number d₄ _ => ?_
      exact hnumber number Number.neg d₄
    · exact trivial
  · exact silent_advance.then fun number d₂ _ => hnumber number id d₂
  · exact silent_advance.then fun _ _ _ => Ensures.pure (.str _)
  · exact silent_advance.then fun _ _ _ => Ensures.pure (.bool _)
  · exact silent_advance.then fun _ _ _ => Ensures.pure (.bool _)
  · exact silent_advance.then fun _ _ _ => Ensures.pure .none
  · refine silent_advance.then fun _ _ _ => (silent_expect _ _).then fun _ _ _ => ?_
    exact Ensures.pure .emptyList
  · refine silent_advance.then fun _ _ _ => (silent_expect _ _).then fun _ _ _ => ?_
    exact Ensures.pure .emptyMap
  · exact trivial

theorem parameter_literal (params : List Parameter) (d : Draft) :
    Post (parameter params) d fun p _ => p.Literal := by
  refine (silent_expect _ _).then fun name d₁ _ => silent_typeAnnotation.then fun type d₂ _ => ?_
  refine (silent_accept _).then fun found d₃ _ => ?_
  split
  · refine Ensures.bind (literalValue_literal d₃) fun v _ hv => Ensures.pure ?_
    rintro _ ⟨⟩
    exact hv
  · split
    · exact silent_previous.then fun _ _ _ => trivial
    · exact Ensures.pure nofun

theorem parameterList_literal (close : TokenKind) (message : Text) (d : Draft) :
    Post (parameterList close message) d fun params _ => ∀ p ∈ params, p.Literal := by
  refine silent_skipNewlines.then fun _ d₁ _ => (silent_check _).then fun empty d₂ _ => ?_
  refine Ensures.ite_bind (R := fun (params : List Parameter) _ => ∀ p ∈ params, p.Literal) ?_
    fun params d₃ hparams => (silent_expect _ _).then fun _ _ _ => Ensures.pure fun p hp =>
      hparams p (List.mem_reverse.1 hp)
  split
  · exact Ensures.pure (List.forall_mem_nil _)
  · refine whileReading_post (I := fun (params : List Parameter) _ => ∀ p ∈ params, p.Literal) ?_
      (List.forall_mem_nil _)
    intro params d hparams
    refine silent_skipNewlines.then fun _ d₁ _ => ?_
    refine Ensures.bind (parameter_literal params d₁) fun p d₂ hp => ?_
    refine silent_skipNewlines.then fun _ d₃ _ => (silent_accept _).then fun _ _ _ => ?_
    exact Ensures.pure (List.forall_mem_cons.2 ⟨hp, hparams⟩)

theorem header_literal (tags : List Tag) (owner : Option Text) (d : Draft) :
    Post (header tags owner) d fun h _ => h.signature.Literal := by
  refine (silent_expect _ _).then fun token d₁ _ => (silent_accept _).then fun mutableReceiver d₂ _ => ?_
  refine (silent_expect _ _).then fun first d₃ _ => (silent_accept _).then fun dot d₄ _ => ?_
  have hrest : ∀ (name : Text × Option DeclaredType) (d : Draft), Post (
      if mutableReceiver && name.2.isNone then
        fail "Only extension functions take a mutable receiver" first
      else do
        let params ← if ← accept .lparen then parameterList .rparen "Expected ')' after parameters"
          else pure []
        let returns ← if ← accept .arrow then typeName else pure .any
        return (⟨token, name.1, ⟨params, returns, name.2, mutableReceiver⟩, tags⟩ : Header)) d
      fun h _ => h.signature.Literal := by
    intro name d
    split
    · exact trivial
    refine (silent_accept _).then fun found d₁ _ => ?_
    refine Ensures.ite_bind (R := fun (params : List Parameter) _ => ∀ p ∈ params, p.Literal) ?_
      fun params d₂ hparams => (silent_accept _).then fun arrow d₃ _ => ?_
    · split
      · exact parameterList_literal _ _ d₁
      · exact Ensures.pure (List.forall_mem_nil _)
    · refine Ensures.ite_bind (R := fun _ _ => True) ?_ fun returns _ _ => Ensures.pure hparams
      split
      · exact (silent_typeName d₃).imp fun _ _ _ => trivial
      · exact Ensures.pure trivial
  split
  · exact (silent_expect _ _).then fun name d₅ _ =>
      Ensures.pure_bind (hrest (name.text, some (.named first.text)) d₅)
  · exact Ensures.pure_bind (hrest (first.text, owner.map .named) d₄)

theorem field_literal (d : Draft) : Post field d fun f _ => f.Literal := by
  refine (silent_expect _ _).then fun name d₁ _ => silent_typeAnnotation.then fun type d₂ _ => ?_
  refine (silent_accept _).then fun found d₃ _ => ?_
  have hend : ∀ (default : Option Value) (d : Draft), (∀ v ∈ default, v.Literal) → Post (do
      endStatement
      return (⟨name.text, type, default⟩ : Field)) d fun f _ => f.Literal :=
    fun default d hd => silent_endStatement.then fun _ _ _ => Ensures.pure hd
  dsimp only
  split
  · refine Ensures.bind (literalValue_literal d₃) fun v d₄ hv => Ensures.pure_bind ?_
    refine hend (some v) d₄ ?_
    rintro _ ⟨⟩
    exact hv
  · exact Ensures.pure_bind (hend none d₃ nofun)

theorem header_then {α : Type} {tags : List Tag} {owner : Option Text} {f : Header → Compile α}
    {Q : α → Draft → Prop}
    (hf : ∀ h d', h.signature.Inert → Still d d' → Post (f h) d' Q) :
    Post (header tags owner >>= f) d Q :=
  Ensures.bind (post_both (header_literal tags owner d) (silent_header tags owner d))
    fun h d' hh => hf h d' hh.1.inert hh.2

end Compile

namespace RecordType

variable {P : Value → Prop}

theorem fill_gives {name : Text} {fields : List Field} {args : List Value}
    (hfields : ∀ f ∈ fields, ∀ v ∈ f.default, P v) (hargs : ∀ v ∈ args, P v) :
    Gives P (fill name fields args) fun values => ∀ v ∈ values, P v := by
  induction fields generalizing args with
  | nil => exact List.forall_mem_nil _
  | cons f fields ih =>
    obtain ⟨hf, hfields⟩ := List.forall_mem_cons.1 hfields
    cases args with
    | cons v args =>
      obtain ⟨hv, hargs⟩ := List.forall_mem_cons.1 hargs
      refine Gives.bind (Q := fun _ => True) ?_ fun _ _ => ?_
      · unfold checkField
        split
        · trivial
        · exact Gives.error rfl
      · exact (ih hfields hargs).bind fun values hvalues => List.forall_mem_cons.2 ⟨hv, hvalues⟩
    | nil =>
      unfold fill
      cases hd : f.default with
      | none => exact Gives.error rfl
      | some v =>
        exact (ih hfields hargs).bind fun values hvalues =>
          List.forall_mem_cons.2 ⟨hf v hd, hvalues⟩

theorem construct_gives [Hereditary P] {t : RecordType} {id : Nat} {args : List Value}
    (hfields : ∀ f ∈ t.fields, ∀ v ∈ f.default, P v) (hargs : ∀ v ∈ args, P v) :
    Gives P (t.construct id args) P := by
  unfold construct
  split
  · exact Gives.error rfl
  · exact (fill_gives hfields hargs).bind fun values hvalues => Hereditary.record.2 hvalues

end RecordType

namespace Compile

theorem constructRecord_all {P : Value → Prop} [Hereditary P] {t : RecordType}
    (h : ∀ f ∈ t.fields, ∀ v ∈ f.default, P v) {c : NativeCall} (hc : c.All P) {host : Host}
    (hhost : host.All P) : (constructRecord t c host).All P := by
  have hmade : Gives P (t.construct host.nextId c.args) P := RecordType.construct_gives h hc.args
  change NativeOutcome.All P
    ⟨host.freshId.2, c.self, (t.construct host.nextId c.args).mapError .fault⟩
  cases hr : t.construct host.nextId c.args with
  | ok v =>
    rw [hr] at hmade
    refine ⟨hhost, hc.self, ?_, nofun⟩
    rintro _ ⟨⟩
    exact hmade
  | error e =>
    rw [hr] at hmade
    refine ⟨hhost, hc.self, nofun, ?_⟩
    rintro _ ⟨⟩
    exact hmade

theorem constructor_inert {t : RecordType} (site : Token) (h : ∀ f ∈ t.fields, f.Inert) :
    (constructor t site).Inert := by
  refine ⟨fun p hp => ?_, fun code hcode G c host hc hhost => ?_⟩
  · obtain ⟨f, hf, rfl⟩ := List.mem_map.1 hp
    exact h f hf
  · cases hcode
    exact constructRecord_all (fun f hf v hv => h f hf v hv G) hc hhost

end Compile

end ScriptMachine
