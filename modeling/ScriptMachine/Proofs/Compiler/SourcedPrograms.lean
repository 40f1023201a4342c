import ScriptMachine.Proofs.Compiler.SourcedExpressions
import ScriptMachine.Proofs.Compiler.Compiled

set_option autoImplicit false

namespace ScriptMachine

variable {time : Nat}

theorem Function.Adopted.sourced {traits : List (Text × Trait)} {f x : Function}
    (h : f.Adopted traits x) (ht : ∀ e ∈ traits, e.2.Lasting time) (hf : f.Sourced time) :
    x.Sourced time :=
  ⟨h.defaults (Value.Lasting time) ht hf.signature, h.body ▸ hf.native⟩

theorem Program.Sourced.grow {p : Program} {r : Registry} {f : Function} (hp : p.Sourced time)
    (hr : p.modules.Grows r f) (hf : f.Sourced time) :
    ({ p with modules := r } : Program).Sourced time := by
  refine { hp with functions := fun x hx => ?_, traits := hr.traits ▸ hp.traits }
  rcases hr.functions x hx with hx | hx
  · exact hp.functions x hx
  · exact hx.sourced hp.traits hf

namespace Compile

variable {g : Grammar}

theorem functionBody_minds (hg : g.Minds time) (h : Header) : Minds time (functionBody g h) := by
  refine within_answers h.qualifiedName ((openScope_minds _ _ _ _ _).bind fun scope _ => ?_)
  refine (declareParams_minds scope _).bind fun _ _ => ?_
  have hbody : Minds time (do
      functionStatements g
      closeScope
      return scope) :=
    (functionStatements_minds hg).bind fun _ _ => closeScope_minds.bind fun _ _ => .pure trivial
  exact .ite ((declareAs_minds _ _).bind fun _ _ => hbody) hbody

theorem define_minds {f : Function} (hf : f.Sourced time) :
    Minds time (register fun r => r.defineFunction f) :=
  register_minds fun _ hp _ hr => hp.grow (Registry.defineFunction_grows hr) hf

theorem implement_minds (owner : Text) {f : Function} (hf : f.Sourced time) :
    Minds time (register fun r => r.implement owner f) :=
  register_minds fun _ hp _ hr => hp.grow (Registry.implement_grows hr) hf

theorem declareTrait_minds {t : Trait} (ht : t.Lasting time) :
    Minds time (register fun r => r.declareTrait t) := by
  refine register_minds fun p hp r hr => ?_
  obtain ⟨hfunctions, htraits⟩ := Registry.declareTrait_registry hr
  refine { hp with functions := hfunctions ▸ hp.functions, traits := fun e he => ?_ }
  rcases htraits e he with he | he
  · exact hp.traits e he
  · exact he ▸ ht

theorem functionDefinition_minds (hg : g.Minds time) : Minds time (functionDefinition g) := by
  refine tags_minds.bind fun tags _ => (header_answers tags none).bind fun h hh => ?_
  exact (functionBody_minds hg h).bind fun scope _ => define_minds (interpreted_sourced hh.signature scope)

theorem nestedFunction_minds (hg : g.Minds time) : Minds time (nestedFunction g) := by
  refine (header_answers [] none).bind fun h hh => .ite (.fail _ _) ?_
  refine (closureBody_minds hg hh _ false).bind fun closure _ => alloc_minds.bind fun out _ => ?_
  refine (emit_minds hh.token (by nofun)).bind fun _ _ => (emit_minds hh.token (by nofun)).bind fun _ _ => ?_
  exact (declareAs_minds _ _).bind fun _ _ => .pure trivial

theorem isDeclarationOnly_minds : Minds time isDeclarationOnly := by
  refine Answers.get.bind fun mark hmark => (skip_minds _).bind fun _ _ => ?_
  exact (checkAny_minds _).bind fun alone _ => (Answers.put hmark).bind fun _ _ => .pure trivial

theorem traitMember_answers (hg : g.Minds time) (owner : Text) :
    Answers time (traitMember g owner) fun member =>
      member.1.2.Lasting time ∧ ∀ f ∈ member.2, f.Sourced time := by
  refine tags_minds.bind fun tags _ => (header_answers tags none).bind fun h hh => ?_
  have hlasting : h.signature.Lasting time := fun p hp v hv => (hh.signature p hp v hv).lasting time
  refine isDeclarationOnly_minds.bind fun alone _ => .ite ?_ ?_
  · exact endStatement_minds.bind fun _ _ => .pure ⟨hlasting, by simp⟩
  · refine (functionBody_minds hg h).bind fun scope _ => .pure ⟨hlasting, ?_⟩
    rintro _ ⟨⟩
    exact ⟨hlasting, nofun⟩

theorem members_answers {α : Type} {R : α → Prop} {a : α} {member : α → Compile α} (what : Text)
    (hmember : ∀ a, R a → Answers time (member a) R) (ha : R a) :
    Answers time (members a what member) R := by
  refine (skip_minds _).bind fun _ _ => ?_
  refine Answers.bind (R := R) (.whileReading (fun a ha => ?_) ha) fun a ha =>
    advance_answers.bind fun _ _ => .pure ha
  refine (check_minds _).bind fun _ _ => .ite (.pure ha) (isAtEnd_minds.bind fun _ _ => .ite ?_ ?_)
  · exact peek_answers.bind fun t _ => .fail _ t
  · exact (hmember a ha).bind fun b hb => (skip_minds _).bind fun _ _ => .pure hb

theorem implementAll_minds (owner : Text) {fs : List Function} (hfs : ∀ f ∈ fs, f.Sourced time) :
    Minds time (fs.forM fun f => register fun r => r.implement owner f) := by
  induction fs with
  | nil => exact .pure trivial
  | cons f fs ih =>
    obtain ⟨hf, hfs⟩ := List.forall_mem_cons.1 hfs
    exact (implement_minds owner hf).bind fun _ _ => ih hfs

theorem traitDeclaration_minds (hg : g.Minds time) : Minds time (traitDeclaration g) := by
  refine advance_answers.bind fun _ _ => (expect_answers _ _).bind fun name _ => ?_
  refine (members_answers (R := fun found => ∀ member ∈ found,
    member.1.2.Lasting time ∧ ∀ f ∈ member.2, f.Sourced time) _ ?_ (List.forall_mem_nil _)).bind ?_
  · exact fun found hfound => (traitMember_answers hg _).bind fun member hmember =>
      .pure (List.forall_mem_cons.2 ⟨hmember, hfound⟩)
  · intro found hfound
    refine (declareTrait_minds ?_).bind fun _ _ => implementAll_minds _ ?_
    · intro e he
      obtain ⟨member, hm, rfl⟩ := List.mem_map.1 he
      exact (hfound member (List.mem_reverse.1 hm)).1
    · intro f hf
      obtain ⟨member, hm, hf⟩ := List.mem_filterMap.1 hf
      exact (hfound member (List.mem_reverse.1 hm)).2 f hf

theorem implementAt_minds (owner : Text) {f : Function} (hf : f.Sourced time) (site : Token) :
    Minds time (implementAt owner f site) := by
  intro d hd
  refine Ensures.get_bind ?_
  split
  · exact Ensures.change
      ⟨{ hd with program := hd.program.grow (Registry.implement_grows ‹_›) hf }, trivial⟩
  · trivial

theorem implMember_minds (hg : g.Minds time) (owner : Text) : Minds time (implMember g owner) := by
  refine tags_minds.bind fun tags _ => (header_answers tags none).bind fun h hh => ?_
  refine (functionBody_minds hg h).bind fun scope _ => implementAt_minds owner ?_ _
  exact ⟨fun p hp v hv => (hh.signature p hp v hv).lasting time, nofun⟩

theorem adoptTrait_minds (name : Text) : Minds time (adoptTrait name) := by
  refine Answers.get.bind fun d hd => ?_
  split
  · rename_i t _ ht
    obtain ⟨b, hb, ht⟩ := Option.bind_eq_some_iff.1 ht
    exact declareTrait_minds (hd.builtins b hb _ (mem_of_lookup ht))
  · exact .pure trivial

theorem implBlock_minds (hg : g.Minds time) : Minds time (implBlock g) := by
  refine advance_answers.bind fun _ _ => (expect_answers _ _).bind fun name _ => ?_
  refine (adoptTrait_minds _).bind fun _ _ => Answers.get.bind fun d _ => .ite (.fail _ name) ?_
  exact members_answers _ (fun _ _ => implMember_minds hg _) trivial

theorem objectMember_answers (hg : g.Minds time) (owner : Text) {fields : List Field}
    (hfields : ∀ f ∈ fields, f.Literal) :
    Answers time (objectMember g owner fields) fun fields => ∀ f ∈ fields, f.Literal := by
  refine (accept_minds _).bind fun _ _ => .ite ?_ ((checkAny_minds _).bind fun _ _ => .ite ?_ ?_)
  · exact field_answers.bind fun f hf => .pure (List.forall_mem_cons.2 ⟨hf, hfields⟩)
  · refine tags_minds.bind fun tags _ => (header_answers tags _).bind fun h hh => ?_
    refine (functionBody_minds hg h).bind fun scope _ => (define_minds ?_).bind fun _ _ => .pure hfields
    exact ⟨fun p hp v hv => (hh.signature p hp v hv).lasting time, nofun⟩
  · exact peek_answers.bind fun t _ => .fail _ t

theorem constructor_sourced {t : RecordType} (site : Token) (ht : ∀ f ∈ t.fields, f.Literal) :
    (constructor t site).Sourced time := by
  refine ⟨fun p hp => ?_, fun code hcode => ?_⟩
  · obtain ⟨f, hf, rfl⟩ := List.mem_map.1 hp
    exact fun v hv => (ht f hf v hv).lasting time
  · cases hcode
    exact ⟨t, rfl, ht⟩

theorem objectDeclaration_minds (hg : g.Minds time) : Minds time (objectDeclaration g) := by
  refine advance_answers.bind fun _ _ => (expect_answers _ _).bind fun name _ => .ite (.fail _ name) ?_
  refine (members_answers _ (fun fields hf => objectMember_answers hg _ hf) (List.forall_mem_nil _)).bind ?_
  intro fields hfields
  refine Answers.get.bind fun d _ => ?_
  refine Answers.bind (R := fun _ => True) (modifyProgram_minds fun _ hp => { hp with }) fun _ _ => ?_
  exact define_minds (constructor_sourced name fun f hf => hfields f (List.mem_reverse.1 hf))

theorem importStatement_minds : Minds time importStatement := by
  refine advance_answers.bind fun _ _ => (expect_answers _ _).bind fun name _ => ?_
  refine Answers.get.bind fun d _ => .ite ?_ (.fail _ name)
  exact modifyProgram_minds fun _ hp => { hp with }

theorem binding_minds (hg : g.Minds time) (isMutable : Bool) : Minds time (binding g isMutable) := by
  refine advance_answers.bind fun keyword hkeyword => (expect_answers _ _).bind fun name _ => ?_
  refine (expect_answers _ _).bind fun _ _ => (guardedExpression_minds hg).bind fun value _ => ?_
  refine (emit_minds hkeyword ?_).bind fun _ _ => (declareAs_minds _ _).bind fun _ _ => .pure trivial
  cases isMutable <;> nofun

theorem assignment_minds (hg : g.Minds time) : Minds time (assignment g) := by
  refine advance_answers.bind fun name hname => advance_answers.bind fun _ _ => ?_
  refine (lookup_minds _).bind fun found _ => ?_
  cases found with
  | some info =>
    refine .ite (.fail _ name) ((guardedExpression_minds hg).bind fun value _ => ?_)
    exact (emit_minds hname (by nofun)).bind fun _ _ => .pure trivial
  | none =>
    refine (guardedExpression_minds hg).bind fun value _ => ?_
    refine (emit_minds hname (by nofun)).bind fun _ _ => ?_
    exact (declareAs_minds _ _).bind fun _ _ => .pure trivial

theorem compoundAssignment_minds (hg : g.Minds time) (op : BinaryOp) :
    Minds time (compoundAssignment g op) := by
  refine advance_answers.bind fun name hname => advance_answers.bind fun sign hsign => ?_
  refine (lookup_minds _).bind fun found _ => ?_
  cases found with
  | none => exact .fail _ name
  | some info =>
    refine .ite (.fail _ name) (alloc_minds.bind fun current _ => ?_)
    refine (emit_minds hname (by nofun)).bind fun _ _ => (guardedExpression_minds hg).bind fun right _ => ?_
    refine alloc_minds.bind fun out _ => (emit_minds hsign (by nofun)).bind fun _ _ => ?_
    exact (emit_minds hname (by nofun)).bind fun _ _ => .pure trivial

theorem items_minds (hg : g.Minds time) : Minds time (commaSeparated do
    skipNewlines
    g.expression) := commaSeparated_minds ((skip_minds _).bind fun _ _ => hg.expression)

theorem putsStatement_minds (hg : g.Minds time) {keyword : Token} (hkeyword : keyword.Placed) :
    Minds time (putsStatement g keyword) := by
  refine startsOperand_minds.bind fun _ _ => ?_
  refine .ite_bind (items_minds hg) (.pure trivial) fun values _ => ?_
  exact (emit_minds hkeyword (by nofun)).bind fun _ _ => .pure trivial

theorem logStatement_minds (hg : g.Minds time) {keyword : Token} (hkeyword : keyword.Placed) :
    Minds time (logStatement g keyword) := by
  refine (expect_answers _ _).bind fun levelToken _ => ?_
  split
  · exact .fail _ levelToken
  refine (expect_answers _ _).bind fun _ _ => (expect_answers _ _).bind fun template _ => ?_
  refine (accept_minds _).bind fun _ _ => .ite_bind (items_minds hg) (.pure trivial) fun values _ => ?_
  exact (emit_minds hkeyword (by nofun)).bind fun _ _ => .pure trivial

theorem simpleStatement_minds (hg : g.Minds time) : Minds time (simpleStatement g) := by
  refine peek_answers.bind fun t ht => codeSize_minds.bind fun start _ => ?_
  refine (accept_minds _).bind fun _ _ => .ite ?_ ((accept_minds _).bind fun _ _ => .ite ?_ ?_)
  · exact (putsStatement_minds hg ht).bind fun value _ => guards_minds hg start value
  · exact (logStatement_minds hg ht).bind fun value _ => guards_minds hg start value
  · exact hg.expression.bind fun value _ => guards_minds hg start value

theorem topLevel_minds (site : Token) (what : Text) {declaration : Compile Unit}
    (h : Minds time declaration) : Minds time (topLevel site what declaration) :=
  (requireTopLevel_minds site what).bind fun _ _ => h.bind fun _ _ => .pure trivial

theorem statement_minds (hg : g.Minds time) : Minds time (statement g) := by
  refine peek_answers.bind fun t _ => ?_
  split
  · exact binding_minds hg false
  · exact binding_minds hg true
  · refine atTopLevel_minds.bind fun _ _ => .ite ?_ (nestedFunction_minds hg)
    exact (functionDefinition_minds hg).bind fun _ _ => .pure trivial
  · exact topLevel_minds _ _ (functionDefinition_minds hg)
  · exact topLevel_minds _ _ (traitDeclaration_minds hg)
  · exact topLevel_minds _ _ (implBlock_minds hg)
  · exact topLevel_minds _ _ (objectDeclaration_minds hg)
  · exact topLevel_minds _ _ importStatement_minds
  · refine (peekAt_answers 1).bind fun next _ => .ite (assignment_minds hg) ?_
    split
    · exact compoundAssignment_minds hg _
    · exact simpleStatement_minds hg
  · exact simpleStatement_minds hg

theorem grammar_minds (depth : Nat) : (grammar depth).Minds time := by
  induction depth with
  | zero => exact ⟨.throw _, .throw _, .throw _⟩
  | succ depth ih => exact ⟨expression_minds ih, operand_minds ih, statement_minds ih⟩

theorem wholeProgram_minds (hg : g.Minds time) : Minds time (wholeProgram g) := by
  refine peek_answers.bind fun t _ => (openScope_minds _ _ _ _ _).bind fun _ _ => ?_
  refine (block_minds hg []).bind fun last _ => isAtEnd_minds.bind fun _ _ => .ite ?_ ?_
  · refine peek_answers.bind fun t ht => (emit_minds ht (by nofun)).bind fun _ _ => closeScope_minds
  · exact peek_answers.bind fun t _ => .fail _ t

end Compile

theorem parts_of_ok {ε α β : Type} {x : Except ε α} {f : α → Except ε β} {b : β}
    (h : x >>= f = .ok b) : ∃ a, x = .ok a ∧ f a = .ok b := by
  cases x with
  | ok a => exact ⟨a, rfl, h⟩
  | error e => cases h

theorem Position.after_line {p : Position} (h : p.line ≠ 0) (t : Text) : (p.after t).line ≠ 0 := by
  unfold Position.after
  induction t generalizing p with
  | nil => exact h
  | cons b t ih =>
    refine ih ?_
    unfold Position.next
    split
    · exact Nat.succ_ne_zero _
    · exact h

theorem Lexer.tokensFrom_placed {p : Position} {previous : Option TokenKind} {t : Text}
    (hp : p.line ≠ 0) : ∀ spans, tokensFrom p previous t = .ok spans → ∀ s ∈ spans, s.token.Placed := by
  fun_induction tokensFrom p previous t with
  | case1 p previous t skipped place =>
    rintro _ ⟨⟩ s hs
    rw [List.mem_singleton.1 hs]
    exact Position.after_line hp _
  | case2 p previous t skipped place b rest _ ihSame ihNext =>
    have hplace : place.line ≠ 0 := Position.after_line hp _
    intro spans h
    obtain ⟨l, -, h⟩ := parts_of_ok h
    have hnext := Position.after_line hplace (b :: rest.take l.more)
    dsimp only at h
    split at h
    · exact ihSame l hnext spans h
    · obtain ⟨others, hothers, h⟩ := parts_of_ok h
      cases h
      exact List.forall_mem_cons.2 ⟨hplace, ihNext l hnext others hothers⟩

theorem tokenize_placed {source : Text} {tokens : List Token} (h : tokenize source = .ok tokens) :
    ∀ t ∈ tokens, t.Placed := by
  obtain ⟨spans, hspans, h⟩ := parts_of_ok h
  cases h
  intro t ht
  obtain ⟨s, hs, rfl⟩ := List.mem_map.1 ht
  exact Lexer.tokensFrom_placed (by decide) spans hspans s hs

theorem withEndToken_placed {tokens : List Token} (h : ∀ t ∈ tokens, t.Placed) :
    (∀ t ∈ (withEndToken tokens).1, t.Placed) ∧ (withEndToken tokens).2.Placed := by
  unfold withEndToken
  cases hlast : tokens.getLast? with
  | none => simp [Token.Placed]
  | some t =>
    have ht : t.Placed := h t (List.mem_of_getLast? hlast)
    dsimp only
    split
    · exact ⟨h, ht⟩
    · refine ⟨fun u hu => ?_, ht⟩
      rcases List.mem_append.1 hu with hu | hu
      · exact h u hu
      · rw [List.mem_singleton.1 hu]
        exact ht

/-- What compiles stands at places of the source and has only literals of its own. -/
theorem compileSource_sourced {builtins : Option Registry} {id : Nat} {source : Text} {p : Program}
    (hb : ∀ b ∈ builtins, ∀ e ∈ b.traits, e.2.Lasting time)
    (h : compileSource builtins id source = .ok p) : p.Sourced time := by
  unfold compileSource at h
  split at h
  · rename_i tokens htokens
    obtain ⟨hall, hfinal⟩ := withEndToken_placed (tokenize_placed htokens)
    unfold compileTokens at h
    dsimp only at h
    split at h
    · rename_i d hd
      cases h
      refine ((Compile.wholeProgram_minds (Compile.grammar_minds _) _ ?_).of_ok hd).1.program
      refine ⟨⟨?_, ?_, ?_, ?_⟩, hb, hall, by simp, hfinal⟩
      · exact fun s hs => absurd hs (Array.not_mem_empty s)
      · exact fun f hf => absurd hf (Array.not_mem_empty f)
      · exact List.forall_mem_nil _
      · exact List.forall_mem_nil _
    · cases h
  · cases h

end ScriptMachine
