import ScriptMachine.Proofs.Compiler.PairedExpressions
import ScriptMachine.Proofs.Compiler.Compiled

set_option autoImplicit false

namespace ScriptMachine

namespace Compile

variable {g : Grammar}

theorem functionBody_extends (hg : g.Extending) (h : Header) : Follows Extends (functionBody g h) := by
  refine within_extends h.qualifiedName (extends_of fun d hd => ?_)
  refine Ensures.bind (openScope_inner hd _ _ _ _ _) fun i d₁ h₁ => ?_
  refine Ensures.bind (declareParams_inner h₁.1 _) fun _ d₂ h₂ => ?_
  have hbody : ∀ d₃, Inner d i d₃ → Post (do
      functionStatements g
      closeScope
      return i) d₃ fun _ d' => Extended d d' := fun d₃ h₃ =>
    Ensures.bind (functionStatements_inner hg h₃) fun _ _ h₄ => h₄.finish hd i
  dsimp only
  split
  · exact h₂.next (discreet_declare _ _).extends fun _ d₃ h₃ => hbody d₃ h₃
  · exact hbody d₂ h₂

theorem functionDefinition_extends (hg : g.Extending) : Follows Extends (functionDefinition g) :=
  silent_tags.before fun tags => (silent_header tags none).before fun h =>
    (functionBody_extends hg h).bind fun _ => register_extends _

theorem nestedFunction_extends (hg : g.Extending) : Follows Extends (nestedFunction g) := by
  refine (silent_header [] none).before fun h => .ite (silent_fail _ _).follows ?_
  refine (closureBody_extends hg h _ false).bind fun closure => alloc_extends.bind fun out => ?_
  refine (emit_extends h.token rfl).bind fun _ => (emit_extends h.token rfl).bind fun _ => ?_
  exact (discreet_declareCallable _).extends.bind fun _ => .pure _

theorem traitMember_extends (hg : g.Extending) (owner : Text) : Follows Extends (traitMember g owner) := by
  refine silent_tags.before fun tags => (silent_header tags none).before fun h => ?_
  refine silent_isDeclarationOnly.before fun alone => .ite (silent_endStatement.before fun _ => .pure _) ?_
  exact (functionBody_extends hg h).bind fun scope => .pure _

theorem members_extends {α : Type} {a : α} {what : Text} {member : α → Compile α}
    (hmember : ∀ a, Follows Extends (member a)) : Follows Extends (members a what member) := by
  refine silent_skipSeparators.before fun _ => Follows.bind (.whileReading (fun a => ?_) a) fun a =>
    silent_advance.before fun _ => .pure a
  refine (silent_check _).before fun _ => .ite (.pure _) (silent_isAtEnd.before fun _ => .ite ?_ ?_)
  · exact silent_peek.before fun t => (silent_fail _ t).follows
  · exact (hmember a).bind fun b => silent_skipSeparators.before fun _ => .pure _

theorem implementAll_extends (owner : Text) (fs : List Function) :
    Follows Extends (fs.forM fun f => register fun r => r.implement owner f) := by
  induction fs with
  | nil => exact .pure ()
  | cons f fs ih => exact (register_extends _).bind fun _ => ih

theorem traitDeclaration_extends (hg : g.Extending) : Follows Extends (traitDeclaration g) := by
  refine silent_advance.before fun _ => (silent_expect _ _).before fun name => ?_
  refine (members_extends fun found => (traitMember_extends hg _).bind fun _ => .pure _).bind fun found => ?_
  exact (register_extends _).bind fun _ => implementAll_extends _ _

theorem implementAt_extends (owner : Text) (f : Function) (site : Token) :
    Follows Extends (implementAt owner f site) := by
  refine silent_get.before fun d => ?_
  split
  · rename_i modules _
    exact modifyProgram_extends (f := fun p => { p with modules }) fun _ => rfl
  · exact (silent_fail _ site).follows

theorem implMember_extends (hg : g.Extending) (owner : Text) : Follows Extends (implMember g owner) :=
  silent_tags.before fun tags => (silent_header tags none).before fun h =>
    (functionBody_extends hg h).bind fun _ => implementAt_extends owner _ _

theorem adoptTrait_extends (name : Text) : Follows Extends (adoptTrait name) := by
  refine silent_get.before fun d => ?_
  split
  · exact register_extends _
  · exact .pure ()

theorem implBlock_extends (hg : g.Extending) : Follows Extends (implBlock g) := by
  refine silent_advance.before fun _ => (silent_expect _ _).before fun name => ?_
  refine (adoptTrait_extends _).bind fun _ => silent_get.before fun d => .ite (silent_fail _ name).follows ?_
  exact members_extends fun _ => implMember_extends hg _

theorem objectMember_extends (hg : g.Extending) (owner : Text) (fields : List Field) :
    Follows Extends (objectMember g owner fields) := by
  refine (silent_accept _).before fun _ => .ite (silent_field.before fun f => .pure _) ?_
  refine (silent_checkAny _).before fun _ => .ite ?_ (silent_peek.before fun t => (silent_fail _ t).follows)
  refine silent_tags.before fun tags => (silent_header tags _).before fun h => ?_
  exact (functionBody_extends hg h).bind fun scope => (register_extends _).bind fun _ => .pure _

theorem objectDeclaration_extends (hg : g.Extending) : Follows Extends (objectDeclaration g) := by
  refine silent_advance.before fun _ => (silent_expect _ _).before fun name => ?_
  refine .ite (silent_fail _ name).follows ((members_extends (objectMember_extends hg _)).bind fun fields => ?_)
  refine silent_get.before fun d => ?_
  have hdeclare : Follows Extends (modifyProgram fun p => { p with recordTypes := p.recordTypes ++
      [⟨⟨d.program.id, d.program.recordTypes.length⟩, name.text, fields.reverse⟩] }) :=
    modifyProgram_extends fun _ => rfl
  exact hdeclare.bind fun _ => register_extends _

theorem importStatement_extends : Follows Extends importStatement := by
  refine silent_advance.before fun _ => (silent_expect _ _).before fun name => silent_get.before fun d => ?_
  refine .ite ?_ (silent_fail _ name).follows
  exact modifyProgram_extends (f := fun p => { p with imports := p.imports ++ [⟨name.text, place name⟩] })
    fun _ => rfl

theorem binding_extends (hg : g.Extending) (isMutable : Bool) : Follows Extends (binding g isMutable) := by
  refine silent_advance.before fun keyword => (silent_expect _ _).before fun name => ?_
  refine (silent_expect _ _).before fun _ => (guardedExpression_extends hg).bind fun value => ?_
  refine (emit_extends keyword ?_).bind fun _ => (discreet_declare _ _).extends.bind fun _ => .pure value
  cases isMutable <;> rfl

theorem assignment_extends (hg : g.Extending) : Follows Extends (assignment g) := by
  refine silent_advance.before fun name => silent_advance.before fun _ => ?_
  refine (discreet_lookup _).extends.bind fun found => ?_
  cases found with
  | some info =>
    refine .ite (silent_fail _ name).follows ((guardedExpression_extends hg).bind fun value => ?_)
    exact (emit_extends name rfl).bind fun _ => .pure value
  | none =>
    refine (guardedExpression_extends hg).bind fun value => (emit_extends name rfl).bind fun _ => ?_
    exact (discreet_declare _ _).extends.bind fun _ => .pure value

theorem compoundAssignment_extends (hg : g.Extending) (op : BinaryOp) :
    Follows Extends (compoundAssignment g op) := by
  refine silent_advance.before fun name => silent_advance.before fun sign => ?_
  refine (discreet_lookup _).extends.bind fun found => ?_
  cases found with
  | none => exact (silent_fail _ name).follows
  | some info =>
    refine .ite (silent_fail _ name).follows (alloc_extends.bind fun current => ?_)
    refine (emit_extends name rfl).bind fun _ => (guardedExpression_extends hg).bind fun right => ?_
    refine alloc_extends.bind fun out => (emit_extends sign rfl).bind fun _ => ?_
    exact (emit_extends name rfl).bind fun _ => .pure out

theorem putsStatement_extends (hg : g.Extending) (keyword : Token) :
    Follows Extends (putsStatement g keyword) := by
  refine silent_startsOperand.before fun _ => .ite_bind (items_extend hg) (.pure _) fun values => ?_
  exact (emit_extends keyword rfl).bind fun _ => .pure _

theorem logStatement_extends (hg : g.Extending) (keyword : Token) :
    Follows Extends (logStatement g keyword) := by
  refine (silent_expect _ _).before fun levelToken => ?_
  split
  · exact (silent_fail _ levelToken).follows
  refine (silent_expect _ _).before fun _ => (silent_expect _ _).before fun template => ?_
  refine (silent_accept _).before fun _ => .ite_bind (items_extend hg) (.pure _) fun values => ?_
  exact (emit_extends keyword rfl).bind fun _ => .pure _

theorem simpleStatement_extends (hg : g.Extending) : Follows Extends (simpleStatement g) := by
  refine silent_peek.before fun t => silent_codeSize.before fun start => ?_
  refine (silent_accept _).before fun _ => .ite ?_ ((silent_accept _).before fun _ => .ite ?_ ?_)
  · exact (putsStatement_extends hg t).bind fun value => guards_extends hg start value
  · exact (logStatement_extends hg t).bind fun value => guards_extends hg start value
  · exact hg.expression.bind fun value => guards_extends hg start value

theorem topLevel_extends (site : Token) (what : Text) {declaration : Compile Unit}
    (h : Follows Extends declaration) : Follows Extends (topLevel site what declaration) :=
  (silent_requireTopLevel site what).before fun _ => h.bind fun _ => .pure _

theorem statement_extends (hg : g.Extending) : Follows Extends (statement g) := by
  refine silent_peek.before fun t => ?_
  split
  · exact binding_extends hg false
  · exact binding_extends hg true
  · refine silent_atTopLevel.before fun _ => .ite ?_ (nestedFunction_extends hg)
    exact (functionDefinition_extends hg).bind fun _ => .pure _
  · exact topLevel_extends _ _ (functionDefinition_extends hg)
  · exact topLevel_extends _ _ (traitDeclaration_extends hg)
  · exact topLevel_extends _ _ (implBlock_extends hg)
  · exact topLevel_extends _ _ (objectDeclaration_extends hg)
  · exact topLevel_extends _ _ importStatement_extends
  · refine (silent_peekAt 1).before fun next => .ite (assignment_extends hg) ?_
    split
    · exact compoundAssignment_extends hg _
    · exact simpleStatement_extends hg
  · exact simpleStatement_extends hg

theorem grammar_extends (depth : Nat) : (grammar depth).Extending := by
  induction depth with
  | zero => exact ⟨.throw _, .throw _, .throw _⟩
  | succ depth ih => exact ⟨expression_extends ih, operand_extends ih, statement_extends ih⟩

theorem wholeProgram_embodied (hg : g.Extending) {d : Draft} (hscopes : d.program.scopes = #[])
    (hopened : d.opened = []) :
    Post (wholeProgram g) d fun _ d' => ∀ op ∈ d'.program.operations, op.Embodied d'.program.finished := by
  refine silent_peek.then fun t d₁ u₁ => ?_
  have hempty : d₁.program.scopes = #[] := by rw [u₁.program, hscopes]
  refine Ensures.bind (R := fun _ d₂ => Furnished d₂) ?_ fun _ d₂ hd₂ => ?_
  · refine Ensures.intro (fun i d₂ hr => ?_) fun _ _ _ => trivial
    cases hr
    have hnone : d₁.opened = [] := by simpa [hopened] using u₁.opened
    refine ⟨nofun, fun i hi => ?_, fun i s hs op hop => ?_⟩
    · simp only [Draft.openScopes, hnone, hempty, List.map_cons, List.map_nil, List.mem_singleton] at hi
      simp [hi, hempty]
    · simp only [hempty] at hs
      rcases i with _ | i
      · cases hs
        cases hop
      · cases hs
  refine Ensures.bind (block_extends hg [] d₂) fun last d₃ e₃ => ?_
  refine Ensures.bind ((e₃ hd₂).after silent_isAtEnd.follows) fun atEnd d₄ e₄ => ?_
  split
  · refine Ensures.bind (e₄.1.after silent_peek.follows) fun t d₅ e₅ => ?_
    have hd₆ := (Extended.write e₅.1.furnished (.halt last) t rfl).furnished
    refine Ensures.run (emit_run _ _ _) (Ensures.change fun op hop => ?_)
    obtain ⟨s, hs, hop⟩ := Program.mem_operations.1 hop
    obtain ⟨i, hi⟩ := List.getElem?_of_mem hs
    refine (hd₆.bodies i s (by simpa using hi) op hop).mono fun j u hu => ?_
    unfold Draft.finished at hu
    split at hu
    · cases hu
    · exact hu
  · exact silent_peek.then fun _ _ _ => trivial

end Compile

theorem compileSource_embodied {builtins : Option Registry} {id : Nat} {source : Text} {p : Program}
    (h : compileSource builtins id source = .ok p) : ∀ op ∈ p.operations, op.Embodied p.finished := by
  obtain ⟨tokens, htokens⟩ := compileSource_tokens h
  unfold compileTokens at htokens
  dsimp only at htokens
  split at htokens
  · rename_i d hd
    cases htokens
    exact (Compile.wholeProgram_embodied (Compile.grammar_extends _) rfl rfl).of_ok hd
  · cases htokens

end ScriptMachine
