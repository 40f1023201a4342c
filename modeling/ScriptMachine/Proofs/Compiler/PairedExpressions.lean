import ScriptMachine.Proofs.Compiler.Pairs

set_option autoImplicit false

namespace ScriptMachine

/-- The recursive parts of a grammar give the comprehensions that they write their bodies. -/
structure Grammar.Extending (g : Grammar) : Prop where
  expression : Compile.Follows Compile.Extends g.expression
  operand : Compile.Follows Compile.Extends g.operand
  statement : Compile.Follows Compile.Extends g.statement

namespace Compile

variable {d₀ d d₁ d' : Draft} {g : Grammar}

/-- A branch that takes the place of a comparison is a guard. -/
theorem equalityBranch_extended (hd : Furnished d) (condition : Register) (truth : Bool) (scope : Nat)
    (out : Register) (site : Token) :
    Post (equalityBranch condition truth scope out site) d fun fused d' => Extended d d' ∧
      (fused = true → ∃ front op, d'.code = front ++ [op] ∧ op.Guards out scope) := by
  have hstay : Post (pure false) d fun fused d' => Extended d d' ∧
      (fused = true → ∃ front op, d'.code = front ++ [op] ∧ op.Guards out scope) :=
    Ensures.pure ⟨.of_scopes hd rfl rfl, nofun⟩
  unfold equalityBranch
  refine Ensures.run (currentScope_eq d) ?_
  refine Ensures.run (show scopeAt d.current d = .ok d.scope d from rfl) ?_
  split
  · rename_i op left right target l hback
    split
    · have hdrop : Extended d (d.rewrite dropLast) := by
        refine .rewrite hd rfl fun o ho => .inl ?_
        rw [dropLast_operations] at ho
        exact (List.dropLast_sublist _).subset ho
      have hcopy := Extended.write hdrop.furnished (.copy noneRegister out) site rfl
      have hcall := Extended.write hcopy.furnished
        (.callCompared ((op = .eq : Bool) == truth) left right (some scope) out) site rfl
      refine Ensures.run (t := d.rewrite dropLast) rfl ?_
      refine Ensures.run (emit_run _ _ _) (Ensures.run (emit_run _ _ _) (Ensures.pure ?_))
      refine ⟨hdrop.trans (hcopy.trans hcall), fun _ => ⟨_, _, hcopy.furnished.append_code _ site, ?_⟩⟩
      exact .inr ⟨_, _, _, rfl⟩
    · exact hstay
  · exact hstay

theorem equalityBranch_extends (condition : Register) (truth : Bool) (scope : Nat) (out : Register)
    (site : Token) : Follows Extends (equalityBranch condition truth scope out site) :=
  extends_of fun _ hd => (equalityBranch_extended hd condition truth scope out site).imp fun _ _ h => h.1

/-- The code since the mark is in a finished block, and an operation at the end enters it. -/
theorem applyGuard_extended (hg : g.Extending) (hd : Furnished d) (start : Nat) (value : Register) :
    Post (applyGuard g start value) d fun out d' => Extended d d' ∧
      ∃ front op j keyword, d'.code = front ++ [op] ∧ op.Guards out j ∧
        d'.finished j = some (guardBody d.scope start value keyword) := by
  refine silent_advance.then fun keyword d₁ u => ?_
  have e₁ : Extended d d₁ := .of_scopes hd (congrArg Program.scopes u.program) u.opened
  refine guard_moved e₁.furnished.current_lt ?_
  have hmoved := Extended.moveCode e₁.furnished start value keyword
  have hblock := moveCode_finished e₁.furnished start value keyword
  rw [u.scope] at hblock
  refine Ensures.bind ((e₁.trans hmoved).after hg.expression) fun condition d₂ e₂ => ?_
  refine Ensures.bind (e₂.1.after alloc_extends) fun out d₃ e₃ => ?_
  have hblock₃ := e₃.2.finished e₂.1.furnished _ _ (e₂.2.finished hmoved.furnished _ _ hblock)
  refine Ensures.bind (equalityBranch_extended e₃.1.furnished _ _ _ _ _) fun fused d₄ h₄ => ?_
  obtain ⟨e₄, hfused⟩ := h₄
  have hblock₄ := e₄.finished e₃.1.furnished _ _ hblock₃
  cases fused with
  | true =>
    obtain ⟨front, op, hcode, hop⟩ := hfused rfl
    exact Ensures.pure ⟨e₃.1.trans e₄, front, op, _, keyword, hcode, hop, hblock₄⟩
  | false =>
    have e₅ := Extended.write e₄.furnished (.branch (keyword.kind = .kwIf) condition
      (some d₁.program.scopes.size) out) keyword rfl
    refine Ensures.run (emit_run _ _ _) (Ensures.pure ?_)
    exact ⟨(e₃.1.trans e₄).trans e₅, _, _, _, keyword, e₄.furnished.append_code _ keyword,
      .inl ⟨_, _, rfl⟩, e₅.finished e₄.furnished _ _ hblock₄⟩

theorem guards_extends (hg : g.Extending) (start : Nat) (value : Register) :
    Follows Extends (guards g start value) := by
  refine .whileReading (fun value => (silent_checkAny _).before fun _ => .ite ?_ (.pure _)) value
  refine Follows.bind (extends_of fun d hd => ?_) fun _ => .pure _
  exact (applyGuard_extended hg hd start value).imp fun _ _ h => h.1

theorem guardedExpression_extends (hg : g.Extending) : Follows Extends (guardedExpression g) :=
  silent_codeSize.before fun start => hg.expression.bind fun value => guards_extends hg start value

def EndsInPair (d : Draft) (out : Register) : Prop :=
  ∃ front op, d.code = front ++ [op] ∧ op.MakesPair d.finished out

theorem EndsInPair.still {out : Register} (h : EndsInPair d out) (u : Undisturbed d d') :
    EndsInPair d' out := by
  obtain ⟨front, op, hcode, hop⟩ := h
  have hfinished : d'.finished = d.finished := by
    funext i
    unfold Draft.finished
    rw [u.openScopes, u.program]
  refine ⟨front, op, ?_, hfinished ▸ hop⟩
  rw [Draft.code, u.scope]
  exact hcode

theorem EndsInPair.guard {out value : Register} {op : Operation} {front : List Operation} {j : Nat}
    {keyword : Token} (h : EndsInPair d value) (hrets : ∀ r, .ret r ∉ d.code)
    (hfinished : ∀ i t, d.finished i = some t → d'.finished i = some t)
    (hcode : d'.code = front ++ [op]) (hop : op.Guards out j)
    (hj : d'.finished j = some (guardBody d.scope 0 value keyword)) : EndsInPair d' out := by
  obtain ⟨inside, last, hlast, hmakes⟩ := h
  have hbody : (guardBody d.scope 0 value keyword).operations = inside ++ [last, .ret value] := by
    rw [guardBody_operations, List.drop_zero]
    change d.code ++ [.ret value] = _
    rw [hlast, List.append_assoc]
    rfl
  have hpairs : Pairs d'.finished j := by
    refine .of_last hj hbody (fun r hr => hrets r ?_) (hmakes.mono hfinished)
    rw [hlast]
    exact List.mem_append_left _ hr
  exact ⟨front, op, hcode, .inr ⟨j, hop, hpairs⟩⟩

theorem pairGuards_post (hg : g.Extending) (hempty : d₀.code = [])
    {value : Register} (e : Extended d₀ d) (hpair : EndsInPair d value) :
    Post (guards g 0 value) d fun out d' => Extended d₀ d' ∧ EndsInPair d' out := by
  refine whileReading_post (I := fun out d' => Extended d₀ d' ∧ EndsInPair d' out) (fun value d h => ?_)
    ⟨e, hpair⟩
  obtain ⟨e, hpair⟩ := h
  refine (silent_checkAny _).then fun again d₁ u => ?_
  have e₁ : Extended d₀ d₁ := e.trans (.of_scopes e.furnished (congrArg Program.scopes u.program) u.opened)
  have hrets : ∀ r, .ret r ∉ d₁.code := fun r hr => by
    have hold := e₁.returns r hr
    rw [hempty] at hold
    cases hold
  split
  · refine Ensures.bind (applyGuard_extended hg e₁.furnished 0 value) fun out d₂ h₂ => Ensures.pure ?_
    obtain ⟨e₂, front, op, j, keyword, hcode, hop, hj⟩ := h₂
    exact ⟨e₁.trans e₂, (hpair.still u).guard hrets (e₂.finished e₁.furnished) hcode hop hj⟩
  · exact Ensures.pure ⟨e₁, hpair.still u⟩

/-- The body of a map comprehension, in a scope that was empty. -/
theorem pairBody_post (hg : g.Extending) (hd : Furnished d) (hempty : d.code = []) (site : Token) :
    Post (pairBody g site) d fun out d' => Extended d d' ∧ EndsInPair d' out := by
  have hpair : ∀ key entry d₁, Extended d d₁ → Post (do
      let value ← alloc
      emit (.makeList [key, entry] value) site
      guards g 0 value) d₁ fun out d' => Extended d d' ∧ EndsInPair d' out := by
    intro key entry d₁ e₁
    refine Ensures.bind (e₁.after alloc_extends) fun value d₂ e₂ => ?_
    have e₃ := Extended.write e₂.1.furnished (.makeList [key, entry] value) site rfl
    refine Ensures.run (emit_run _ _ _) (pairGuards_post hg hempty (e₂.1.trans e₃) ?_)
    exact ⟨_, _, e₂.1.furnished.append_code _ site, .inl ⟨key, entry, rfl⟩⟩
  refine Ensures.run (codeSize_eq d) ?_
  rw [hempty]
  refine Ensures.bind (hg.expression d) fun key d₁ e₁ => ?_
  refine Ensures.bind ((e₁ hd).after (silent_accept _).follows) fun comma d₂ e₂ => ?_
  dsimp only
  split
  · refine Ensures.bind (e₂.1.after silent_skipNewlines.follows) fun _ d₃ e₃ => ?_
    exact Ensures.bind (e₃.1.after hg.expression) fun entry d₄ e₄ => hpair key entry d₄ e₄.1
  · exact Ensures.pure_bind (hpair key key d₂ e₂.1)

theorem loopVariables_names (d : Draft) : Post loopVariables d fun names _ => LoopNames names := by
  refine (silent_expect _ _).then fun first d₁ _ => (silent_accept _).then fun two d₂ _ => ?_
  split
  · refine (silent_expect _ _).then fun second d₃ _ => ?_
    split
    · exact Ensures.get_bind (Ensures.throw trivial)
    · rename_i hne
      exact Ensures.pure (.inr ⟨_, _, Ne.symm hne, rfl⟩)
  · exact Ensures.pure (.inl ⟨_, rfl⟩)

theorem loadLiteral_extends (v : Value) (site : Token) : Follows Extends (loadLiteral v site) :=
  emitTo_extends site (fun _ => rfl) id

theorem items_extend (hg : g.Extending) : Follows Extends (commaSeparated do
    skipNewlines
    g.expression) := .commaSeparated (silent_skipNewlines.before fun _ => hg.expression)

theorem callArguments_extends (hg : g.Extending) : Follows Extends (callArguments g) := by
  refine silent_peek.before fun t => .ite ?_ (silent_startsOperand.before fun _ => .ite ?_ (.pure _))
  · refine silent_advance.before fun _ => silent_skipNewlines.before fun _ => (silent_check _).before fun _ => ?_
    refine .ite_bind (.pure _) (.commaSeparated ?_) fun args => (silent_expect _ _).before fun _ => .pure args
    refine silent_skipNewlines.before fun _ => hg.expression.bind fun r => ?_
    exact silent_skipNewlines.before fun _ => .pure r
  · exact items_extend hg

theorem block_extends (hg : g.Extending) (terminators : List TokenKind) :
    Follows Extends (block g terminators) := by
  refine silent_skipSeparators.before fun _ => .whileReading (fun last => ?_) _
  refine (silent_checkAny _).before fun _ => .ite (.pure _) (hg.statement.bind fun value => ?_)
  exact silent_endStatement.before fun _ => silent_skipSeparators.before fun _ => .pure _

theorem blockScope_extends (hg : g.Extending) (name : Text) (terminators : List TokenKind) (site : Token)
    (bound : Option Text) : Follows Extends (blockScope g name terminators site bound) := by
  refine extends_of fun d hd => Ensures.bind (openScope_inner hd _ _ _ _ _) fun i d₁ h₁ => ?_
  obtain ⟨h₁, -⟩ := h₁
  have hbody : ∀ d₁, Inner d i d₁ → Post (do
      let last ← block g terminators
      emit (.ret last) (← peek)
      closeScope
      return i) d₁ fun _ d' => Extended d d' := by
    refine fun d₁ h₁ => h₁.next (block_extends hg terminators) fun last d₂ h₂ => ?_
    refine h₂.next silent_peek.follows fun t d₃ h₃ => ?_
    exact Ensures.run (emit_run _ _ _) ((h₃.ret last t).finish hd i)
  cases bound with
  | none => exact hbody d₁ h₁
  | some n => exact h₁.next (discreet_declare n false).extends fun _ d₂ h₂ => hbody d₂ h₂

theorem functionStatements_inner (hg : g.Extending) {i : Nat} (h : Inner d i d₁) :
    Post (functionStatements g) d₁ fun _ d' => Inner d i d' := by
  refine h.next (silent_accept _).follows fun equal d₂ h₂ => ?_
  split
  · refine h₂.next silent_previous.follows fun site d₃ h₃ => ?_
    refine h₃.next silent_skipNewlines.follows fun _ d₄ h₄ => ?_
    refine h₄.next (guardedExpression_extends hg) fun value d₅ h₅ => ?_
    exact Ensures.of_run (emit_run _ _ _) (h₅.ret value site)
  · refine h₂.next (block_extends hg _) fun last d₃ h₃ => ?_
    refine h₃.next (silent_expect _ _).follows fun close d₄ h₄ => ?_
    exact Ensures.of_run (emit_run _ _ _) (h₄.ret last close)

theorem declareParams_inner {i : Nat} (h : Inner d i d₁) (params : List Parameter) :
    Post (declareParams i params) d₁ fun _ d' => Inner d i d' := by
  refine h.describe rfl fun h₂ => ?_
  exact (discreet_declareParams params _).imp fun _ _ u =>
    h₂.step (.of_scopes h₂.furnished (congrArg Program.scopes u.program) u.opened)

theorem closureBody_extends (hg : g.Extending) (h : Header) (selfName : Option Text) (isLambda : Bool) :
    Follows Extends (closureBody g h selfName isLambda) := by
  refine Follows.bind (within_extends h.name (extends_of fun d hd => ?_)) fun i => ?_
  · refine Ensures.bind (openScope_inner hd _ _ _ _ _) fun i d₁ h₁ => h₁.1.describe rfl fun h₂ => ?_
    have hend : ∀ d₃, Inner d i d₃ → Post (do
        let captures := ((← get).opened.head?.map (·.captures)).getD []
        modifyScope i fun s => { s with captures }
        closeScope
        return i) d₃ fun _ d' => Extended d d' := by
      refine fun d₃ h₃ => Ensures.get_bind (h₃.describe rfl fun h₄ => ?_)
      exact h₄.finish hd i
    have hbody : ∀ d₃, Inner d i d₃ → Post (do
        declareParams i h.signature.params
        if isLambda then
          let value ← guardedExpression g
          emit (.ret value) h.token
        else functionStatements g
        let captures := ((← get).opened.head?.map (·.captures)).getD []
        modifyScope i fun s => { s with captures }
        closeScope
        return i) d₃ fun _ d' => Extended d d' := by
      refine fun d₃ h₃ => Ensures.bind (declareParams_inner h₃ _) fun _ d₄ h₄ => ?_
      dsimp only
      split
      · refine h₄.next (guardedExpression_extends hg) fun value d₅ h₅ => ?_
        exact Ensures.run (emit_run _ _ _) (hend _ (h₅.ret value h.token))
      · exact Ensures.bind (functionStatements_inner hg h₄) fun _ d₅ h₅ => hend d₅ h₅
    cases selfName with
    | none => exact hbody _ h₂
    | some n => exact h₂.next (discreet_declareCallable n).extends fun _ d₃ h₃ => hbody d₃ h₃
  · have hpush : Follows Extends (modifyProgram fun p =>
        { p with closures := p.closures.push (h.interpreted i) }) := modifyProgram_extends fun _ => rfl
    exact silent_get.before fun d => hpush.bind fun _ => .pure _

theorem lambda_extends (hg : g.Extending) : Follows Extends (lambda g) := by
  refine silent_advance.before fun token => ?_
  refine .ite_bind (silent_parameterList _ _).follows (.pure _) fun params => ?_
  exact (closureBody_extends hg _ none true).bind fun closure => emitTo_extends token (fun _ => rfl) id

theorem collect_post {d₀ : Draft} {i : Nat} (e : Extended d₀ d) {toMap : Bool} (source out : Register) (site : Token)
    (hbody : LoopBody d.finished toMap i) :
    Post (do
      emit (.collect toMap source (some i) out) site
      return out) d fun _ d' => Extended d₀ d' := by
  refine Ensures.run (emit_run _ _ _) (Ensures.pure (e.trans ?_))
  refine .snoc e.furnished site ?_ nofun
  rintro _ _ _ _ ⟨⟩
  exact ⟨i, rfl, hbody⟩

theorem Inner.closeLoop {i : Nat} {toMap : Bool} {value : Register} (hd : Furnished d) (h : Inner d i d₁)
    (hnames : LoopNames d₁.scope.params)
    (hrets : ∀ r, .ret r ∉ d₁.code) (hpair : toMap = true → EndsInPair d₁ value) (site : Token) :
    Post closeScope (d₁.rewrite (append (.ret value) site)) fun _ d₂ =>
      Extended d d₂ ∧ LoopBody d₂.finished toMap i := by
  refine ((h.ret value site).close hd).imp fun _ d₂ h₂ => ?_
  obtain ⟨e, hlast, hfinished⟩ := h₂
  rw [h.furnished.rewritten_scope] at hlast
  rw [h.furnished.rewrite_finished] at hfinished
  refine ⟨e, ⟨_, hlast, hnames⟩, fun hmap => ?_⟩
  obtain ⟨front, op, hcode, hop⟩ := hpair hmap
  have hoperations : (append (.ret value) site d₁.scope).operations = front ++ [op, .ret value] := by
    rw [append_operations]
    change d₁.code ++ [.ret value] = _
    rw [hcode, List.append_assoc]
    rfl
  refine .of_last hlast hoperations (fun r hr => hrets r ?_) (hop.mono hfinished)
  rw [hcode]
  exact List.mem_append_left _ hr

/-- The body of a comprehension is finished before the comprehension is written. -/
theorem comprehension_extends (hg : g.Extending) (site : Token) (toMap : Bool) :
    Follows Extends (comprehension g site toMap) := by
  refine silent_advance.before fun _ => extends_of fun d hd => ?_
  refine Ensures.bind (post_both (loopVariables_names d) (silent_loopVariables d)) fun names d₁ h₁ => ?_
  obtain ⟨hnames, u⟩ := h₁
  have e₁ : Extended d d₁ := .of_scopes hd (congrArg Program.scopes u.program) u.undisturbed.opened
  refine Ensures.bind (e₁.after (silent_expect _ _).follows) fun _ d₂ e₂ => ?_
  refine Ensures.bind (e₂.1.after hg.expression) fun source d₃ e₃ => ?_
  refine Ensures.bind (e₃.1.after (silent_expect _ _).follows) fun _ d₄ e₄ => ?_
  refine Ensures.bind (e₄.1.after silent_skipNewlines.follows) fun _ d₅ e₅ => ?_
  have hd₅ := e₅.1.furnished
  refine Ensures.bind (openScope_inner hd₅ _ _ _ _ _) fun i d₆ h₆ => ?_
  obtain ⟨h₆, hempty₆⟩ := h₆
  refine h₆.describe rfl fun h₇ => ?_
  have hparams₇ := h₆.furnished.rewritten_scope (f := fun s => { s with params := names })
  have hempty₇ := h₆.furnished.rewrite_code (f := fun s => { s with params := names })
  refine (discreet_declareAll names).then fun _ d₈ u₈ => ?_
  have e₈ := Extended.of_scopes h₇.furnished (congrArg Program.scopes u₈.program) u₈.opened
  have hempty₈ : d₈.code = [] := by
    rw [Draft.code, u₈.scope]
    exact hempty₇.trans hempty₆
  -- what the body leaves, and that it has not returned before
  have hbody : Post (if toMap then pairBody g site else guardedExpression g) d₈ fun value d' =>
      Extended d₈ d' ∧ (toMap = true → EndsInPair d' value) := by
    split
    · exact (pairBody_post hg e₈.furnished hempty₈ site).imp fun _ _ h => ⟨h.1, fun _ => h.2⟩
    · rename_i hlist
      exact (guardedExpression_extends hg d₈).imp fun _ _ e => ⟨e e₈.furnished, fun hm => absurd hm hlist⟩
  refine Ensures.ite_bind hbody fun value d₉ h₉ => ?_
  obtain ⟨e₉, hpair⟩ := h₉
  refine silent_peek.then fun t d₁₀ u₁₀ => ?_
  have e₁₀ := e₉.trans (.of_scopes e₉.furnished (congrArg Program.scopes u₁₀.program) u₁₀.opened)
  have hparams : d₁₀.scope.params = names := by rw [e₁₀.params, e₈.params, hparams₇]
  refine Ensures.run (emit_run _ _ _) ?_
  refine Ensures.bind (Inner.closeLoop hd₅ ((h₇.step e₈).step e₁₀) (hparams ▸ hnames) (fun r hr => ?_)
    (fun hm => (hpair hm).still u₁₀) t) fun _ d₁₁ h₁₁ => ?_
  · have hold := e₁₀.returns r hr
    rw [hempty₈] at hold
    cases hold
  obtain ⟨e₁₁, hloop⟩ := h₁₁
  refine Ensures.bind (e₁₁.after silent_skipNewlines.follows) fun _ d₁₂ e₁₂ => ?_
  refine Ensures.bind (e₁₂.1.after alloc_extends) fun out d₁₃ e₁₃ => ?_
  have hloop₁₃ := (hloop.mono (e₁₂.2.finished e₁₁.furnished)).mono (e₁₃.2.finished e₁₂.1.furnished)
  refine Ensures.ite_bind (R := fun _ d' => Extended d d' ∧ LoopBody d'.finished toMap i) ?_
    fun _ d₁₄ h₁₄ => collect_post h₁₄.1 source out site h₁₄.2
  have hexpect : ∀ kind message, Post (expect kind message) d₁₃ fun _ d' =>
      Extended d d' ∧ LoopBody d'.finished toMap i := fun kind message =>
    (e₁₃.1.after (silent_expect kind message).follows).imp fun _ _ e =>
      ⟨e₅.1.trans e.1, hloop₁₃.mono (e.2.finished e₁₃.1.furnished)⟩
  split
  · exact hexpect _ _
  · exact hexpect _ _

theorem itemsUntil_extends {α : Type} (close : TokenKind) {item : Compile α} (hi : Follows Extends item) :
    Follows Extends (itemsUntil close item) := by
  refine Follows.bind (.whileReading (fun items => ?_) []) fun items => .pure _
  refine (silent_check _).before fun _ => .ite (.pure _) (hi.bind fun a => silent_skipNewlines.before fun _ => ?_)
  exact (silent_accept _).before fun _ => .ite (silent_skipNewlines.before fun _ => .pure _) (.pure _)

theorem listLiteral_extends (hg : g.Extending) : Follows Extends (listLiteral g) := by
  refine silent_advance.before fun site => silent_skipNewlines.before fun _ => (silent_check _).before fun _ => ?_
  refine .ite (comprehension_extends hg site false) ((itemsUntil_extends _ hg.expression).bind fun items => ?_)
  exact (silent_expect _ _).before fun _ => emitTo_extends site (fun _ => rfl) id

theorem mapEntry_extends (hg : g.Extending) : Follows Extends (mapEntry g) := by
  refine silent_peek.before fun t => (silent_peekAt 1).before fun next => ?_
  have hrest : ∀ key, Follows Extends (do
      if ← accept .equal then
        skipNewlines
        return [key, ← g.expression]
      else return [key, key]) := fun key =>
    (silent_accept _).before fun _ => .ite
      (silent_skipNewlines.before fun _ => hg.expression.bind fun _ => .pure _) (.pure _)
  refine .ite (silent_advance.before fun name => ?_) (hg.expression.bind hrest)
  exact (loadLiteral_extends _ name).bind hrest

theorem mapLiteral_extends (hg : g.Extending) : Follows Extends (mapLiteral g) := by
  refine silent_advance.before fun site => silent_skipNewlines.before fun _ => (silent_check _).before fun _ => ?_
  refine .ite (comprehension_extends hg site true) ((itemsUntil_extends _ (mapEntry_extends hg)).bind fun pairs => ?_)
  exact (silent_expect _ _).before fun _ => emitTo_extends site (fun _ => rfl) id

theorem parenthesized_extends (hg : g.Extending) : Follows Extends (parenthesized g) := by
  refine silent_advance.before fun _ => silent_skipNewlines.before fun _ => hg.expression.bind fun inner => ?_
  exact silent_skipNewlines.before fun _ => (silent_expect _ _).before fun _ => .pure inner

theorem elseScope_extends (hg : g.Extending) : Follows Extends (elseScope g) := by
  refine (silent_accept _).before fun _ => .ite (silent_previous.before fun t => ?_) (.pure _)
  exact (blockScope_extends hg _ _ t none).bind fun _ => .pure _

theorem ifExpression_extends (hg : g.Extending) : Follows Extends (ifExpression g) := by
  refine silent_advance.before fun keyword => hg.expression.bind fun condition => ?_
  refine (blockScope_extends hg _ _ keyword none).bind fun body => (elseScope_extends hg).bind fun otherwise => ?_
  refine (silent_expect _ _).before fun _ => alloc_extends.bind fun out => ?_
  refine .ite_bind (equalityBranch_extends _ _ _ _ _) (.pure _) fun fused => .ite (.pure out) ?_
  exact (emit_extends keyword rfl).bind fun _ => .pure out

theorem unlessExpression_extends (hg : g.Extending) : Follows Extends (unlessExpression g) := by
  refine silent_advance.before fun keyword => hg.expression.bind fun condition => ?_
  refine (blockScope_extends hg _ _ keyword none).bind fun body => (elseScope_extends hg).bind fun otherwise => ?_
  refine (silent_expect _ _).before fun _ => alloc_extends.bind fun out => ?_
  cases otherwise with
  | some other => exact (emit_extends keyword rfl).bind fun _ => .pure out
  | none =>
    refine (equalityBranch_extends _ _ _ _ _).bind fun fused => .ite (.pure out) ?_
    exact (emit_extends keyword rfl).bind fun _ => .pure out

theorem doExpression_extends (hg : g.Extending) : Follows Extends (doExpression g) := by
  refine silent_advance.before fun keyword => (blockScope_extends hg _ _ keyword none).bind fun body => ?_
  exact (silent_expect _ _).before fun _ => emitTo_extends keyword (fun _ => rfl) id

theorem tryBody_extends (hg : g.Extending) (keyword : Token) (blockForm : Bool) :
    Follows Extends (tryBody g keyword blockForm) := by
  refine .ite (blockScope_extends hg _ _ keyword none) (extends_of fun d hd => ?_)
  refine Ensures.bind (openScope_inner hd _ _ _ _ _) fun i d₁ h₁ => h₁.1.next hg.expression fun value d₂ h₂ => ?_
  exact Ensures.run (emit_run _ _ _) ((h₂.ret value keyword).finish hd i)

theorem tryExpression_extends (hg : g.Extending) : Follows Extends (tryExpression g) := by
  refine silent_advance.before fun keyword => (silent_checkAny _).before fun blockForm => ?_
  refine (tryBody_extends hg keyword blockForm).bind fun body => (silent_accept _).before fun _ => ?_
  let rest (handler : Target × Option Text) : Compile Register := do
    let out ← alloc
    emit (.tryCatch (some body) handler.1 handler.2 out) keyword
    return out
  have hrest : ∀ handler, Follows Extends (rest handler) :=
    fun handler => emitTo_extends keyword (fun _ => rfl) id
  refine .ite ?_ (.ite ((silent_expect _ _).before fun _ => .bind (.pure _) hrest) (.bind (.pure _) hrest))
  refine silent_previous.before fun site => (silent_check _).before fun _ => ?_
  have hcatch : ∀ errorName : Option Text, Follows Extends (do
      let handler ← blockScope g "<catch>" [.kwEnd] site errorName
      let _ ← expect .kwEnd "Expected 'end' to close 'catch'"
      let caught ← pure (some handler, errorName)
      rest caught) := fun errorName =>
    (blockScope_extends hg _ _ site errorName).bind fun handler => (silent_expect _ _).before fun _ =>
      .bind (.pure _) hrest
  exact .ite (silent_advance.before fun t => .bind (.pure _) hcatch) (.bind (.pure _) hcatch)

theorem raiseExpression_extends (hg : g.Extending) : Follows Extends (raiseExpression g) :=
  silent_advance.before fun keyword => hg.expression.bind fun _ =>
    (emit_extends keyword rfl).bind fun _ => .pure _

theorem returnExpression_extends (hg : g.Extending) : Follows Extends (returnExpression g) := by
  refine silent_advance.before fun keyword => silent_startsOperand.before fun _ => ?_
  exact .ite_bind hg.expression (.pure _) fun value => (emit_extends keyword rfl).bind fun _ => .pure _

theorem identifier_extends (hg : g.Extending) : Follows Extends (identifier g) := by
  refine silent_advance.before fun name => (discreet_lookup _).extends.bind fun found => ?_
  cases found with
  | some info =>
    refine alloc_extends.bind fun out => (emit_extends name rfl).bind fun _ => .ite ?_ (.pure _)
    exact (callArguments_extends hg).bind fun args =>
      emitTo_extends name (fun _ => rfl) fun r => (⟨r, none⟩ : Operand)
  | none =>
    have hcall : Follows Extends (do
        let args ← callArguments g
        let out ← alloc
        emit (.callFunction name.text args out) name
        return (⟨out, none⟩ : Operand)) :=
      (callArguments_extends hg).bind fun args =>
        emitTo_extends name (fun _ => rfl) fun r => (⟨r, none⟩ : Operand)
    refine (silent_check _).before fun _ => (silent_peekAt 1).before fun _ => .ite ?_ hcall
    refine silent_advance.before fun _ => silent_advance.before fun function => ?_
    exact (callArguments_extends hg).bind fun args =>
      emitTo_extends name (fun _ => rfl) fun r => (⟨r, none⟩ : Operand)

theorem plainOperand_extends {read : Compile Register} (h : Follows Extends read) :
    Follows Extends (plainOperand read) := h.bind fun _ => .pure _

theorem primary_extends (hg : g.Extending) : Follows Extends (primary g) := by
  refine silent_peek.before fun t => ?_
  split
  · refine silent_advance.before fun _ => plainOperand_extends ((silent_numberLiteral t).before fun n => ?_)
    exact loadLiteral_extends _ t
  · exact silent_advance.before fun _ => plainOperand_extends (loadLiteral_extends _ t)
  · exact silent_advance.before fun _ => plainOperand_extends (loadLiteral_extends _ t)
  · exact silent_advance.before fun _ => plainOperand_extends (loadLiteral_extends _ t)
  · exact silent_advance.before fun _ => .pure _
  · exact plainOperand_extends (listLiteral_extends hg)
  · exact plainOperand_extends (mapLiteral_extends hg)
  · exact plainOperand_extends (parenthesized_extends hg)
  · exact plainOperand_extends (ifExpression_extends hg)
  · exact plainOperand_extends (unlessExpression_extends hg)
  · exact plainOperand_extends (doExpression_extends hg)
  · exact plainOperand_extends (tryExpression_extends hg)
  · exact plainOperand_extends (raiseExpression_extends hg)
  · exact plainOperand_extends (returnExpression_extends hg)
  · exact plainOperand_extends (lambda_extends hg)
  · exact plainOperand_extends (lambda_extends hg)
  · exact identifier_extends hg
  · exact (silent_fail _ t).follows
  · exact (silent_fail _ t).follows

theorem methodCall_extends (hg : g.Extending) (target : Operand) : Follows Extends (methodCall g target) := by
  refine silent_advance.before fun dot => (silent_expect _ _).before fun method => ?_
  exact (callArguments_extends hg).bind fun args =>
    emitTo_extends dot (fun _ => rfl) fun r => (⟨r, none⟩ : Operand)

theorem indexing_extends (hg : g.Extending) (target : Operand) : Follows Extends (indexing g target) := by
  refine silent_advance.before fun site => silent_skipNewlines.before fun _ => hg.expression.bind fun index => ?_
  refine silent_skipNewlines.before fun _ => (silent_expect _ _).before fun _ => ?_
  exact emitTo_extends site (fun _ => rfl) fun r => (⟨r, none⟩ : Operand)

theorem valueCall_extends (hg : g.Extending) (target : Operand) : Follows Extends (valueCall g target) :=
  silent_peek.before fun site => (callArguments_extends hg).bind fun _ =>
    emitTo_extends site (fun _ => rfl) fun r => (⟨r, none⟩ : Operand)

theorem suffixes_extends (hg : g.Extending) (target : Operand) : Follows Extends (suffixes g target) := by
  refine .whileReading (fun target => silent_peek.before fun t => ?_) target
  refine .ite ((methodCall_extends hg target).bind fun _ => .pure _) ?_
  refine .ite ((indexing_extends hg target).bind fun _ => .pure _) ?_
  refine .ite ((valueCall_extends hg target).bind fun _ => .pure _) ?_
  refine (silent_peekAt 1).before fun next => .ite ?_ (.pure _)
  refine silent_advance.before fun bang => silent_advance.before fun _ => ?_
  exact (emit_extends bang rfl).bind fun _ => .pure _

theorem operand_extends (hg : g.Extending) : Follows Extends (operand g) := by
  refine silent_peek.before fun t => (silent_peekAt 1).before fun next => .ite ?_ ?_
  · refine silent_advance.before fun _ => silent_advance.before fun number => ?_
    refine (silent_numberLiteral number).before fun n => (loadLiteral_extends _ t).bind fun literal => ?_
    exact (suffixes_extends hg _).bind fun _ => .pure _
  split
  · exact silent_advance.before fun _ => hg.operand.bind fun inner => emitTo_extends t (fun _ => rfl) id
  · exact (primary_extends hg).bind fun target => (suffixes_extends hg target).bind fun _ => .pure _

theorem operatorStep_extends (hg : g.Extending) (left : Register) : Follows Extends (operatorStep g left) := by
  refine silent_peek.before fun t => ?_
  split
  · refine silent_advance.before fun _ => silent_typeName.before fun type => ?_
    exact emitTo_extends t (fun _ => rfl) fun out => (out, true)
  · refine silent_advance.before fun _ => hg.operand.bind fun stop => ?_
    exact emitTo_extends t (fun _ => rfl) fun out => (out, true)
  · refine silent_advance.before fun _ => hg.operand.bind fun stop => ?_
    exact emitTo_extends t (fun _ => rfl) fun out => (out, true)
  · split
    · refine silent_advance.before fun _ => silent_skipNewlines.before fun _ => hg.operand.bind fun right => ?_
      exact emitTo_extends t (fun _ => rfl) fun out => (out, true)
    · exact .pure _

theorem expression_extends (hg : g.Extending) : Follows Extends (expression g) :=
  hg.operand.bind fun left => .whileReading (operatorStep_extends hg) left

end Compile

end ScriptMachine
