import ScriptMachine.Compiler.Source
import ScriptMachine.Proofs.Compiler.Reading

set_option autoImplicit false

namespace ScriptMachine

namespace Compile

/-- Tokens have been read and code has been written, but nothing has been registered or imported. -/
structure Calm (d d' : Draft) : Prop where
  modules : d'.program.modules = d.program.modules
  imports : d'.program.imports = d.program.imports
  ahead : d'.ahead <:+ d.ahead
  final : d'.final = d.final

/-- As many scopes are open as before. -/
structure Quiet (d d' : Draft) : Prop extends Calm d d' where
  depth : d'.opened.length = d.opened.length

def QuietAt (n : Nat) (d d' : Draft) : Prop := n ≤ d.opened.length → Quiet d d'

def Closes (d d' : Draft) : Prop :=
  2 ≤ d.opened.length → Calm d d' ∧ d'.opened.length + 1 = d.opened.length

variable {d d' d'' : Draft} {n : Nat}

theorem Calm.trans (h : Calm d d') (h' : Calm d' d'') : Calm d d'' :=
  ⟨h'.modules.trans h.modules, h'.imports.trans h.imports, h'.ahead.trans h.ahead, h'.final.trans h.final⟩

theorem Quiet.trans (h : Quiet d d') (h' : Quiet d' d'') : Quiet d d'' :=
  ⟨h.toCalm.trans h'.toCalm, h'.depth.trans h.depth⟩

theorem Still.quiet (u : Still d d') : Quiet d d' :=
  ⟨⟨congrArg Program.modules u.program, congrArg Program.imports u.program, u.ahead, u.final⟩,
    congrArg List.length u.opened⟩

instance : Flow (QuietAt n) where
  still := fun u _ => u.quiet
  trans := fun h h' hn => (h hn).trans (h' ((h hn).depth ▸ hn))

section
variable {α β : Type} {x : Compile α} {f : α → Compile β}

theorem Follows.deeper {m : Nat} (h : Follows (QuietAt n) x) (hnm : n ≤ m) : Follows (QuietAt m) x :=
  fun d => (h d).imp fun _ _ q hm => q (Nat.le_trans hnm hm)

theorem Follows.closing (hx : Follows (QuietAt 2) x) (hf : ∀ a, Follows Closes (f a)) :
    Follows Closes (x >>= f) := by
  refine fun d => Ensures.bind (hx d) fun a d₁ q => (hf a d₁).imp fun _ d₂ h hd => ?_
  have q := q hd
  obtain ⟨c, hdepth⟩ := h (q.depth ▸ hd)
  exact ⟨q.toCalm.trans c, hdepth.trans q.depth⟩

theorem closeScope_closes {rest : Compile β} (hrest : Follows (QuietAt 1) rest) :
    Follows Closes (closeScope >>= fun _ => rest) := by
  refine fun d => Ensures.change_bind ((hrest _).imp fun _ d₂ q hd => ?_)
  have hlength : d.opened.tail.length = d.opened.length - 1 := List.length_tail
  have hone : 1 ≤ d.opened.tail.length := by omega
  have q := q hone
  have hdepth : d₂.opened.length = d.opened.tail.length := q.depth
  exact ⟨⟨q.modules, q.imports, q.ahead, q.final⟩, by omega⟩

theorem openScope_quiet {kind : ScopeKind} {name : Text} {isFunction isClosure : Bool} {site : Token}
    {f : Nat → Compile β} (hf : ∀ i, Follows Closes (f i)) :
    Follows (QuietAt 1) (openScope kind name isFunction isClosure site >>= f) := by
  intro d
  refine Ensures.run (t := _) rfl ((hf d.program.scopes.size _).imp fun _ d₂ h hd => ?_)
  obtain ⟨c, hdepth⟩ := h (Nat.succ_le_succ hd)
  exact ⟨⟨c.modules, c.imports, c.ahead, c.final⟩, Nat.succ.inj hdepth⟩

theorem modify_quiet {g : Draft → Draft} (h : ∀ d, Quiet d (g d)) : Follows (QuietAt n) (modify g) :=
  fun d => Ensures.change fun _ => h d

end

theorem modifyProgram_quiet {f : Program → Program} (hmodules : ∀ p, (f p).modules = p.modules)
    (himports : ∀ p, (f p).imports = p.imports) : Follows (QuietAt n) (modifyProgram f) :=
  modify_quiet fun d => ⟨⟨hmodules d.program, himports d.program, List.suffix_rfl, rfl⟩, rfl⟩

theorem modifyScope_quiet (i : Nat) (f : Scope → Scope) : Follows (QuietAt n) (modifyScope i f) :=
  modifyProgram_quiet (fun _ => rfl) fun _ => rfl

theorem emit_quiet (op : Operation) (site : Token) : Follows (QuietAt n) (emit op site) :=
  silent_currentScope.before fun i => modifyScope_quiet i _

theorem alloc_quiet : Follows (QuietAt n) alloc :=
  silent_currentScope.before fun i => (silent_scopeAt i).before fun _ =>
    (modifyScope_quiet i _).bind fun _ => .pure _

theorem addScope_quiet (kind : ScopeKind) (name : Text) (site : Token) :
    Follows (QuietAt n) (addScope kind name site) := by
  refine silent_get.before fun _ => Follows.bind (modifyProgram_quiet ?_ ?_) fun _ => .pure _
  · exact fun _ => rfl
  · exact fun _ => rfl

theorem declareAs_quiet (name : Text) (info : NameInfo) : Follows (QuietAt n) (declareAs name info) := by
  refine fun d => Ensures.change fun _ => ?_
  cases h : d.opened with
  | nil => exact (Still.refl d).quiet
  | cons s rest => exact ⟨⟨rfl, rfl, List.suffix_rfl, rfl⟩, by rw [h]; rfl⟩

theorem declareAll_quiet (names : List Text) :
    Follows (QuietAt n) (names.forM fun name => declare name false) := by
  induction names with
  | nil => exact .pure ()
  | cons name names ih => exact (declareAs_quiet name _).bind fun _ => ih

theorem declareParams_quiet (scope : Nat) (params : List Parameter) :
    Follows (QuietAt n) (declareParams scope params) := by
  refine (modifyScope_quiet scope _).bind fun _ => ?_
  induction params with
  | nil => exact .pure ()
  | cons p params ih => exact (declareAs_quiet p.name _).bind fun _ => ih

theorem lookup_quiet (name : Text) : Follows (QuietAt n) (lookup name) := by
  refine fun d => Ensures.get_bind ?_
  dsimp only
  split
  · rename_i info isLocal opened h
    have hdepth := congrArg List.length (resolve_scopes h)
    rw [List.length_map, List.length_map] at hdepth
    exact Ensures.bind (R := fun _ d' => QuietAt n d d')
      (Ensures.set fun _ => ⟨⟨rfl, rfl, List.suffix_rfl, rfl⟩, hdepth⟩) fun _ _ q => Ensures.pure q
  · exact Ensures.pure (Flow.refl _ d)

theorem within_quiet {α : Type} {x : Compile α} (name : Text) (hx : Follows (QuietAt n) x) :
    Follows (QuietAt n) (within name x) := by
  have hset : ∀ name : Text, Silent (modify fun d => { d with functionName := name }) :=
    fun name => silent_modify fun d => Still.rename d name
  refine silent_get.before fun d => (hset name).before fun _ => hx.bind fun a => ?_
  exact (hset d.functionName).before fun _ => .pure a

theorem emitTo_quiet {α : Type} (op : Register → Operation) (site : Token) (f : Register → α) :
    Follows (QuietAt n) (do
      let out ← alloc
      emit (op out) site
      return f out) :=
  alloc_quiet.bind fun out => (emit_quiet (op out) site).bind fun _ => .pure (f out)

end Compile

/-- Expressions are quiet wherever they stand, statements below the top level. -/
structure Grammar.Quiet (g : Grammar) : Prop where
  expression : Compile.Follows (Compile.QuietAt 1) g.expression
  operand : Compile.Follows (Compile.QuietAt 1) g.operand
  statement : Compile.Follows (Compile.QuietAt 2) g.statement

namespace Compile

variable {d d' : Draft} {g : Grammar} {n : Nat}

theorem equalityBranch_quiet (condition : Register) (truth : Bool) (scope : Nat) (out : Register)
    (site : Token) : Follows (QuietAt 1) (equalityBranch condition truth scope out site) := by
  refine silent_currentScope.before fun i => (silent_scopeAt i).before fun s => ?_
  split
  · refine .ite ((modifyScope_quiet i _).bind fun _ => ?_) (.pure _)
    exact (emit_quiet _ site).bind fun _ => (emit_quiet _ site).bind fun _ => .pure _
  · exact .pure _

theorem applyGuard_quiet (hg : g.Quiet) (start : Nat) (value : Register) :
    Follows (QuietAt 1) (applyGuard g start value) := by
  refine silent_advance.before fun keyword => silent_currentScope.before fun source => ?_
  refine (addScope_quiet _ _ keyword).bind fun guarded => (silent_scopeAt source).before fun s => ?_
  refine (modifyScope_quiet guarded _).bind fun _ => (modifyScope_quiet source _).bind fun _ => ?_
  refine hg.expression.bind fun condition => alloc_quiet.bind fun out => ?_
  refine (equalityBranch_quiet _ _ _ _ _).bind fun fused => .ite (.pure out) ?_
  exact (emit_quiet _ keyword).bind fun _ => .pure out

theorem guards_quiet (hg : g.Quiet) (start : Nat) (value : Register) :
    Follows (QuietAt 1) (guards g start value) := by
  refine .whileReading (fun value => (silent_checkAny _).before fun _ => .ite ?_ (.pure _)) value
  exact (applyGuard_quiet hg start value).bind fun _ => .pure _

theorem guardedExpression_quiet (hg : g.Quiet) : Follows (QuietAt 1) (guardedExpression g) :=
  silent_codeSize.before fun start => hg.expression.bind fun value => guards_quiet hg start value

theorem block_quiet (hg : g.Quiet) (terminators : List TokenKind) :
    Follows (QuietAt 2) (block g terminators) := by
  refine silent_skipSeparators.before fun _ => .whileReading (fun last => ?_) _
  refine (silent_checkAny _).before fun _ => .ite (.pure _) (hg.statement.bind fun value => ?_)
  exact silent_endStatement.before fun _ => silent_skipSeparators.before fun _ => .pure _

theorem blockScope_quiet (hg : g.Quiet) (name : Text) (terminators : List TokenKind) (site : Token)
    (bound : Option Text) : Follows (QuietAt 1) (blockScope g name terminators site bound) := by
  refine openScope_quiet fun i => ?_
  have hbody : Follows Closes (do
      let last ← block g terminators
      emit (.ret last) (← peek)
      closeScope
      return i) :=
    (block_quiet hg terminators).closing fun last => silent_peek.follows.closing fun t =>
      (emit_quiet _ t).closing fun _ => closeScope_closes (.pure i)
  cases bound with
  | none => exact hbody
  | some n => exact (declareAs_quiet n _).closing fun _ => hbody

theorem functionStatements_quiet (hg : g.Quiet) : Follows (QuietAt 2) (functionStatements g) := by
  refine (silent_accept _).before fun _ => .ite ?_ ((block_quiet hg _).bind fun last => ?_)
  · refine silent_previous.before fun equal => silent_skipNewlines.before fun _ => ?_
    exact ((guardedExpression_quiet hg).deeper (Nat.le_succ 1)).bind fun value => emit_quiet _ equal
  · exact (silent_expect _ _).before fun close => emit_quiet _ close

theorem closureBody_quiet (hg : g.Quiet) (h : Header) (selfName : Option Text) (isLambda : Bool) :
    Follows (QuietAt 1) (closureBody g h selfName isLambda) := by
  refine Follows.bind (within_quiet h.name (openScope_quiet fun i => ?_)) fun i => ?_
  · refine (modifyScope_quiet i _).closing fun _ => ?_
    have hend : Follows Closes (do
        let captures := ((← get).opened.head?.map (·.captures)).getD []
        modifyScope i fun s => { s with captures }
        closeScope
        return i) :=
      silent_get.follows.closing fun _ => (modifyScope_quiet i _).closing fun _ => closeScope_closes (.pure i)
    have hbody : Follows Closes (do
        declareParams i h.signature.params
        if isLambda then
          let value ← guardedExpression g
          emit (.ret value) h.token
        else functionStatements g
        let captures := ((← get).opened.head?.map (·.captures)).getD []
        modifyScope i fun s => { s with captures }
        closeScope
        return i) := by
      refine (declareParams_quiet i _).closing fun _ => .ite ?_ ?_
      · refine ((guardedExpression_quiet hg).deeper (Nat.le_succ 1)).closing fun value => ?_
        exact (emit_quiet _ h.token).closing fun _ => hend
      · exact (functionStatements_quiet hg).closing fun _ => hend
    cases selfName with
    | none => exact hbody
    | some n => exact (declareAs_quiet n _).closing fun _ => hbody
  · refine silent_get.before fun _ => Follows.bind (modifyProgram_quiet ?_ ?_) fun _ => .pure _
    · exact fun _ => rfl
    · exact fun _ => rfl

theorem lambda_quiet (hg : g.Quiet) : Follows (QuietAt 1) (lambda g) := by
  refine silent_advance.before fun token => ?_
  refine .ite_bind (silent_parameterList _ _).follows (.pure _) fun params => ?_
  exact (closureBody_quiet hg _ none true).bind fun closure => emitTo_quiet _ token id

theorem pairBody_quiet (hg : g.Quiet) (site : Token) : Follows (QuietAt 1) (pairBody g site) := by
  refine silent_codeSize.before fun start => hg.expression.bind fun key => (silent_accept _).before fun _ => ?_
  refine .ite_bind (silent_skipNewlines.before fun _ => hg.expression) (.pure _) fun entry => ?_
  exact alloc_quiet.bind fun value => (emit_quiet _ site).bind fun _ => guards_quiet hg start value

theorem comprehension_quiet (hg : g.Quiet) (site : Token) (toMap : Bool) :
    Follows (QuietAt 1) (comprehension g site toMap) := by
  refine silent_advance.before fun _ => silent_loopVariables.before fun names => ?_
  refine (silent_expect _ _).before fun _ => hg.expression.bind fun source => ?_
  refine (silent_expect _ _).before fun _ => silent_skipNewlines.before fun _ => openScope_quiet fun body => ?_
  refine (modifyScope_quiet body _).closing fun _ => (declareAll_quiet names).closing fun _ => ?_
  have hend : ∀ value, Follows Closes (do
      emit (.ret value) (← peek)
      closeScope
      skipNewlines
      let out ← alloc
      let _ ← if toMap then expect .rbrace "Expected '\x7d' to close map comprehension"
        else expect .rbracket "Expected ']' to close list comprehension"
      emit (.collect toMap source (some body) out) site
      return out) := by
    refine fun value => silent_peek.follows.closing fun t => (emit_quiet _ t).closing fun _ => ?_
    refine closeScope_closes (silent_skipNewlines.before fun _ => alloc_quiet.bind fun out => ?_)
    refine .ite_bind (silent_expect _ _).follows (silent_expect _ _).follows fun _ => ?_
    exact (emit_quiet _ site).bind fun _ => .pure out
  refine .ite ?_ ?_
  · exact ((pairBody_quiet hg site).deeper (Nat.le_succ 1)).closing hend
  · exact ((guardedExpression_quiet hg).deeper (Nat.le_succ 1)).closing hend

theorem items_quiet (hg : g.Quiet) : Follows (QuietAt 1) (commaSeparated do
    skipNewlines
    g.expression) := .commaSeparated (silent_skipNewlines.before fun _ => hg.expression)

theorem callArguments_quiet (hg : g.Quiet) : Follows (QuietAt 1) (callArguments g) := by
  refine silent_peek.before fun t => .ite ?_ (silent_startsOperand.before fun _ => .ite ?_ (.pure _))
  · refine silent_advance.before fun _ => silent_skipNewlines.before fun _ => ?_
    refine (silent_check _).before fun _ => ?_
    refine .ite_bind (.pure _) (.commaSeparated ?_) fun args => (silent_expect _ _).before fun _ => .pure args
    refine silent_skipNewlines.before fun _ => hg.expression.bind fun r => ?_
    exact silent_skipNewlines.before fun _ => .pure r
  · exact items_quiet hg

theorem loadLiteral_quiet (v : Value) (site : Token) : Follows (QuietAt n) (loadLiteral v site) :=
  emitTo_quiet _ site id

theorem itemsUntil_quiet {α : Type} (close : TokenKind) {item : Compile α} (hi : Follows (QuietAt n) item) :
    Follows (QuietAt n) (itemsUntil close item) := by
  refine Follows.bind (.whileReading (fun items => ?_) []) fun items => .pure _
  refine (silent_check _).before fun _ => .ite (.pure _) (hi.bind fun a => ?_)
  refine silent_skipNewlines.before fun _ => ?_
  exact (silent_accept _).before fun _ => .ite (silent_skipNewlines.before fun _ => .pure _) (.pure _)

theorem listLiteral_quiet (hg : g.Quiet) : Follows (QuietAt 1) (listLiteral g) := by
  refine silent_advance.before fun site => silent_skipNewlines.before fun _ => ?_
  refine (silent_check _).before fun _ => ?_
  refine .ite (comprehension_quiet hg site false) ((itemsUntil_quiet _ hg.expression).bind fun items => ?_)
  exact (silent_expect _ _).before fun _ => emitTo_quiet _ site id

theorem mapEntry_quiet (hg : g.Quiet) : Follows (QuietAt 1) (mapEntry g) := by
  refine silent_peek.before fun t => (silent_peekAt 1).before fun next => ?_
  have hrest : ∀ key, Follows (QuietAt 1) (do
      if ← accept .equal then
        skipNewlines
        return [key, ← g.expression]
      else return [key, key]) := fun key =>
    (silent_accept _).before fun _ => .ite
      (silent_skipNewlines.before fun _ => hg.expression.bind fun _ => .pure _) (.pure _)
  refine .ite (silent_advance.before fun name => ?_) (hg.expression.bind hrest)
  exact (loadLiteral_quiet _ name).bind hrest

theorem mapLiteral_quiet (hg : g.Quiet) : Follows (QuietAt 1) (mapLiteral g) := by
  refine silent_advance.before fun site => silent_skipNewlines.before fun _ => ?_
  refine (silent_check _).before fun _ => ?_
  refine .ite (comprehension_quiet hg site true) ((itemsUntil_quiet _ (mapEntry_quiet hg)).bind fun pairs => ?_)
  exact (silent_expect _ _).before fun _ => emitTo_quiet _ site id

theorem parenthesized_quiet (hg : g.Quiet) : Follows (QuietAt 1) (parenthesized g) := by
  refine silent_advance.before fun _ => silent_skipNewlines.before fun _ => hg.expression.bind fun inner => ?_
  exact silent_skipNewlines.before fun _ => (silent_expect _ _).before fun _ => .pure inner

theorem elseScope_quiet (hg : g.Quiet) : Follows (QuietAt 1) (elseScope g) := by
  refine (silent_accept _).before fun _ => .ite (silent_previous.before fun t => ?_) (.pure _)
  exact (blockScope_quiet hg _ _ t none).bind fun _ => .pure _

theorem ifExpression_quiet (hg : g.Quiet) : Follows (QuietAt 1) (ifExpression g) := by
  refine silent_advance.before fun keyword => hg.expression.bind fun condition => ?_
  refine (blockScope_quiet hg _ _ keyword none).bind fun body => (elseScope_quiet hg).bind fun otherwise => ?_
  refine (silent_expect _ _).before fun _ => alloc_quiet.bind fun out => ?_
  refine .ite_bind (equalityBranch_quiet _ _ _ _ _) (.pure _) fun fused => .ite (.pure out) ?_
  exact (emit_quiet _ keyword).bind fun _ => .pure out

theorem unlessExpression_quiet (hg : g.Quiet) : Follows (QuietAt 1) (unlessExpression g) := by
  refine silent_advance.before fun keyword => hg.expression.bind fun condition => ?_
  refine (blockScope_quiet hg _ _ keyword none).bind fun body => (elseScope_quiet hg).bind fun otherwise => ?_
  refine (silent_expect _ _).before fun _ => alloc_quiet.bind fun out => ?_
  cases otherwise with
  | some other => exact (emit_quiet _ keyword).bind fun _ => .pure out
  | none =>
    refine (equalityBranch_quiet _ _ _ _ _).bind fun fused => .ite (.pure out) ?_
    exact (emit_quiet _ keyword).bind fun _ => .pure out

theorem doExpression_quiet (hg : g.Quiet) : Follows (QuietAt 1) (doExpression g) := by
  refine silent_advance.before fun keyword => (blockScope_quiet hg _ _ keyword none).bind fun body => ?_
  exact (silent_expect _ _).before fun _ => emitTo_quiet _ keyword id

theorem tryBody_quiet (hg : g.Quiet) (keyword : Token) (blockForm : Bool) :
    Follows (QuietAt 1) (tryBody g keyword blockForm) := by
  refine .ite (blockScope_quiet hg _ _ keyword none) (openScope_quiet fun i => ?_)
  refine (hg.expression.deeper (Nat.le_succ 1)).closing fun value => ?_
  exact (emit_quiet _ keyword).closing fun _ => closeScope_closes (.pure i)

theorem tryExpression_quiet (hg : g.Quiet) : Follows (QuietAt 1) (tryExpression g) := by
  refine silent_advance.before fun keyword => (silent_checkAny _).before fun blockForm => ?_
  refine (tryBody_quiet hg keyword blockForm).bind fun body => (silent_accept _).before fun _ => ?_
  let rest (handler : Target × Option Text) : Compile Register := do
    let out ← alloc
    emit (.tryCatch (some body) handler.1 handler.2 out) keyword
    return out
  have hrest : ∀ handler, Follows (QuietAt 1) (rest handler) :=
    fun handler => emitTo_quiet _ keyword id
  refine .ite ?_ (.ite ((silent_expect _ _).before fun _ => .bind (.pure _) hrest) (.bind (.pure _) hrest))
  refine silent_previous.before fun site => (silent_check _).before fun _ => ?_
  have hcatch : ∀ errorName : Option Text, Follows (QuietAt 1) (do
      let handler ← blockScope g "<catch>" [.kwEnd] site errorName
      let _ ← expect .kwEnd "Expected 'end' to close 'catch'"
      let caught ← pure (some handler, errorName)
      rest caught) := fun errorName =>
    (blockScope_quiet hg _ _ site errorName).bind fun handler => (silent_expect _ _).before fun _ =>
      .bind (.pure _) hrest
  exact .ite (silent_advance.before fun t => .bind (.pure _) hcatch) (.bind (.pure _) hcatch)

theorem raiseExpression_quiet (hg : g.Quiet) : Follows (QuietAt 1) (raiseExpression g) :=
  silent_advance.before fun keyword => hg.expression.bind fun _ =>
    (emit_quiet _ keyword).bind fun _ => .pure _

theorem returnExpression_quiet (hg : g.Quiet) : Follows (QuietAt 1) (returnExpression g) := by
  refine silent_advance.before fun keyword => silent_startsOperand.before fun _ => ?_
  exact .ite_bind hg.expression (.pure _) fun value => (emit_quiet _ keyword).bind fun _ => .pure _

theorem identifier_quiet (hg : g.Quiet) : Follows (QuietAt 1) (identifier g) := by
  refine silent_advance.before fun name => (lookup_quiet _).bind fun found => ?_
  cases found with
  | some info =>
    refine alloc_quiet.bind fun out => (emit_quiet _ name).bind fun _ => .ite ?_ (.pure _)
    exact (callArguments_quiet hg).bind fun args => emitTo_quiet _ name fun r => (⟨r, none⟩ : Operand)
  | none =>
    have hcall : Follows (QuietAt 1) (do
        let args ← callArguments g
        let out ← alloc
        emit (.callFunction name.text args out) name
        return (⟨out, none⟩ : Operand)) :=
      (callArguments_quiet hg).bind fun args => emitTo_quiet _ name fun r => (⟨r, none⟩ : Operand)
    refine (silent_check _).before fun _ => (silent_peekAt 1).before fun _ => .ite ?_ hcall
    refine silent_advance.before fun _ => silent_advance.before fun function => ?_
    exact (callArguments_quiet hg).bind fun args => emitTo_quiet _ name fun r => (⟨r, none⟩ : Operand)

theorem plainOperand_quiet {read : Compile Register} (h : Follows (QuietAt n) read) :
    Follows (QuietAt n) (plainOperand read) := h.bind fun _ => .pure _

theorem primary_quiet (hg : g.Quiet) : Follows (QuietAt 1) (primary g) := by
  refine silent_peek.before fun t => ?_
  split
  · refine silent_advance.before fun _ => plainOperand_quiet ((silent_numberLiteral t).before fun n => ?_)
    exact loadLiteral_quiet _ t
  · exact silent_advance.before fun _ => plainOperand_quiet (loadLiteral_quiet _ t)
  · exact silent_advance.before fun _ => plainOperand_quiet (loadLiteral_quiet _ t)
  · exact silent_advance.before fun _ => plainOperand_quiet (loadLiteral_quiet _ t)
  · exact silent_advance.before fun _ => .pure _
  · exact plainOperand_quiet (listLiteral_quiet hg)
  · exact plainOperand_quiet (mapLiteral_quiet hg)
  · exact plainOperand_quiet (parenthesized_quiet hg)
  · exact plainOperand_quiet (ifExpression_quiet hg)
  · exact plainOperand_quiet (unlessExpression_quiet hg)
  · exact plainOperand_quiet (doExpression_quiet hg)
  · exact plainOperand_quiet (tryExpression_quiet hg)
  · exact plainOperand_quiet (raiseExpression_quiet hg)
  · exact plainOperand_quiet (returnExpression_quiet hg)
  · exact plainOperand_quiet (lambda_quiet hg)
  · exact plainOperand_quiet (lambda_quiet hg)
  · exact identifier_quiet hg
  · exact (silent_fail _ t).follows
  · exact (silent_fail _ t).follows

theorem methodCall_quiet (hg : g.Quiet) (target : Operand) : Follows (QuietAt 1) (methodCall g target) := by
  refine silent_advance.before fun dot => (silent_expect _ _).before fun method => ?_
  exact (callArguments_quiet hg).bind fun args => emitTo_quiet _ dot fun r => (⟨r, none⟩ : Operand)

theorem indexing_quiet (hg : g.Quiet) (target : Operand) : Follows (QuietAt 1) (indexing g target) := by
  refine silent_advance.before fun site => silent_skipNewlines.before fun _ => hg.expression.bind fun index => ?_
  refine silent_skipNewlines.before fun _ => (silent_expect _ _).before fun _ => ?_
  exact emitTo_quiet _ site fun r => (⟨r, none⟩ : Operand)

theorem valueCall_quiet (hg : g.Quiet) (target : Operand) : Follows (QuietAt 1) (valueCall g target) :=
  silent_peek.before fun site => (callArguments_quiet hg).bind fun _ =>
    emitTo_quiet _ site fun r => (⟨r, none⟩ : Operand)

theorem suffixes_quiet (hg : g.Quiet) (target : Operand) : Follows (QuietAt 1) (suffixes g target) := by
  refine .whileReading (fun target => silent_peek.before fun t => ?_) target
  refine .ite ((methodCall_quiet hg target).bind fun _ => .pure _) ?_
  refine .ite ((indexing_quiet hg target).bind fun _ => .pure _) ?_
  refine .ite ((valueCall_quiet hg target).bind fun _ => .pure _) ?_
  refine (silent_peekAt 1).before fun next => .ite ?_ (.pure _)
  refine silent_advance.before fun bang => silent_advance.before fun _ => ?_
  exact (emit_quiet _ bang).bind fun _ => .pure _

theorem operand_quiet (hg : g.Quiet) : Follows (QuietAt 1) (operand g) := by
  refine silent_peek.before fun t => (silent_peekAt 1).before fun next => .ite ?_ ?_
  · refine silent_advance.before fun _ => silent_advance.before fun number => ?_
    refine (silent_numberLiteral number).before fun n => (loadLiteral_quiet _ t).bind fun literal => ?_
    exact (suffixes_quiet hg _).bind fun _ => .pure _
  split
  · exact silent_advance.before fun _ => hg.operand.bind fun inner => emitTo_quiet _ t id
  · exact (primary_quiet hg).bind fun target => (suffixes_quiet hg target).bind fun _ => .pure _

theorem operatorStep_quiet (hg : g.Quiet) (left : Register) :
    Follows (QuietAt 1) (operatorStep g left) := by
  refine silent_peek.before fun t => ?_
  split
  · refine silent_advance.before fun _ => silent_typeName.before fun type => ?_
    exact emitTo_quiet _ t fun out => (out, true)
  · refine silent_advance.before fun _ => hg.operand.bind fun stop => ?_
    exact emitTo_quiet _ t fun out => (out, true)
  · refine silent_advance.before fun _ => hg.operand.bind fun stop => ?_
    exact emitTo_quiet _ t fun out => (out, true)
  · split
    · refine silent_advance.before fun _ => silent_skipNewlines.before fun _ => hg.operand.bind fun right => ?_
      exact emitTo_quiet _ t fun out => (out, true)
    · exact .pure _

theorem expression_quiet (hg : g.Quiet) : Follows (QuietAt 1) (expression g) :=
  hg.operand.bind fun left => .whileReading (operatorStep_quiet hg) left

theorem functionBody_quiet (hg : g.Quiet) (h : Header) : Follows (QuietAt 1) (functionBody g h) := by
  refine within_quiet h.qualifiedName (openScope_quiet fun i => (declareParams_quiet i _).closing fun _ => ?_)
  have hbody : Follows Closes (do
      functionStatements g
      closeScope
      return i) := (functionStatements_quiet hg).closing fun _ => closeScope_closes (.pure i)
  exact .ite ((declareAs_quiet _ _).closing fun _ => hbody) hbody

theorem nestedFunction_quiet (hg : g.Quiet) : Follows (QuietAt 1) (nestedFunction g) := by
  refine (silent_header [] none).before fun h => .ite (silent_fail _ _).follows ?_
  refine (closureBody_quiet hg h _ false).bind fun closure => alloc_quiet.bind fun out => ?_
  refine (emit_quiet _ h.token).bind fun _ => (emit_quiet _ h.token).bind fun _ => ?_
  exact (declareAs_quiet _ _).bind fun _ => .pure _

theorem binding_quiet (hg : g.Quiet) (isMutable : Bool) : Follows (QuietAt 1) (binding g isMutable) := by
  refine silent_advance.before fun keyword => (silent_expect _ _).before fun name => ?_
  refine (silent_expect _ _).before fun _ => (guardedExpression_quiet hg).bind fun value => ?_
  exact (emit_quiet _ keyword).bind fun _ => (declareAs_quiet _ _).bind fun _ => .pure value

theorem assignment_quiet (hg : g.Quiet) : Follows (QuietAt 1) (assignment g) := by
  refine silent_advance.before fun name => silent_advance.before fun _ => (lookup_quiet _).bind fun found => ?_
  cases found with
  | some info =>
    refine .ite (silent_fail _ name).follows ((guardedExpression_quiet hg).bind fun value => ?_)
    exact (emit_quiet _ name).bind fun _ => .pure value
  | none =>
    refine (guardedExpression_quiet hg).bind fun value => (emit_quiet _ name).bind fun _ => ?_
    exact (declareAs_quiet _ _).bind fun _ => .pure value

theorem compoundAssignment_quiet (hg : g.Quiet) (op : BinaryOp) :
    Follows (QuietAt 1) (compoundAssignment g op) := by
  refine silent_advance.before fun name => silent_advance.before fun sign => ?_
  refine (lookup_quiet _).bind fun found => ?_
  cases found with
  | none => exact (silent_fail _ name).follows
  | some info =>
    refine .ite (silent_fail _ name).follows (alloc_quiet.bind fun current => ?_)
    refine (emit_quiet _ name).bind fun _ => (guardedExpression_quiet hg).bind fun right => ?_
    refine alloc_quiet.bind fun out => (emit_quiet _ sign).bind fun _ => ?_
    exact (emit_quiet _ name).bind fun _ => .pure out

theorem putsStatement_quiet (hg : g.Quiet) (keyword : Token) :
    Follows (QuietAt 1) (putsStatement g keyword) := by
  refine silent_startsOperand.before fun _ => .ite_bind (items_quiet hg) (.pure _) fun values => ?_
  exact (emit_quiet _ keyword).bind fun _ => .pure _

theorem logStatement_quiet (hg : g.Quiet) (keyword : Token) :
    Follows (QuietAt 1) (logStatement g keyword) := by
  refine (silent_expect _ _).before fun levelToken => ?_
  split
  · exact (silent_fail _ levelToken).follows
  refine (silent_expect _ _).before fun _ => (silent_expect _ _).before fun template => ?_
  refine (silent_accept _).before fun _ => .ite_bind (items_quiet hg) (.pure _) fun values => ?_
  exact (emit_quiet _ keyword).bind fun _ => .pure _

theorem simpleStatement_quiet (hg : g.Quiet) : Follows (QuietAt 1) (simpleStatement g) := by
  refine silent_peek.before fun t => silent_codeSize.before fun start => ?_
  refine (silent_accept _).before fun _ => .ite ?_ ((silent_accept _).before fun _ => .ite ?_ ?_)
  · exact (putsStatement_quiet hg t).bind fun value => guards_quiet hg start value
  · exact (logStatement_quiet hg t).bind fun value => guards_quiet hg start value
  · exact hg.expression.bind fun value => guards_quiet hg start value

theorem atTopLevel_eq (d : Draft) : atTopLevel d = .ok (decide (d.opened.length = 1)) d := rfl

theorem post_of_top {α : Type} {x : Compile α} (h : d.opened.length = 1) :
    Post x d' fun _ d'' => QuietAt 2 d d'' :=
  Ensures.intro (fun _ _ _ hd => by omega) fun _ _ _ => trivial

theorem topLevel_quiet (site : Token) (what : Text) (declaration : Compile Unit) :
    Follows (QuietAt 2) (topLevel site what declaration) := by
  intro d
  refine Ensures.bind (R := fun _ _ => d.opened.length = 1) ?_ fun _ d₁ htop => post_of_top htop
  refine Ensures.run (atTopLevel_eq d) ?_
  split
  · exact Ensures.pure (of_decide_eq_true ‹_›)
  · exact trivial

theorem statement_quiet (hg : g.Quiet) : Follows (QuietAt 2) (statement g) := by
  refine silent_peek.before fun t => ?_
  split
  · exact (binding_quiet hg false).deeper (Nat.le_succ 1)
  · exact (binding_quiet hg true).deeper (Nat.le_succ 1)
  · refine fun d => Ensures.run (atTopLevel_eq d) ?_
    split
    · exact post_of_top (of_decide_eq_true ‹_›)
    · exact (nestedFunction_quiet hg).deeper (Nat.le_succ 1) d
  · exact topLevel_quiet _ _ _
  · exact topLevel_quiet _ _ _
  · exact topLevel_quiet _ _ _
  · exact topLevel_quiet _ _ _
  · exact topLevel_quiet _ _ _
  · refine (silent_peekAt 1).before fun next => .ite ((assignment_quiet hg).deeper (Nat.le_succ 1)) ?_
    split
    · exact (compoundAssignment_quiet hg _).deeper (Nat.le_succ 1)
    · exact (simpleStatement_quiet hg).deeper (Nat.le_succ 1)
  · exact (simpleStatement_quiet hg).deeper (Nat.le_succ 1)

theorem grammar_quiet (depth : Nat) : (grammar depth).Quiet := by
  induction depth with
  | zero => exact ⟨.throw _, .throw _, .throw _⟩
  | succ depth ih => exact ⟨expression_quiet ih, operand_quiet ih, statement_quiet ih⟩

end Compile

end ScriptMachine
