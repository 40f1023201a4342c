import ScriptMachine.Proofs.Compiler.Progress

set_option autoImplicit false

namespace ScriptMachine

/-- Where fewer than `n` tokens are ahead, the recursive parts end, and they read a token. -/
structure Grammar.Settled (n : Nat) (g : Grammar) : Prop where
  expression : Compile.Consumes n g.expression
  operand : Compile.Consumes n g.operand
  statement : Compile.Consumes n g.statement

namespace Compile

variable {g : Grammar} {n : Nat} {t : Token}

theorem looks_startsOperand : Looks startsOperand := by
  refine looks_peek.bind fun t => ?_
  split <;> first | exact .pure _ | exact (looks_peekAt 1).bind fun _ => .pure _

/-- An expression that may start on a later line. -/
def lineItem (g : Grammar) : Compile Register := do
  skipNewlines
  g.expression

/-- An argument in parentheses. -/
def argumentItem (g : Grammar) : Compile Register := do
  skipNewlines
  let r ← g.expression
  skipNewlines
  return r

def parenthesizedArguments (g : Grammar) : Compile (List Register) := do
  let _ ← advance
  skipNewlines
  let args ← if ← check .rparen then pure [] else commaSeparated (argumentItem g)
  let _ ← expect .rparen "Expected ')' after arguments"
  return args

theorem callArguments_eq (g : Grammar) : callArguments g = (do
    let t ← peek
    if t.kind = .lparen && !t.spaceBefore then parenthesizedArguments g
    else if ← startsOperand then commaSeparated (lineItem g)
    else return []) := rfl

theorem lineItem_ends (hg : g.Settled n) : Ends n (lineItem g) :=
  .bind skipNewlines_ends fun _ => hg.expression.ends

theorem argumentItem_ends (hg : g.Settled n) : Ends n (argumentItem g) :=
  .bind skipNewlines_ends fun _ => .bind hg.expression fun r => .bind skipNewlines_ends fun _ => .done r

theorem parenthesizedArguments_consumes (hg : g.Settled n) (ht : t.kind = .lparen) :
    Advances n (· = t) (fun _ => True) (parenthesizedArguments g) := by
  have hfinish : t.kind ≠ .finish := by simp [ht]
  refine (advance_known hfinish).reading fun _ => .bind skipNewlines_ends fun _ => ?_
  have hrest : ∀ args : List Register, Ends n (do
      let _ ← expect .rparen "Expected ')' after arguments"
      return args) := fun args => .bind (expect_consumes (by decide) _) fun _ => .done args
  refine .look (looks_check _) fun empty => .ite (.look (.pure _) hrest) ?_
  exact .bind (commaSeparated_ends (argumentItem_ends hg)) hrest

theorem callArguments_ends (hg : g.Settled n) : Ends n (callArguments g) := by
  rw [callArguments_eq]
  refine .peek fun t _ => ?_
  split
  · rename_i h
    have hkind : t.kind = .lparen := by simpa using (Bool.and_eq_true_iff.1 h).1
    exact (parenthesizedArguments_consumes hg hkind).ends
  · refine .look looks_startsOperand fun b => .ite ?_ (.done [])
    exact (commaSeparated_ends (lineItem_ends hg)).anywhere

theorem callArguments_consumes (hg : g.Settled n) (ht : t.kind = .lparen) (hspace : t.spaceBefore = false) :
    Advances n (· = t) (fun _ => True) (callArguments g) := by
  rw [callArguments_eq]
  refine .peek fun t' h => ?_
  subst t'
  rw [if_pos (by simp [ht, hspace])]
  exact parenthesizedArguments_consumes hg ht

/-- A statement with the separators behind it, unless the block ends. -/
def blockRound (g : Grammar) (terminators : List TokenKind) (last : Register) : Compile (Register × Bool) := do
  if ← checkAny (.finish :: terminators) then return (last, false)
  else
    let last ← g.statement
    endStatement
    skipSeparators
    return (last, true)

theorem block_eq (g : Grammar) (terminators : List TokenKind) : block g terminators = (do
    skipSeparators
    whileReading noneRegister (blockRound g terminators)) := rfl

theorem blockRound_rounds (hg : g.Settled n) (terminators : List TokenKind) :
    Rounds n (blockRound g terminators) := by
  refine fun last => .look (looks_checkAny _) fun b => .ite (.pure Bool.false_ne_true) ?_
  refine hg.statement.reading fun last => .bind endStatement_ends fun _ => ?_
  exact .bind skipSeparators_ends fun _ => .done _

theorem block_ends (hg : g.Settled n) (terminators : List TokenKind) : Ends n (block g terminators) := by
  rw [block_eq]
  exact .bind skipSeparators_ends fun _ => whileReading_ends (blockRound_rounds hg terminators) _

theorem blockScope_ends (hg : g.Settled n) (name : Text) (terminators : List TokenKind) (site : Token)
    (bound : Option Text) : Ends n (blockScope g name terminators site bound) := by
  refine .look (looks_openScope _ _ _ _ _) fun scope => ?_
  have hbody : Ends n (do
      let last ← block g terminators
      emit (.ret last) (← peek)
      closeScope
      return scope) :=
    .bind (block_ends hg terminators) fun last => .look looks_peek fun t => .look (looks_emit _ t) fun _ =>
      .look looks_closeScope fun _ => .done scope
  cases bound with
  | none => exact hbody
  | some name => exact .look (looks_declare name false) fun _ => hbody

theorem looks_equalityBranch (condition : Register) (truth : Bool) (scope : Nat) (out : Register)
    (site : Token) : Looks (equalityBranch condition truth scope out site) := by
  refine looks_currentScope.bind fun i => (looks_scopeAt i).bind fun s => ?_
  split
  · refine .ite ((looks_modifyScope i _).bind fun _ => ?_) (.pure _)
    exact (looks_emit _ site).bind fun _ => (looks_emit _ site).bind fun _ => .pure _
  · exact .pure _

theorem applyGuard_consumes (hg : g.Settled n) (start : Nat) (value : Register) :
    Consumes n (applyGuard g start value) := by
  refine .bind advance_ends fun keyword => .look looks_currentScope fun source => ?_
  refine .look (looks_addScope _ _ keyword) fun guarded => .look (looks_scopeAt source) fun s => ?_
  refine .look (looks_modifyScope guarded _) fun _ => .look (looks_modifyScope source _) fun _ => ?_
  refine hg.expression.reading fun condition => .look looks_alloc fun out => ?_
  refine .look (looks_equalityBranch _ _ _ _ _) fun fused => .ite (.done out) ?_
  exact .look (looks_emit _ keyword) fun _ => .done out

/-- A trailing condition, if there is one. -/
def guardRound (g : Grammar) (start : Nat) (value : Register) : Compile (Register × Bool) := do
  if ← checkAny [.kwIf, .kwUnless] then return (← applyGuard g start value, true)
  else return (value, false)

theorem guards_eq (g : Grammar) (start : Nat) (value : Register) :
    guards g start value = whileReading value (guardRound g start) := rfl

theorem guardRound_rounds (hg : g.Settled n) (start : Nat) : Rounds n (guardRound g start) := fun value =>
  .look (looks_checkAny _) fun _ =>
    .ite ((applyGuard_consumes hg start value).reading fun _ => .done _) (.pure Bool.false_ne_true)

theorem guards_ends (hg : g.Settled n) (start : Nat) (value : Register) : Ends n (guards g start value) := by
  rw [guards_eq]
  exact whileReading_ends (guardRound_rounds hg start) value

theorem guardedExpression_consumes (hg : g.Settled n) : Consumes n (guardedExpression g) :=
  .look looks_codeSize fun start => hg.expression.reading fun value => guards_ends hg start value

theorem functionStatements_ends (hg : g.Settled n) : Ends n (functionStatements g) := by
  refine .accept (by decide) (.look looks_previous fun equal => .bind skipNewlines_ends fun _ => ?_) ?_
  · exact .bind (guardedExpression_consumes hg) fun value => .of_looks (looks_emit _ equal) fun _ => id
  · refine .bind (block_ends hg _) fun last => .bind (expect_consumes (by decide) _) fun close => ?_
    exact .of_looks (looks_emit _ close) fun _ => id

theorem closureBody_ends (hg : g.Settled n) (h : Header) (selfName : Option Text) (isLambda : Bool) :
    Ends n (closureBody g h selfName isLambda) := by
  refine .bind (within_ends h.name (.look (looks_openScope _ _ _ _ _) fun scope => ?_)) fun scope => ?_
  · refine .look (looks_modifyScope scope _) fun _ => ?_
    have hend : Ends n (do
        let captures := ((← get).opened.head?.map (·.captures)).getD []
        modifyScope scope fun s => { s with captures }
        closeScope
        return scope) :=
      .look .get fun _ => .look (looks_modifyScope scope _) fun _ => .look looks_closeScope fun _ => .done scope
    have hbody : Ends n (do
        declareParams scope h.signature.params
        if isLambda then
          let value ← guardedExpression g
          emit (.ret value) h.token
        else functionStatements g
        let captures := ((← get).opened.head?.map (·.captures)).getD []
        modifyScope scope fun s => { s with captures }
        closeScope
        return scope) := by
      refine .look (looks_declareParams scope _) fun _ => .ite ?_ ?_
      · exact .bind (guardedExpression_consumes hg) fun value => .look (looks_emit _ h.token) fun _ => hend
      · exact .bind (functionStatements_ends hg) fun _ => hend
    cases selfName with
    | none => exact hbody
    | some name => exact .look (looks_declareAs name _) fun _ => hbody
  · exact .look .get fun _ => .look (looks_modifyProgram _) fun _ => .done _

theorem lambda_consumes (hg : g.Settled n) (ht : t.kind ≠ .finish) :
    Advances (n + 1) (· = t) (fun _ => True) (lambda g) := by
  refine (advance_known ht).consume fun token => ?_
  have hrest : ∀ params : List Parameter, Ends n (do
      let h : Header := ⟨token, "<lambda>", ⟨params, .any, none, false⟩, []⟩
      let closure ← closureBody g h none true
      let out ← alloc
      emit (.makeClosure closure out) token
      return out) := fun params =>
    .bind (closureBody_ends hg _ none true) fun closure => emitTo_ends _ token id
  exact .ite (.bind (parameterList_ends (by decide) _) hrest) (.look (.pure _) hrest)

theorem loopVariables_ends : Ends n loopVariables := by
  refine .bind (expect_consumes (by decide) _) fun first => .accept (by decide) ?_ (.done _)
  exact .bind (expect_consumes (by decide) _) fun second => .ite (.fail _ second) (.done _)

theorem pairBody_ends (hg : g.Settled n) (site : Token) : Ends n (pairBody g site) := by
  refine .look looks_codeSize fun start => .bind hg.expression fun key => ?_
  have hrest : ∀ entry, Ends n (do
      let value ← alloc
      emit (.makeList [key, entry] value) site
      guards g start value) := fun entry =>
    .look looks_alloc fun value => .look (looks_emit _ site) fun _ => guards_ends hg start value
  refine .accept (by decide) (.bind skipNewlines_ends fun _ => ?_) (.look (.pure _) hrest)
  exact .bind hg.expression hrest

theorem comprehension_ends (hg : g.Settled n) (site : Token) (toMap : Bool) :
    Ends n (comprehension g site toMap) := by
  refine .bind advance_ends fun _ => .bind loopVariables_ends fun names => ?_
  refine .bind (expect_consumes (by decide) _) fun _ => .bind hg.expression fun source => ?_
  refine .bind (expect_consumes (by decide) _) fun _ => .bind skipNewlines_ends fun _ => ?_
  refine .look (looks_openScope _ _ _ _ _) fun body => .look (looks_modifyScope body _) fun _ => ?_
  refine .look (looks_forM (fun name => looks_declare name false) names) fun _ => ?_
  have hend : ∀ value, Ends n (do
      emit (.ret value) (← peek)
      closeScope
      skipNewlines
      let out ← alloc
      let _ ← if toMap then expect .rbrace "Expected '\x7d' to close map comprehension"
        else expect .rbracket "Expected ']' to close list comprehension"
      emit (.collect toMap source (some body) out) site
      return out) := by
    refine fun value => .look looks_peek fun t => .look (looks_emit _ t) fun _ => ?_
    refine .look looks_closeScope fun _ => .bind skipNewlines_ends fun _ => .look looks_alloc fun out => ?_
    have hlast : ∀ _ : Token, Ends n (do
        emit (.collect toMap source (some body) out) site
        return out) := fun _ => .look (looks_emit _ site) fun _ => .done out
    exact .ite (.bind (expect_consumes (by decide) _) hlast) (.bind (expect_consumes (by decide) _) hlast)
  exact .ite (.bind (pairBody_ends hg site) hend) (.bind (guardedExpression_consumes hg) hend)

/-- An item and a comma, if one follows, unless the closing token is next. -/
def itemRound {α : Type} (close : TokenKind) (item : Compile α) (items : List α) : Compile (List α × Bool) := do
  if ← check close then return (items, false)
  else
    let a ← item
    skipNewlines
    if ← accept .comma then
      skipNewlines
      return (a :: items, true)
    else return (a :: items, false)

theorem itemsUntil_eq {α : Type} (close : TokenKind) (item : Compile α) : itemsUntil close item = (do
    let items ← whileReading ([] : List α) (itemRound close item)
    return items.reverse) := rfl

theorem itemRound_rounds {α : Type} (close : TokenKind) {item : Compile α} (hi : Ends n item) :
    Rounds n (itemRound close item) := by
  refine fun items => .look (looks_check _) fun _ => .ite (.pure Bool.false_ne_true) (.bind hi fun a => ?_)
  refine .bind skipNewlines_ends fun _ => .accept (by decide) ?_ (.pure Bool.false_ne_true)
  exact .bind skipNewlines_ends fun _ => .done _

theorem itemsUntil_ends {α : Type} (close : TokenKind) {item : Compile α} (hi : Ends n item) :
    Ends n (itemsUntil close item) := by
  rw [itemsUntil_eq]
  exact .bind (whileReading_ends (itemRound_rounds close hi) []) fun _ => .done _

theorem listLiteral_consumes (hg : g.Settled n) (ht : t.kind ≠ .finish) :
    Advances (n + 1) (· = t) (fun _ => True) (listLiteral g) := by
  refine (advance_known ht).consume fun site => .bind skipNewlines_ends fun _ => ?_
  refine .look (looks_check _) fun _ => .ite (comprehension_ends hg site false)
    (.bind (itemsUntil_ends _ hg.expression.ends) fun items => ?_)
  exact .bind (expect_consumes (by decide) _) fun _ => emitTo_ends _ site id

theorem looks_loadLiteral (v : Value) (site : Token) : Looks (loadLiteral v site) := looks_emitTo _ site id

theorem mapEntry_ends (hg : g.Settled n) : Ends n (mapEntry g) := by
  refine .look looks_peek fun t => .look (looks_peekAt 1) fun next => ?_
  have hrest : ∀ key, Ends n (do
      if ← accept .equal then
        skipNewlines
        return [key, ← g.expression]
      else return [key, key]) := fun key =>
    .accept (by decide) (.bind skipNewlines_ends fun _ => .bind hg.expression fun _ => .done _) (.done _)
  refine .ite (.bind advance_ends fun name => ?_) (.bind hg.expression hrest)
  exact .look (looks_loadLiteral _ name) hrest

theorem mapLiteral_consumes (hg : g.Settled n) (ht : t.kind ≠ .finish) :
    Advances (n + 1) (· = t) (fun _ => True) (mapLiteral g) := by
  refine (advance_known ht).consume fun site => .bind skipNewlines_ends fun _ => ?_
  refine .look (looks_check _) fun _ => .ite (comprehension_ends hg site true)
    (.bind (itemsUntil_ends _ (mapEntry_ends hg)) fun pairs => ?_)
  exact .bind (expect_consumes (by decide) _) fun _ => emitTo_ends _ site id

theorem parenthesized_consumes (hg : g.Settled n) (ht : t.kind ≠ .finish) :
    Advances (n + 1) (· = t) (fun _ => True) (parenthesized g) := by
  refine (advance_known ht).consume fun _ => .bind skipNewlines_ends fun _ => ?_
  refine .bind hg.expression fun inner => ?_
  exact .bind skipNewlines_ends fun _ => .bind (expect_consumes (by decide) _) fun _ => .done inner

theorem elseScope_ends (hg : g.Settled n) : Ends n (elseScope g) := by
  refine .accept (by decide) (.look looks_previous fun t => ?_) (.done none)
  exact .bind (blockScope_ends hg _ _ t none) fun _ => .done _

theorem ifExpression_consumes (hg : g.Settled n) (ht : t.kind ≠ .finish) :
    Advances (n + 1) (· = t) (fun _ => True) (ifExpression g) := by
  refine (advance_known ht).consume fun keyword => .bind hg.expression fun condition => ?_
  refine .bind (blockScope_ends hg _ _ keyword none) fun body => .bind (elseScope_ends hg) fun otherwise => ?_
  refine .bind (expect_consumes (by decide) _) fun _ => .look looks_alloc fun out => ?_
  have hrest : ∀ fused : Bool, Ends n (if fused then return out else do
      emit (.ifElse condition (some body) otherwise out) keyword
      return out) := fun fused => .ite (.done out) (.look (looks_emit _ keyword) fun _ => .done out)
  exact .ite (.look (looks_equalityBranch _ _ _ _ _) hrest) (.look (.pure _) hrest)

theorem unlessExpression_consumes (hg : g.Settled n) (ht : t.kind ≠ .finish) :
    Advances (n + 1) (· = t) (fun _ => True) (unlessExpression g) := by
  refine (advance_known ht).consume fun keyword => .bind hg.expression fun condition => ?_
  refine .bind (blockScope_ends hg _ _ keyword none) fun body => .bind (elseScope_ends hg) fun otherwise => ?_
  refine .bind (expect_consumes (by decide) _) fun _ => .look looks_alloc fun out => ?_
  cases otherwise with
  | some other => exact .look (looks_emit _ keyword) fun _ => .done out
  | none =>
    refine .look (looks_equalityBranch _ _ _ _ _) fun fused => .ite (.done out) ?_
    exact .look (looks_emit _ keyword) fun _ => .done out

theorem doExpression_consumes (hg : g.Settled n) (ht : t.kind ≠ .finish) :
    Advances (n + 1) (· = t) (fun _ => True) (doExpression g) := by
  refine (advance_known ht).consume fun keyword => .bind (blockScope_ends hg _ _ keyword none) fun body => ?_
  exact .bind (expect_consumes (by decide) _) fun _ => emitTo_ends _ keyword id

theorem tryBody_ends (hg : g.Settled n) (keyword : Token) (blockForm : Bool) :
    Ends n (tryBody g keyword blockForm) := by
  refine .ite (blockScope_ends hg _ _ keyword none) (.look (looks_openScope _ _ _ _ _) fun body => ?_)
  refine .bind hg.expression fun value => .look (looks_emit _ keyword) fun _ => ?_
  exact .look looks_closeScope fun _ => .done body

theorem tryExpression_consumes (hg : g.Settled n) (ht : t.kind ≠ .finish) :
    Advances (n + 1) (· = t) (fun _ => True) (tryExpression g) := by
  refine (advance_known ht).consume fun keyword => .look (looks_checkAny _) fun blockForm => ?_
  refine .bind (tryBody_ends hg keyword blockForm) fun body => ?_
  let rest (handler : Target × Option Text) : Compile Register := do
    let out ← alloc
    emit (.tryCatch (some body) handler.1 handler.2 out) keyword
    return out
  have hrest : ∀ handler, Ends n (rest handler) := fun handler =>
    emitTo_ends _ keyword id
  have hplain : ∀ handler, Ends n (pure handler >>= rest) := fun handler => .look (.pure handler) hrest
  refine .accept (by decide) ?_ (.ite (.bind (expect_consumes (by decide) _) fun _ => hplain _) (hplain _))
  refine .look looks_previous fun site => .look (looks_check _) fun _ => ?_
  have hcatch : ∀ errorName : Option Text, Ends n (do
      let handler ← blockScope g "<catch>" [.kwEnd] site errorName
      let _ ← expect .kwEnd "Expected 'end' to close 'catch'"
      let caught ← pure (some handler, errorName)
      rest caught) := fun errorName =>
    .bind (blockScope_ends hg _ _ site errorName) fun handler =>
      .bind (expect_consumes (by decide) _) fun _ => hplain _
  exact .ite (.bind advance_ends fun t => .look (.pure _) hcatch) (.look (.pure _) hcatch)

theorem raiseExpression_consumes (hg : g.Settled n) (ht : t.kind ≠ .finish) :
    Advances (n + 1) (· = t) (fun _ => True) (raiseExpression g) :=
  (advance_known ht).consume fun keyword => .bind hg.expression fun _ =>
    .look (looks_emit _ keyword) fun _ => .done _

theorem returnExpression_consumes (hg : g.Settled n) (ht : t.kind ≠ .finish) :
    Advances (n + 1) (· = t) (fun _ => True) (returnExpression g) := by
  refine (advance_known ht).consume fun keyword => .look looks_startsOperand fun _ => ?_
  have hrest : ∀ value, Ends n (do
      emit (.leave value) keyword
      return noneRegister) := fun value => .look (looks_emit _ keyword) fun _ => .done _
  exact .ite (.bind hg.expression hrest) (.look (.pure _) hrest)

theorem identifier_consumes (hg : g.Settled n) (ht : t.kind ≠ .finish) :
    Advances (n + 1) (· = t) (fun _ => True) (identifier g) := by
  refine (advance_known ht).consume fun name => .look (looks_lookup _) fun found => ?_
  cases found with
  | some info =>
    refine .look looks_alloc fun out => .look (looks_emit _ name) fun _ => .ite ?_ (.done _)
    refine .bind (callArguments_ends hg) fun args => ?_
    exact emitTo_ends _ name fun r => (⟨r, none⟩ : Operand)
  | none =>
    have hcall : Ends n (do
        let args ← callArguments g
        let out ← alloc
        emit (.callFunction name.text args out) name
        return (⟨out, none⟩ : Operand)) :=
      .bind (callArguments_ends hg) fun args =>
        emitTo_ends _ name fun r => (⟨r, none⟩ : Operand)
    refine .look (looks_check _) fun _ => .look (looks_peekAt 1) fun _ => .ite ?_ hcall
    refine .bind advance_ends fun _ => .bind advance_ends fun function => ?_
    refine .bind (callArguments_ends hg) fun args => ?_
    exact emitTo_ends _ name fun r => (⟨r, none⟩ : Operand)

theorem plainOperand_consumes {read : Compile Register} {P : Token → Prop}
    (h : Advances n P (fun _ => True) read) : Advances n P (fun _ => True) (plainOperand read) :=
  h.bind_pure fun _ => id

theorem primary_consumes (hg : g.Settled n) : Consumes (n + 1) (primary g) := by
  refine .peek fun t _ => ?_
  have hliteral (v : Value) : Ends n (plainOperand (loadLiteral v t)) :=
    .look (looks_loadLiteral v t) fun _ => .done _
  split <;> rename_i hkind
  all_goals try have ht : t.kind ≠ .finish := by simp [hkind]
  · have hnumber : Looks (do loadLiteral (.num (← numberLiteral t)) t) :=
      (looks_numberLiteral t).bind fun _ => looks_loadLiteral _ t
    exact (advance_known ht).consume fun _ => .look hnumber fun _ => .done _
  · exact (advance_known ht).consume fun _ => hliteral _
  · exact (advance_known ht).consume fun _ => hliteral _
  · exact (advance_known ht).consume fun _ => hliteral _
  · exact (advance_known ht).consume fun _ => .done _
  · exact plainOperand_consumes (listLiteral_consumes hg ht)
  · exact plainOperand_consumes (mapLiteral_consumes hg ht)
  · exact plainOperand_consumes (parenthesized_consumes hg ht)
  · exact plainOperand_consumes (ifExpression_consumes hg ht)
  · exact plainOperand_consumes (unlessExpression_consumes hg ht)
  · exact plainOperand_consumes (doExpression_consumes hg ht)
  · exact plainOperand_consumes (tryExpression_consumes hg ht)
  · exact plainOperand_consumes (raiseExpression_consumes hg ht)
  · exact plainOperand_consumes (returnExpression_consumes hg ht)
  · exact plainOperand_consumes (lambda_consumes hg ht)
  · exact plainOperand_consumes (lambda_consumes hg ht)
  · exact identifier_consumes hg ht
  · exact .fail _ t
  · exact .fail _ t

theorem methodCall_consumes (hg : g.Settled n) (target : Operand) : Consumes n (methodCall g target) := by
  refine .bind advance_ends fun dot => (expect_consumes (by decide) _).reading fun method => ?_
  refine .bind (callArguments_ends hg) fun args => ?_
  exact emitTo_ends _ dot fun r => (⟨r, none⟩ : Operand)

theorem indexing_consumes (hg : g.Settled n) (target : Operand) : Consumes n (indexing g target) := by
  refine .bind advance_ends fun site => .bind skipNewlines_ends fun _ => hg.expression.reading fun index => ?_
  refine .bind skipNewlines_ends fun _ => .bind (expect_consumes (by decide) _) fun _ => ?_
  exact emitTo_ends _ site fun r => (⟨r, none⟩ : Operand)

theorem valueCall_consumes (hg : g.Settled n) (target : Operand) (ht : t.kind = .lparen)
    (hspace : t.spaceBefore = false) : Advances n (· = t) (fun _ => True) (valueCall g target) := by
  refine .look looks_peek fun site => (callArguments_consumes hg ht hspace).reading fun args => ?_
  exact emitTo_ends _ site fun r => (⟨r, none⟩ : Operand)

/-- One thing that follows a value without a blank, if there is one. -/
def suffixRound (g : Grammar) (target : Operand) : Compile (Operand × Bool) := do
  let t ← peek
  if t.kind = .dot then return (← methodCall g target, true)
  else if t.kind = .lbracket && !t.spaceBefore then return (← indexing g target, true)
  else if t.kind = .lparen && !t.spaceBefore then return (← valueCall g target, true)
  else
    let next ← peekAt 1
    if t.kind = .bang && !t.spaceBefore && next.kind = .bang && !next.spaceBefore then
      let bang ← advance
      let _ ← advance
      emit (.haltIfError target.register) bang
      return (target, true)
    else return (target, false)

theorem suffixes_eq (g : Grammar) (target : Operand) :
    suffixes g target = whileReading target (suffixRound g) := rfl

theorem suffixRound_rounds (hg : g.Settled n) : Rounds n (suffixRound g) := by
  refine fun target => .peek fun t _ => ?_
  split
  · exact (methodCall_consumes hg target).anywhere.bind_pure fun _ _ => trivial
  split
  · exact (indexing_consumes hg target).anywhere.bind_pure fun _ _ => trivial
  split
  · rename_i hcall
    have hboth : t.kind = .lparen ∧ t.spaceBefore = false := by simpa using hcall
    exact (valueCall_consumes hg target hboth.1 hboth.2).bind_pure fun _ _ => trivial
  · refine .look (looks_peekAt 1) fun next => ?_
    split
    · rename_i hbang
      have hkind : t.kind = .bang := by
        simp only [Bool.and_eq_true, decide_eq_true_eq] at hbang
        exact hbang.1.1.1
      refine (advance_known (by simp [hkind])).reading fun bang => .bind advance_ends fun _ => ?_
      exact .look (looks_emit _ bang) fun _ => .done _
    · exact .pure Bool.false_ne_true

theorem suffixes_ends (hg : g.Settled n) (target : Operand) : Ends n (suffixes g target) := by
  rw [suffixes_eq]
  exact whileReading_ends (suffixRound_rounds hg) target

theorem operand_consumes (hg : g.Settled n) : Consumes (n + 1) (operand g) := by
  refine .peek fun t _ => .look (looks_peekAt 1) fun next => ?_
  split
  · rename_i hminus
    have hkind : t.kind = .minus := by
      simp only [Bool.and_eq_true, decide_eq_true_eq] at hminus
      exact hminus.1.1
    refine (advance_known (by simp [hkind])).consume fun _ => .bind advance_ends fun number => ?_
    refine .look (looks_numberLiteral number) fun x => .look (looks_loadLiteral _ t) fun literal => ?_
    exact .bind (suffixes_ends hg _) fun _ => .done _
  split
  · rename_i op hop
    have ht : t.kind ≠ .finish := fun hfinish => by simp [hfinish, prefixOperator] at hop
    refine (advance_known ht).consume fun _ => .bind hg.operand fun inner => ?_
    exact emitTo_ends _ t id
  · exact (primary_consumes hg).anywhere.consume fun target => .bind (suffixes_ends hg target) fun _ => .done _

theorem operatorStep_rounds (hg : g.Settled n) : Rounds n (operatorStep g) := by
  refine fun left => .peek fun t _ => ?_
  have hemit (op : Register → Operation) : Ends n (do
      let out ← alloc
      emit (op out) t
      return (out, true)) := emitTo_ends op t fun out => (out, true)
  have hrange (inclusive : Bool) : Ends n (do
      let stop ← g.operand
      let out ← alloc
      emit (.makeRange left stop inclusive out) t
      return (out, true)) := .bind hg.operand fun stop => hemit _
  split
  · rename_i hkind
    refine (advance_known (by simp [hkind])).reading fun _ => .bind typeName_consumes fun type => hemit _
  · rename_i hkind
    exact (advance_known (by simp [hkind])).reading fun _ => hrange _
  · rename_i hkind
    exact (advance_known (by simp [hkind])).reading fun _ => hrange _
  split
  · rename_i op hop
    have ht : t.kind ≠ .finish := fun hfinish => by simp [hfinish, binaryOperator] at hop
    refine (advance_known ht).reading fun _ => .bind skipNewlines_ends fun _ => .bind hg.operand fun right => ?_
    exact hemit _
  · exact .pure Bool.false_ne_true

theorem expression_consumes (hoperand : Consumes (n + 1) g.operand) (hg : g.Settled n) :
    Consumes (n + 1) (expression g) :=
  hoperand.consume fun left => whileReading_ends (operatorStep_rounds hg) left

end Compile

end ScriptMachine
