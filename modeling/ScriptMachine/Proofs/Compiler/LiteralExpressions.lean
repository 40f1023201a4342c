import ScriptMachine.Proofs.Compiler.Literals

set_option autoImplicit false

namespace ScriptMachine

/-- The recursive parts read no oversized number without failing with it. -/
structure Grammar.Heeding (g : Grammar) : Prop where
  expression : Compile.Heeds g.expression
  operand : Compile.Heeds g.operand
  statement : Compile.Heeds g.statement

namespace Compile

open CompileError

variable {g : Grammar} {t s : Token}

theorem peeks_startsOperand : Peeks startsOperand := by
  refine peeks_peek.bind fun t => ?_
  split <;> first | exact .pure _ | exact (peeks_peekAt 1).bind fun _ => .pure _

theorem lineItem_heeds (hg : g.Heeding) : Heeds (lineItem g) := .bind skipNewlines_heeds fun _ => hg.expression

theorem argumentItem_heeds (hg : g.Heeding) : Heeds (argumentItem g) :=
  .bind skipNewlines_heeds fun _ => .bind hg.expression fun r => .bind skipNewlines_heeds fun _ => .pure r

theorem parenthesizedArguments_scans (hg : g.Heeding) (ht : t.kind ≠ .number) :
    Scans t s (parenthesizedArguments g) := by
  refine .bind (.advance ht) fun _ => .bind skipNewlines_heeds fun _ => ?_
  have hrest : ∀ args : List Register, Heeds (do
      let _ ← expect .rparen "Expected ')' after arguments"
      return args) := fun args => .bind (expect_heeds (by decide) (by decide)) fun _ => .pure args
  refine .look (peeks_check _) fun empty => .ite (.look (.pure _) hrest) ?_
  exact .bind (commaSeparated_heeds (argumentItem_heeds hg)) hrest

theorem callArguments_heeds (hg : g.Heeding) : Heeds (callArguments g) := by
  rw [callArguments_eq]
  refine fun t s => .peek ?_
  split
  · rename_i h
    have hkind : t.kind = .lparen := by simpa using (Bool.and_eq_true_iff.1 h).1
    exact parenthesizedArguments_scans hg (by simp [hkind])
  · exact .look peeks_startsOperand fun b => .ite (commaSeparated_heeds (lineItem_heeds hg) t s) (.pure [])

theorem block_heeds (hg : g.Heeding) (terminators : List TokenKind) : Heeds (block g terminators) := by
  rw [block_eq]
  refine .bind skipSeparators_heeds fun _ => .whileReading (fun last => ?_) _
  refine .look (peeks_checkAny _) fun b => .ite (.pure _) (.bind hg.statement fun last => ?_)
  exact .bind endStatement_heeds fun _ => .bind skipSeparators_heeds fun _ => .pure _

theorem blockScope_heeds (hg : g.Heeding) (name : Text) (terminators : List TokenKind) (site : Token)
    (bound : Option Text) : Heeds (blockScope g name terminators site bound) := by
  refine .look (peeks_openScope _ _ _ _ _) fun scope => ?_
  have hbody : Heeds (do
      let last ← block g terminators
      emit (.ret last) (← peek)
      closeScope
      return scope) :=
    .bind (block_heeds hg terminators) fun last => .look peeks_peek fun t => .look (peeks_emit _ t) fun _ =>
      .look peeks_closeScope fun _ => .pure scope
  cases bound with
  | none => exact hbody
  | some name => exact .look (peeks_declare name false) fun _ => hbody

theorem peeks_equalityBranch (condition : Register) (truth : Bool) (scope : Nat) (out : Register)
    (site : Token) : Peeks (equalityBranch condition truth scope out site) := by
  refine peeks_currentScope.bind fun i => (peeks_scopeAt i).bind fun s => ?_
  split
  · refine .ite ((peeks_modifyScope i _).bind fun _ => ?_) (.pure _)
    exact (peeks_emit _ site).bind fun _ => (peeks_emit _ site).bind fun _ => .pure _
  · exact .pure _

theorem applyGuard_scans (hg : g.Heeding) (start : Nat) (value : Register) (ht : t.kind ≠ .number) :
    Scans t s (applyGuard g start value) := by
  refine .bind (.advance ht) fun keyword => .look peeks_currentScope fun source => ?_
  refine .look (peeks_addScope _ _ keyword) fun guarded => .look (peeks_scopeAt source) fun s => ?_
  refine .look (peeks_modifyScope guarded _) fun _ => .look (peeks_modifyScope source _) fun _ => ?_
  refine .bind hg.expression fun condition => .look peeks_alloc fun out => ?_
  refine .look (peeks_equalityBranch _ _ _ _ _) fun fused => .ite (.pure out) ?_
  exact .look (peeks_emit _ keyword) fun _ => .pure out

theorem guards_heeds (hg : g.Heeding) (start : Nat) (value : Register) : Heeds (guards g start value) := by
  refine .whileReading (fun value t s => .checkAny ?_) value
  split
  · rename_i hkind
    have ht : t.kind ≠ .number := fun h => by simp [h] at hkind
    exact .bind (applyGuard_scans hg start value ht) fun _ => .pure _
  · exact .pure _

theorem guardedExpression_heeds (hg : g.Heeding) : Heeds (guardedExpression g) :=
  .look peeks_codeSize fun start => .bind hg.expression fun value => guards_heeds hg start value

theorem functionStatements_heeds (hg : g.Heeding) : Heeds (functionStatements g) := by
  refine .bind (accept_heeds (by decide)) fun _ => .ite ?_ ?_
  · refine .look peeks_previous fun equal => .bind skipNewlines_heeds fun _ => ?_
    exact .bind (guardedExpression_heeds hg) fun value => .of_peeks (peeks_emit _ equal)
  · refine .bind (block_heeds hg _) fun last => .bind (expect_heeds (by decide) (by decide)) fun close => ?_
    exact .of_peeks (peeks_emit _ close)

theorem closureBody_heeds (hg : g.Heeding) (h : Header) (selfName : Option Text) (isLambda : Bool) :
    Heeds (closureBody g h selfName isLambda) := by
  refine .bind (within_heeds h.name (.look (peeks_openScope _ _ _ _ _) fun scope => ?_)) fun scope => ?_
  · refine .look (peeks_modifyScope scope _) fun _ => ?_
    have hend : Heeds (do
        let captures := ((← get).opened.head?.map (·.captures)).getD []
        modifyScope scope fun s => { s with captures }
        closeScope
        return scope) :=
      .look .get fun _ => .look (peeks_modifyScope scope _) fun _ => .look peeks_closeScope fun _ => .pure scope
    have hbody : Heeds (do
        declareParams scope h.signature.params
        if isLambda then
          let value ← guardedExpression g
          emit (.ret value) h.token
        else functionStatements g
        let captures := ((← get).opened.head?.map (·.captures)).getD []
        modifyScope scope fun s => { s with captures }
        closeScope
        return scope) := by
      refine .look (peeks_declareParams scope _) fun _ => .ite ?_ ?_
      · exact .bind (guardedExpression_heeds hg) fun value => .look (peeks_emit _ h.token) fun _ => hend
      · exact .bind (functionStatements_heeds hg) fun _ => hend
    cases selfName with
    | none => exact hbody
    | some name => exact .look (peeks_declareAs name _) fun _ => hbody
  · exact .look .get fun _ => .look (peeks_modifyProgram _) fun _ => .pure _

theorem lambda_scans (hg : g.Heeding) (ht : t.kind ≠ .number) : Scans t s (lambda g) := by
  refine .bind (.advance ht) fun token => ?_
  have hrest : ∀ params : List Parameter, Heeds (do
      let h : Header := ⟨token, "<lambda>", ⟨params, .any, none, false⟩, []⟩
      let closure ← closureBody g h none true
      let out ← alloc
      emit (.makeClosure closure out) token
      return out) := fun params =>
    .bind (closureBody_heeds hg _ none true) fun closure => emitTo_heeds _ token id
  exact .ite (.bind (parameterList_heeds (by decide) (by decide)) hrest) (.look (.pure _) hrest)

theorem loopVariables_heeds : Heeds loopVariables := by
  refine .bind (expect_heeds (by decide) (by decide)) fun first => .bind (accept_heeds (by decide)) fun _ => ?_
  refine .ite (.bind (expect_heeds (by decide) (by decide)) fun second => ?_) (.pure _)
  exact .ite (.fail (by decide) second) (.pure _)

theorem pairBody_heeds (hg : g.Heeding) (site : Token) : Heeds (pairBody g site) := by
  refine .look peeks_codeSize fun start => .bind hg.expression fun key => ?_
  have hrest : ∀ entry, Heeds (do
      let value ← alloc
      emit (.makeList [key, entry] value) site
      guards g start value) := fun entry =>
    .look peeks_alloc fun value => .look (peeks_emit _ site) fun _ => guards_heeds hg start value
  refine .bind (accept_heeds (by decide)) fun _ => .ite ?_ (.look (.pure _) hrest)
  exact .bind skipNewlines_heeds fun _ => .bind hg.expression hrest

theorem comprehension_scans (hg : g.Heeding) (site : Token) (toMap : Bool) (ht : t.kind ≠ .number) :
    Scans t s (comprehension g site toMap) := by
  refine .bind (.advance ht) fun _ => .bind loopVariables_heeds fun names => ?_
  refine .bind (expect_heeds (by decide) (by decide)) fun _ => .bind hg.expression fun source => ?_
  refine .bind (expect_heeds (by decide) (by decide)) fun _ => .bind skipNewlines_heeds fun _ => ?_
  refine .look (peeks_openScope _ _ _ _ _) fun body => .look (peeks_modifyScope body _) fun _ => ?_
  refine .look (peeks_forM (fun name => peeks_declare name false) names) fun _ => ?_
  have hend : ∀ value, Heeds (do
      emit (.ret value) (← peek)
      closeScope
      skipNewlines
      let out ← alloc
      let _ ← if toMap then expect .rbrace "Expected '\x7d' to close map comprehension"
        else expect .rbracket "Expected ']' to close list comprehension"
      emit (.collect toMap source (some body) out) site
      return out) := by
    refine fun value => .look peeks_peek fun t => .look (peeks_emit _ t) fun _ => ?_
    refine .look peeks_closeScope fun _ => .bind skipNewlines_heeds fun _ => .look peeks_alloc fun out => ?_
    have hlast : ∀ _ : Token, Heeds (do
        emit (.collect toMap source (some body) out) site
        return out) := fun _ => .look (peeks_emit _ site) fun _ => .pure out
    exact .ite (.bind (expect_heeds (by decide) (by decide)) hlast)
      (.bind (expect_heeds (by decide) (by decide)) hlast)
  exact .ite (.bind (pairBody_heeds hg site) hend) (.bind (guardedExpression_heeds hg) hend)

theorem itemsUntil_heeds {α : Type} (close : TokenKind) {item : Compile α} (hi : Heeds item) :
    Heeds (itemsUntil close item) := by
  rw [itemsUntil_eq]
  refine .bind (.whileReading (fun items => ?_) []) fun _ => .pure _
  refine .look (peeks_check _) fun _ => .ite (.pure _) (.bind hi fun a => .bind skipNewlines_heeds fun _ => ?_)
  exact .bind (accept_heeds (by decide)) fun _ => .ite (.bind skipNewlines_heeds fun _ => .pure _) (.pure _)

theorem opened_heeds {y : Compile Register} (hg : g.Heeding) (site : Token) (toMap : Bool) (hy : Heeds y) :
    Heeds (do if ← check .kwFor then comprehension g site toMap else y) := by
  refine fun t s => .check ?_
  split
  · rename_i hkind
    have ht : t.kind = .kwFor := of_decide_eq_true hkind
    exact comprehension_scans hg site toMap (by simp [ht])
  · exact hy t s

theorem listLiteral_scans (hg : g.Heeding) (ht : t.kind ≠ .number) : Scans t s (listLiteral g) := by
  refine .bind (.advance ht) fun site => .bind skipNewlines_heeds fun _ => opened_heeds hg site false ?_
  refine .bind (itemsUntil_heeds _ hg.expression) fun items => ?_
  exact .bind (expect_heeds (by decide) (by decide)) fun _ => emitTo_heeds _ site id

theorem peeks_loadLiteral (v : Value) (site : Token) : Peeks (loadLiteral v site) := peeks_emitTo _ site id

theorem mapEntry_heeds (hg : g.Heeding) : Heeds (mapEntry g) := by
  refine fun t s => .peek (.peekAt ?_)
  have hrest : ∀ key, Heeds (do
      if ← accept .equal then
        skipNewlines
        return [key, ← g.expression]
      else return [key, key]) := fun key =>
    .bind (accept_heeds (by decide)) fun _ =>
      .ite (.bind skipNewlines_heeds fun _ => .bind hg.expression fun _ => .pure _) (.pure _)
  split
  · rename_i h
    have hkind : t.kind = .identifier := by simpa using (Bool.and_eq_true_iff.1 h).1
    refine .bind (.advance (by simp [hkind])) fun name => ?_
    exact .look (peeks_loadLiteral _ name) hrest
  · exact .bind (hg.expression t s) hrest

theorem mapLiteral_scans (hg : g.Heeding) (ht : t.kind ≠ .number) : Scans t s (mapLiteral g) := by
  refine .bind (.advance ht) fun site => .bind skipNewlines_heeds fun _ => opened_heeds hg site true ?_
  refine .bind (itemsUntil_heeds _ (mapEntry_heeds hg)) fun pairs => ?_
  exact .bind (expect_heeds (by decide) (by decide)) fun _ => emitTo_heeds _ site id

theorem parenthesized_scans (hg : g.Heeding) (ht : t.kind ≠ .number) : Scans t s (parenthesized g) := by
  refine .bind (.advance ht) fun _ => .bind skipNewlines_heeds fun _ => .bind hg.expression fun inner => ?_
  exact .bind skipNewlines_heeds fun _ => .bind (expect_heeds (by decide) (by decide)) fun _ => .pure inner

theorem elseScope_heeds (hg : g.Heeding) : Heeds (elseScope g) := by
  refine .bind (accept_heeds (by decide)) fun _ => .ite (.look peeks_previous fun t => ?_) (.pure none)
  exact .bind (blockScope_heeds hg _ _ t none) fun _ => .pure _

theorem ifExpression_scans (hg : g.Heeding) (ht : t.kind ≠ .number) : Scans t s (ifExpression g) := by
  refine .bind (.advance ht) fun keyword => .bind hg.expression fun condition => ?_
  refine .bind (blockScope_heeds hg _ _ keyword none) fun body => .bind (elseScope_heeds hg) fun otherwise => ?_
  refine .bind (expect_heeds (by decide) (by decide)) fun _ => .look peeks_alloc fun out => ?_
  have hrest : ∀ fused : Bool, Heeds (if fused then return out else do
      emit (.ifElse condition (some body) otherwise out) keyword
      return out) := fun fused => .ite (.pure out) (.look (peeks_emit _ keyword) fun _ => .pure out)
  exact .ite (.look (peeks_equalityBranch _ _ _ _ _) hrest) (.look (.pure _) hrest)

theorem unlessExpression_scans (hg : g.Heeding) (ht : t.kind ≠ .number) : Scans t s (unlessExpression g) := by
  refine .bind (.advance ht) fun keyword => .bind hg.expression fun condition => ?_
  refine .bind (blockScope_heeds hg _ _ keyword none) fun body => .bind (elseScope_heeds hg) fun otherwise => ?_
  refine .bind (expect_heeds (by decide) (by decide)) fun _ => .look peeks_alloc fun out => ?_
  cases otherwise with
  | some other => exact .look (peeks_emit _ keyword) fun _ => .pure out
  | none =>
    refine .look (peeks_equalityBranch _ _ _ _ _) fun fused => .ite (.pure out) ?_
    exact .look (peeks_emit _ keyword) fun _ => .pure out

theorem doExpression_scans (hg : g.Heeding) (ht : t.kind ≠ .number) : Scans t s (doExpression g) := by
  refine .bind (.advance ht) fun keyword => .bind (blockScope_heeds hg _ _ keyword none) fun body => ?_
  exact .bind (expect_heeds (by decide) (by decide)) fun _ => emitTo_heeds _ keyword id

theorem tryBody_heeds (hg : g.Heeding) (keyword : Token) (blockForm : Bool) :
    Heeds (tryBody g keyword blockForm) := by
  refine .ite (blockScope_heeds hg _ _ keyword none) (.look (peeks_openScope _ _ _ _ _) fun body => ?_)
  refine .bind hg.expression fun value => .look (peeks_emit _ keyword) fun _ => ?_
  exact .look peeks_closeScope fun _ => .pure body

theorem tryExpression_scans (hg : g.Heeding) (ht : t.kind ≠ .number) : Scans t s (tryExpression g) := by
  refine .bind (.advance ht) fun keyword => .look (peeks_checkAny _) fun blockForm => ?_
  refine .bind (tryBody_heeds hg keyword blockForm) fun body => ?_
  let rest (handler : Target × Option Text) : Compile Register := do
    let out ← alloc
    emit (.tryCatch (some body) handler.1 handler.2 out) keyword
    return out
  have hrest : ∀ handler, Heeds (rest handler) := fun handler => emitTo_heeds _ keyword id
  have hplain : ∀ handler, Heeds (pure handler >>= rest) := fun handler => .look (.pure handler) hrest
  refine .bind (accept_heeds (by decide)) fun _ => .ite ?_ ?_
  · refine .look peeks_previous fun site => fun t s => .check ?_
    have hcatch : ∀ errorName : Option Text, Heeds (do
        let handler ← blockScope g "<catch>" [.kwEnd] site errorName
        let _ ← expect .kwEnd "Expected 'end' to close 'catch'"
        let caught ← pure (some handler, errorName)
        rest caught) := fun errorName =>
      .bind (blockScope_heeds hg _ _ site errorName) fun handler =>
        .bind (expect_heeds (by decide) (by decide)) fun _ => hplain _
    split
    · rename_i hkind
      have ht : t.kind = .identifier := of_decide_eq_true hkind
      exact .bind (.advance (by simp [ht])) fun t => .look (.pure _) hcatch
    · exact .look (.pure _) fun errorName => hcatch errorName t s
  · exact .ite (.bind (expect_heeds (by decide) (by decide)) fun _ => hplain _) (hplain _)

theorem raiseExpression_scans (hg : g.Heeding) (ht : t.kind ≠ .number) : Scans t s (raiseExpression g) :=
  .bind (.advance ht) fun keyword => .bind hg.expression fun _ => .look (peeks_emit _ keyword) fun _ => .pure _

theorem returnExpression_scans (hg : g.Heeding) (ht : t.kind ≠ .number) : Scans t s (returnExpression g) := by
  refine .bind (.advance ht) fun keyword => .look peeks_startsOperand fun _ => ?_
  have hrest : ∀ value, Heeds (do
      emit (.leave value) keyword
      return noneRegister) := fun value => .look (peeks_emit _ keyword) fun _ => .pure _
  exact .ite (.bind hg.expression hrest) (.look (.pure _) hrest)

theorem call_heeds (hg : g.Heeding) (op : List Register → Register → Operation) (site : Token) : Heeds (do
    let args ← callArguments g
    let out ← alloc
    emit (op args out) site
    return (⟨out, none⟩ : Operand)) :=
  .bind (callArguments_heeds hg) fun args => emitTo_heeds (op args) site fun r => (⟨r, none⟩ : Operand)

theorem identifier_scans (hg : g.Heeding) (ht : t.kind ≠ .number) : Scans t s (identifier g) := by
  refine .bind (.advance ht) fun name => .look (peeks_lookup _) fun found => ?_
  cases found with
  | some info =>
    refine .look peeks_alloc fun out => .look (peeks_emit _ name) fun _ => .ite ?_ (.pure _)
    exact call_heeds hg _ name
  | none =>
    refine fun t s => .check (.peekAt ?_)
    split
    · rename_i h
      obtain ⟨⟨-, hdot⟩, hfunction⟩ : (isTypeName name.text = true ∧ t.kind = .dot) ∧ s.kind = .identifier := by
        simpa using h
      refine .shift (by simp [hdot]) (by simp [hdot]) fun u => .bind (.advance (by simp [hfunction])) ?_
      exact fun function => call_heeds hg _ name
    · exact call_heeds hg _ name t s

theorem plainOperand_scans {read : Compile Register} (h : Scans t s read) : Scans t s (plainOperand read) :=
  .bind h fun _ => .pure _

theorem primary_heeds (hg : g.Heeding) : Heeds (primary g) := by
  refine fun t s => .peek ?_
  have hliteral (v : Value) : Heeds (plainOperand (loadLiteral v t)) :=
    .look (peeks_loadLiteral v t) fun _ => .pure _
  split <;> rename_i hkind
  · refine .number hkind (bind_assoc _ _ _) fun n => ?_
    exact hliteral (.num n)
  all_goals try have ht : t.kind ≠ .number := by simp [hkind]
  · exact .bind (.advance ht) fun _ => hliteral _
  · exact .bind (.advance ht) fun _ => hliteral _
  · exact .bind (.advance ht) fun _ => hliteral _
  · exact .bind (.advance ht) fun _ => .pure _
  · exact plainOperand_scans (listLiteral_scans hg ht)
  · exact plainOperand_scans (mapLiteral_scans hg ht)
  · exact plainOperand_scans (parenthesized_scans hg ht)
  · exact plainOperand_scans (ifExpression_scans hg ht)
  · exact plainOperand_scans (unlessExpression_scans hg ht)
  · exact plainOperand_scans (doExpression_scans hg ht)
  · exact plainOperand_scans (tryExpression_scans hg ht)
  · exact plainOperand_scans (raiseExpression_scans hg ht)
  · exact plainOperand_scans (returnExpression_scans hg ht)
  · exact plainOperand_scans (lambda_scans hg ht)
  · exact plainOperand_scans (lambda_scans hg ht)
  · exact identifier_scans hg ht
  · exact .fail (by decide) t
  · exact .fail (foreign_of_head rfl) t

theorem methodCall_scans (hg : g.Heeding) (target : Operand) (ht : t.kind ≠ .number) :
    Scans t s (methodCall g target) :=
  .bind (.advance ht) fun dot => .bind (expect_heeds (by decide) (by decide)) fun _ => call_heeds hg _ dot

theorem indexing_scans (hg : g.Heeding) (target : Operand) (ht : t.kind ≠ .number) :
    Scans t s (indexing g target) := by
  refine .bind (.advance ht) fun site => .bind skipNewlines_heeds fun _ => .bind hg.expression fun index => ?_
  refine .bind skipNewlines_heeds fun _ => .bind (expect_heeds (by decide) (by decide)) fun _ => ?_
  exact emitTo_heeds _ site fun r => (⟨r, none⟩ : Operand)

theorem valueCall_heeds (hg : g.Heeding) (target : Operand) : Heeds (valueCall g target) :=
  .look peeks_peek fun site => call_heeds hg _ site

theorem suffixes_heeds (hg : g.Heeding) (target : Operand) : Heeds (suffixes g target) := by
  rw [suffixes_eq]
  refine .whileReading (fun target t s => .peek ?_) target
  split
  · rename_i hkind
    exact .bind (methodCall_scans hg target (by simp [hkind])) fun _ => .pure _
  split
  · rename_i h
    have hkind : t.kind = .lbracket := by simpa using (Bool.and_eq_true_iff.1 h).1
    exact .bind (indexing_scans hg target (by simp [hkind])) fun _ => .pure _
  split
  · exact .bind (valueCall_heeds hg target t s) fun _ => .pure _
  refine .peekAt ?_
  split
  · rename_i h
    obtain ⟨⟨⟨hkind, -⟩, hnext⟩, -⟩ : ((t.kind = .bang ∧ t.spaceBefore = false) ∧ s.kind = .bang) ∧
        s.spaceBefore = false := by simpa using h
    refine .shift (by simp [hkind]) (by simp [hkind]) fun u => .bind (.advance (by simp [hnext])) fun _ => ?_
    exact .look (peeks_emit _ t) fun _ => .pure _
  · exact .pure _

theorem operand_heeds (hg : g.Heeding) : Heeds (operand g) := by
  refine fun t s => .peek (.peekAt ?_)
  split
  · rename_i h
    obtain ⟨⟨hkind, hnumber⟩, -⟩ : (t.kind = .minus ∧ s.kind = .number) ∧ s.spaceBefore = false := by
      simpa using h
    refine .shift (by simp [hkind]) (by simp [hkind]) fun u => .number hnumber rfl fun n => ?_
    exact .look (peeks_loadLiteral _ t) fun literal => .bind (suffixes_heeds hg _) fun _ => .pure _
  split
  · rename_i op hop
    have ht : t.kind ≠ .number := fun h => by simp [h, prefixOperator] at hop
    exact .bind (.advance ht) fun _ => .bind hg.operand fun inner => emitTo_heeds _ t id
  · exact .bind (primary_heeds hg t s) fun target => .bind (suffixes_heeds hg target) fun _ => .pure _

theorem operatorStep_heeds (hg : g.Heeding) (left : Register) : Heeds (operatorStep g left) := by
  refine fun t s => .peek ?_
  have hemit (op : Register → Operation) : Heeds (do
      let out ← alloc
      emit (op out) t
      return (out, true)) := emitTo_heeds op t fun out => (out, true)
  split
  · rename_i hkind
    exact .bind (.advance (by simp [hkind])) fun _ => .bind typeName_heeds fun type => hemit _
  · rename_i hkind
    exact .bind (.advance (by simp [hkind])) fun _ => .bind hg.operand fun stop => hemit _
  · rename_i hkind
    exact .bind (.advance (by simp [hkind])) fun _ => .bind hg.operand fun stop => hemit _
  split
  · rename_i op hop
    have ht : t.kind ≠ .number := fun h => by simp [h, binaryOperator] at hop
    refine .bind (.advance ht) fun _ => .bind skipNewlines_heeds fun _ => .bind hg.operand fun right => ?_
    exact hemit _
  · exact .pure _

theorem expression_heeds (hg : g.Heeding) : Heeds (expression g) :=
  .bind hg.operand fun left => .whileReading (operatorStep_heeds hg) left

end Compile

end ScriptMachine
