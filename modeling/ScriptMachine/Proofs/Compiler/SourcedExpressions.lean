import ScriptMachine.Proofs.Compiler.Sources

set_option autoImplicit false

namespace ScriptMachine

/-- The recursive parts of a grammar write sourced code. -/
structure Grammar.Minds (time : Nat) (g : Grammar) : Prop where
  expression : Compile.Minds time g.expression
  operand : Compile.Minds time g.operand
  statement : Compile.Minds time g.statement

theorem mem_of_mem_extract {α : Type} {xs : Array α} {i j : Nat} {a : α} (h : a ∈ xs.extract i j) :
    a ∈ xs := by
  obtain ⟨k, hk, rfl⟩ := Array.mem_extract_iff_getElem.1 h
  exact Array.getElem_mem _

theorem mem_of_mem_pop {α : Type} {xs : Array α} {a : α} (h : a ∈ xs.pop) : a ∈ xs := by
  obtain ⟨k, hk, rfl⟩ := Array.mem_iff_getElem.1 h
  rw [Array.getElem_pop]
  exact Array.getElem_mem _

namespace Compile

variable {time : Nat} {g : Grammar}

theorem startsOperand_minds : Minds time startsOperand := by
  refine peek_answers.bind fun t _ => ?_
  split <;> first | exact .pure trivial | exact (peekAt_answers 1).bind fun _ _ => .pure trivial

theorem loadLiteral_minds {v : Value} (hv : v.Literal) {site : Token} (hsite : site.Placed) :
    Minds time (loadLiteral v site) := by
  refine alloc_minds.bind fun out _ => (emit_minds hsite ?_).bind fun _ _ => .pure trivial
  rintro _ _ ⟨⟩
  exact hv

theorem emitTo_minds {α : Type} {op : Register → Operation} {site : Token} (hsite : site.Placed)
    (h : ∀ out v r, op out ≠ .load v r) (f : Register → α) : Minds time (do
      let out ← alloc
      emit (op out) site
      return f out) := by
  refine alloc_minds.bind fun out _ => (emit_minds hsite ?_).bind fun _ _ => .pure trivial
  exact fun v r he => absurd he (h out v r)

theorem callArguments_minds (hg : g.Minds time) : Minds time (callArguments g) := by
  refine peek_answers.bind fun t _ => .ite ?_ (startsOperand_minds.bind fun _ _ => .ite ?_ (.pure trivial))
  · refine advance_answers.bind fun _ _ => (skip_minds _).bind fun _ _ => (check_minds _).bind fun _ _ => ?_
    refine .ite_bind (R := fun _ => True) (.pure trivial) (commaSeparated_minds ?_) fun _ _ => ?_
    · refine (skip_minds _).bind fun _ _ => hg.expression.bind fun _ _ => ?_
      exact (skip_minds _).bind fun _ _ => .pure trivial
    · exact (expect_answers _ _).bind fun _ _ => .pure trivial
  · exact commaSeparated_minds ((skip_minds _).bind fun _ _ => hg.expression)

theorem block_minds (hg : g.Minds time) (terminators : List TokenKind) : Minds time (block g terminators) := by
  refine (skip_minds _).bind fun _ _ => .whileReading (fun last _ => ?_) trivial
  refine (checkAny_minds _).bind fun _ _ => .ite (.pure trivial) (hg.statement.bind fun _ _ => ?_)
  exact endStatement_minds.bind fun _ _ => (skip_minds _).bind fun _ _ => .pure trivial

theorem blockScope_minds (hg : g.Minds time) (name : Text) (terminators : List TokenKind) (site : Token)
    (bound : Option Text) : Minds time (blockScope g name terminators site bound) := by
  refine (openScope_minds _ _ _ _ _).bind fun scope _ => ?_
  have hbody : Minds time (do
      let last ← block g terminators
      emit (.ret last) (← peek)
      closeScope
      return scope) := by
    refine (block_minds hg terminators).bind fun last _ => peek_answers.bind fun t ht => ?_
    exact (emit_minds ht (by nofun)).bind fun _ _ => closeScope_minds.bind fun _ _ => .pure trivial
  cases bound with
  | none => exact hbody
  | some n => exact (declareAs_minds n _).bind fun _ _ => hbody

theorem equalityBranch_minds (condition : Register) (truth : Bool) (scope : Nat) (out : Register)
    {site : Token} (hsite : site.Placed) :
    Minds time (equalityBranch condition truth scope out site) := by
  refine currentScope_minds.bind fun i _ => (scopeAt_answers i).bind fun s _ => ?_
  split
  · refine .ite ?_ (.pure trivial)
    refine Answers.bind (R := fun _ => True) (modifyScope_minds i fun s hs j hj => ?_) fun _ _ => ?_
    · exact hs j (mem_of_mem_pop hj)
    · exact (emit_minds hsite (by nofun)).bind fun _ _ => (emit_minds hsite (by nofun)).bind fun _ _ => .pure trivial
  · exact .pure trivial

theorem applyGuard_minds (hg : g.Minds time) (start : Nat) (value : Register) :
    Minds time (applyGuard g start value) := by
  refine advance_answers.bind fun keyword hkeyword => currentScope_minds.bind fun source _ => ?_
  refine (addScope_minds _ _ _).bind fun guarded _ => (scopeAt_answers source).bind fun s hs => ?_
  refine Answers.bind (R := fun _ => True) (modifyScope_minds guarded fun t ht j hj => ?_) fun _ _ => ?_
  · rcases Array.mem_push.1 hj with hj | rfl
    · exact hs j (mem_of_mem_extract hj)
    · exact ⟨place_known hkeyword, nofun⟩
  refine Answers.bind (R := fun _ => True) (modifyScope_minds source fun t ht j hj => ?_) fun _ _ => ?_
  · exact ht j (mem_of_mem_extract hj)
  refine hg.expression.bind fun condition _ => alloc_minds.bind fun out _ => ?_
  refine (equalityBranch_minds _ _ _ _ hkeyword).bind fun _ _ => .ite (.pure trivial) ?_
  exact (emit_minds hkeyword (by nofun)).bind fun _ _ => .pure trivial

theorem guards_minds (hg : g.Minds time) (start : Nat) (value : Register) :
    Minds time (guards g start value) := by
  refine .whileReading (fun value _ => (checkAny_minds _).bind fun _ _ => ?_) trivial
  exact .ite ((applyGuard_minds hg start value).bind fun _ _ => .pure trivial) (.pure trivial)

theorem guardedExpression_minds (hg : g.Minds time) : Minds time (guardedExpression g) :=
  codeSize_minds.bind fun start _ => hg.expression.bind fun value _ => guards_minds hg start value

theorem functionStatements_minds (hg : g.Minds time) : Minds time (functionStatements g) := by
  refine (accept_minds _).bind fun _ _ => .ite ?_ ?_
  · refine previous_answers.bind fun equal hequal => (skip_minds _).bind fun _ _ => ?_
    exact (guardedExpression_minds hg).bind fun value _ => emit_minds hequal (by nofun)
  · refine (block_minds hg _).bind fun last _ => (expect_answers _ _).bind fun close hclose => ?_
    exact emit_minds hclose (by nofun)

theorem declareParams_minds (scope : Nat) (params : List Parameter) :
    Minds time (declareParams scope params) := by
  refine Answers.bind (R := fun _ => True) (modifyScope_minds scope fun _ hs => hs) fun _ _ => ?_
  induction params with
  | nil => exact .pure trivial
  | cons p params ih => exact (declareAs_minds p.name _).bind fun _ _ => ih

theorem interpreted_sourced {h : Header} (hh : h.signature.Literal) (scope : Nat) :
    (h.interpreted scope).Sourced time :=
  ⟨fun p hp v hv => (hh p hp v hv).lasting time, nofun⟩

theorem closureBody_minds (hg : g.Minds time) {h : Header} (hh : h.Sourced [])
    (selfName : Option Text) (isLambda : Bool) : Minds time (closureBody g h selfName isLambda) := by
  have hend : ∀ scope, Minds time (do
      let captures := ((← get).opened.head?.map (·.captures)).getD []
      modifyScope scope fun s => { s with captures }
      closeScope
      return scope) := by
    refine fun scope => Answers.get.bind fun d _ => ?_
    refine Answers.bind (R := fun _ => True) (modifyScope_minds scope fun _ hs => hs) fun _ _ => ?_
    exact closeScope_minds.bind fun _ _ => .pure trivial
  have hbody : ∀ scope, Minds time (do
      declareParams scope h.signature.params
      if isLambda then
        let value ← guardedExpression g
        emit (.ret value) h.token
      else functionStatements g
      let captures := ((← get).opened.head?.map (·.captures)).getD []
      modifyScope scope fun s => { s with captures }
      closeScope
      return scope) := by
    refine fun scope => (declareParams_minds scope _).bind fun _ _ => .ite ?_ ?_
    · refine (guardedExpression_minds hg).bind fun value _ => ?_
      exact (emit_minds hh.token (by nofun)).bind fun _ _ => hend scope
    · exact (functionStatements_minds hg).bind fun _ _ => hend scope
  refine Answers.bind (R := fun _ => True) (within_answers h.name ?_) fun scope _ => ?_
  · refine (openScope_minds _ _ _ _ _).bind fun scope _ => ?_
    refine Answers.bind (R := fun _ => True) (modifyScope_minds scope fun _ hs => hs) fun _ _ => ?_
    cases selfName with
    | none => exact hbody scope
    | some n => exact (declareAs_minds n _).bind fun _ _ => hbody scope
  · refine Answers.get.bind fun d _ => ?_
    refine Answers.bind (R := fun _ => True) (modifyProgram_minds fun p hp =>
      { hp with closures := fun f hf => ?_ }) fun _ _ => .pure trivial
    rcases Array.mem_push.1 hf with hf | rfl
    · exact hp.closures f hf
    · exact ⟨interpreted_sourced hh.signature scope, hh.tags⟩

theorem lambda_minds (hg : g.Minds time) : Minds time (lambda g) := by
  refine advance_answers.bind fun token htoken => ?_
  refine .ite_bind (R := fun params => ∀ p ∈ params, Parameter.Literal p) (parameterList_answers _ _)
    (.pure (List.forall_mem_nil _)) fun params hparams => ?_
  have hheader : Header.Sourced [] ⟨token, "<lambda>", ⟨params, .any, none, false⟩, []⟩ :=
    ⟨htoken, hparams, rfl⟩
  exact (closureBody_minds hg hheader none true).bind fun closure _ => emitTo_minds htoken (by nofun) id

theorem loopVariables_minds : Minds time loopVariables := by
  refine (expect_answers _ _).bind fun first _ => (accept_minds _).bind fun _ _ => ?_
  refine .ite ((expect_answers _ _).bind fun second _ => ?_) (.pure trivial)
  exact .ite (.fail _ second) (.pure trivial)

theorem pairBody_minds (hg : g.Minds time) {site : Token} (hsite : site.Placed) :
    Minds time (pairBody g site) := by
  refine codeSize_minds.bind fun start _ => hg.expression.bind fun key _ => ?_
  refine (accept_minds _).bind fun _ _ => ?_
  have hrest : ∀ entry, Minds time (do
      let value ← alloc
      emit (.makeList [key, entry] value) site
      guards g start value) := fun entry =>
    alloc_minds.bind fun value _ => (emit_minds hsite (by nofun)).bind fun _ _ => guards_minds hg start value
  refine .ite ?_ (Answers.bind (R := fun _ => True) (.pure trivial) fun entry _ => hrest entry)
  exact (skip_minds _).bind fun _ _ => hg.expression.bind fun entry _ => hrest entry

theorem comprehension_minds (hg : g.Minds time) {site : Token} (hsite : site.Placed) (toMap : Bool) :
    Minds time (comprehension g site toMap) := by
  refine advance_answers.bind fun _ _ => loopVariables_minds.bind fun names _ => ?_
  refine (expect_answers _ _).bind fun _ _ => hg.expression.bind fun source _ => ?_
  refine (expect_answers _ _).bind fun _ _ => (skip_minds _).bind fun _ _ => ?_
  refine (openScope_minds _ _ _ _ _).bind fun body _ => ?_
  refine Answers.bind (R := fun _ => True) (modifyScope_minds body fun _ hs => hs) fun _ _ => ?_
  refine (declareAll_minds names).bind fun _ _ => ?_
  refine .ite_bind (pairBody_minds hg hsite) (guardedExpression_minds hg) fun value _ => ?_
  refine peek_answers.bind fun t ht => (emit_minds ht (by nofun)).bind fun _ _ => ?_
  refine closeScope_minds.bind fun _ _ => (skip_minds _).bind fun _ _ => alloc_minds.bind fun out _ => ?_
  refine .ite_bind (R := fun _ => True) ((expect_answers _ _).imp fun _ _ => trivial)
    ((expect_answers _ _).imp fun _ _ => trivial) fun _ _ => ?_
  exact (emit_minds hsite (by nofun)).bind fun _ _ => .pure trivial

theorem itemsUntil_minds {α : Type} (close : TokenKind) {item : Compile α} (hi : Minds time item) :
    Minds time (itemsUntil close item) := by
  refine Answers.bind (R := fun _ => True) (.whileReading (fun items _ => ?_) trivial) fun _ _ =>
    .pure trivial
  refine (check_minds _).bind fun _ _ => .ite (.pure trivial) (hi.bind fun _ _ => ?_)
  refine (skip_minds _).bind fun _ _ => (accept_minds _).bind fun _ _ => .ite ?_ (.pure trivial)
  exact (skip_minds _).bind fun _ _ => .pure trivial

theorem listLiteral_minds (hg : g.Minds time) : Minds time (listLiteral g) := by
  refine advance_answers.bind fun site hsite => (skip_minds _).bind fun _ _ => ?_
  refine (check_minds _).bind fun _ _ => .ite (comprehension_minds hg hsite false) ?_
  refine (itemsUntil_minds _ hg.expression).bind fun items _ => (expect_answers _ _).bind fun _ _ => ?_
  exact emitTo_minds hsite (by nofun) id

theorem mapEntry_minds (hg : g.Minds time) : Minds time (mapEntry g) := by
  refine peek_answers.bind fun t _ => (peekAt_answers 1).bind fun next _ => ?_
  have hrest : ∀ key, Minds time (do
      if ← accept .equal then
        skipNewlines
        return [key, ← g.expression]
      else return [key, key]) := fun key =>
    (accept_minds _).bind fun _ _ => .ite
      ((skip_minds _).bind fun _ _ => hg.expression.bind fun _ _ => .pure trivial) (.pure trivial)
  refine .ite (advance_answers.bind fun name hname => ?_) (hg.expression.bind fun key _ => hrest key)
  exact (loadLiteral_minds (.str _) hname).bind fun key _ => hrest key

theorem mapLiteral_minds (hg : g.Minds time) : Minds time (mapLiteral g) := by
  refine advance_answers.bind fun site hsite => (skip_minds _).bind fun _ _ => ?_
  refine (check_minds _).bind fun _ _ => .ite (comprehension_minds hg hsite true) ?_
  refine (itemsUntil_minds _ (mapEntry_minds hg)).bind fun pairs _ => (expect_answers _ _).bind fun _ _ => ?_
  exact emitTo_minds hsite (by nofun) id

theorem parenthesized_minds (hg : g.Minds time) : Minds time (parenthesized g) := by
  refine advance_answers.bind fun _ _ => (skip_minds _).bind fun _ _ => hg.expression.bind fun _ _ => ?_
  exact (skip_minds _).bind fun _ _ => (expect_answers _ _).bind fun _ _ => .pure trivial

theorem elseScope_minds (hg : g.Minds time) : Minds time (elseScope g) := by
  refine (accept_minds _).bind fun _ _ => .ite (previous_answers.bind fun t _ => ?_) (.pure trivial)
  exact (blockScope_minds hg _ _ t none).bind fun _ _ => .pure trivial

theorem ifExpression_minds (hg : g.Minds time) : Minds time (ifExpression g) := by
  refine advance_answers.bind fun keyword hkeyword => hg.expression.bind fun condition _ => ?_
  refine (blockScope_minds hg _ _ _ _).bind fun body _ => (elseScope_minds hg).bind fun otherwise _ => ?_
  refine (expect_answers _ _).bind fun _ _ => alloc_minds.bind fun out _ => ?_
  refine .ite_bind (R := fun _ => True) (equalityBranch_minds _ _ _ _ hkeyword) (.pure trivial)
    fun fused _ => ?_
  exact .ite (.pure trivial) ((emit_minds hkeyword (by nofun)).bind fun _ _ => .pure trivial)

theorem unlessExpression_minds (hg : g.Minds time) : Minds time (unlessExpression g) := by
  refine advance_answers.bind fun keyword hkeyword => hg.expression.bind fun condition _ => ?_
  refine (blockScope_minds hg _ _ _ _).bind fun body _ => (elseScope_minds hg).bind fun otherwise _ => ?_
  refine (expect_answers _ _).bind fun _ _ => alloc_minds.bind fun out _ => ?_
  cases otherwise with
  | some other => exact (emit_minds hkeyword (by nofun)).bind fun _ _ => .pure trivial
  | none =>
    refine (equalityBranch_minds _ _ _ _ hkeyword).bind fun _ _ => .ite (.pure trivial) ?_
    exact (emit_minds hkeyword (by nofun)).bind fun _ _ => .pure trivial

theorem doExpression_minds (hg : g.Minds time) : Minds time (doExpression g) := by
  refine advance_answers.bind fun keyword hkeyword => (blockScope_minds hg _ _ _ _).bind fun body _ => ?_
  exact (expect_answers _ _).bind fun _ _ => emitTo_minds hkeyword (by nofun) id

theorem tryBody_minds (hg : g.Minds time) {keyword : Token} (hkeyword : keyword.Placed) (blockForm : Bool) :
    Minds time (tryBody g keyword blockForm) := by
  refine .ite (blockScope_minds hg _ _ _ _) ((openScope_minds _ _ _ _ _).bind fun body _ => ?_)
  refine hg.expression.bind fun value _ => (emit_minds hkeyword (by nofun)).bind fun _ _ => ?_
  exact closeScope_minds.bind fun _ _ => .pure trivial

theorem tryExpression_minds (hg : g.Minds time) : Minds time (tryExpression g) := by
  refine advance_answers.bind fun keyword hkeyword => (checkAny_minds _).bind fun blockForm _ => ?_
  refine (tryBody_minds hg hkeyword blockForm).bind fun body _ => (accept_minds _).bind fun _ _ => ?_
  let rest (handler : Target × Option Text) : Compile Register := do
    let out ← alloc
    emit (.tryCatch (some body) handler.1 handler.2 out) keyword
    return out
  have hrest : ∀ handler, Minds time (rest handler) :=
    fun handler => emitTo_minds hkeyword (by nofun) id
  refine .ite ?_ (.ite ?_ ?_)
  · refine previous_answers.bind fun site _ => (check_minds _).bind fun _ _ => ?_
    have hcatch : ∀ errorName : Option Text, Minds time (do
        let handler ← blockScope g "<catch>" [.kwEnd] site errorName
        let _ ← expect .kwEnd "Expected 'end' to close 'catch'"
        let caught ← pure (some handler, errorName)
        rest caught) := fun errorName =>
      (blockScope_minds hg _ _ _ _).bind fun handler _ => (expect_answers _ _).bind fun _ _ =>
        Answers.bind (R := fun _ => True) (.pure trivial) fun h _ => hrest h
    refine .ite (advance_answers.bind fun t _ => ?_) ?_
    · exact Answers.bind (R := fun _ => True) (.pure trivial) fun errorName _ => hcatch errorName
    · exact Answers.bind (R := fun _ => True) (.pure trivial) fun errorName _ => hcatch errorName
  · refine (expect_answers _ _).bind fun _ _ => ?_
    exact Answers.bind (R := fun _ => True) (.pure trivial) fun h _ => hrest h
  · exact Answers.bind (R := fun _ => True) (.pure trivial) fun h _ => hrest h

theorem raiseExpression_minds (hg : g.Minds time) : Minds time (raiseExpression g) := by
  refine advance_answers.bind fun keyword hkeyword => hg.expression.bind fun value _ => ?_
  exact (emit_minds hkeyword (by nofun)).bind fun _ _ => .pure trivial

theorem returnExpression_minds (hg : g.Minds time) : Minds time (returnExpression g) := by
  refine advance_answers.bind fun keyword hkeyword => startsOperand_minds.bind fun _ _ => ?_
  refine .ite_bind hg.expression (.pure trivial) fun value _ => ?_
  exact (emit_minds hkeyword (by nofun)).bind fun _ _ => .pure trivial

theorem identifier_minds (hg : g.Minds time) : Minds time (identifier g) := by
  refine advance_answers.bind fun name hname => (lookup_minds _).bind fun found _ => ?_
  cases found with
  | some info =>
    refine alloc_minds.bind fun out _ => (emit_minds hname (by nofun)).bind fun _ _ => ?_
    refine .ite ((callArguments_minds hg).bind fun args _ => ?_) (.pure trivial)
    exact emitTo_minds hname (by nofun) fun r => (⟨r, none⟩ : Operand)
  | none =>
    have hcall : Minds time (do
        let args ← callArguments g
        let out ← alloc
        emit (.callFunction name.text args out) name
        return (⟨out, none⟩ : Operand)) :=
      (callArguments_minds hg).bind fun args _ => emitTo_minds hname (by nofun) fun r => (⟨r, none⟩ : Operand)
    refine (check_minds _).bind fun _ _ => (peekAt_answers 1).bind fun _ _ => .ite ?_ hcall
    refine advance_answers.bind fun _ _ => advance_answers.bind fun function _ => ?_
    exact (callArguments_minds hg).bind fun args _ => emitTo_minds hname (by nofun) fun r => (⟨r, none⟩ : Operand)

theorem plainOperand_minds {read : Compile Register} (h : Minds time read) :
    Minds time (plainOperand read) := h.bind fun _ _ => .pure trivial

theorem primary_minds (hg : g.Minds time) : Minds time (primary g) := by
  refine peek_answers.bind fun t ht => ?_
  split
  · refine advance_answers.bind fun _ _ => plainOperand_minds ((numberLiteral_minds t).bind fun n _ => ?_)
    exact loadLiteral_minds (.num n) ht
  · exact advance_answers.bind fun _ _ => plainOperand_minds (loadLiteral_minds (.str _) ht)
  · exact advance_answers.bind fun _ _ => plainOperand_minds (loadLiteral_minds (.bool _) ht)
  · exact advance_answers.bind fun _ _ => plainOperand_minds (loadLiteral_minds (.bool _) ht)
  · exact advance_answers.bind fun _ _ => .pure trivial
  · exact plainOperand_minds (listLiteral_minds hg)
  · exact plainOperand_minds (mapLiteral_minds hg)
  · exact plainOperand_minds (parenthesized_minds hg)
  · exact plainOperand_minds (ifExpression_minds hg)
  · exact plainOperand_minds (unlessExpression_minds hg)
  · exact plainOperand_minds (doExpression_minds hg)
  · exact plainOperand_minds (tryExpression_minds hg)
  · exact plainOperand_minds (raiseExpression_minds hg)
  · exact plainOperand_minds (returnExpression_minds hg)
  · exact plainOperand_minds (lambda_minds hg)
  · exact plainOperand_minds (lambda_minds hg)
  · exact identifier_minds hg
  · exact .fail _ t
  · exact .fail _ t

theorem methodCall_minds (hg : g.Minds time) (target : Operand) : Minds time (methodCall g target) := by
  refine advance_answers.bind fun dot hdot => (expect_answers _ _).bind fun method _ => ?_
  exact (callArguments_minds hg).bind fun args _ => emitTo_minds hdot (by nofun) fun r => (⟨r, none⟩ : Operand)

theorem indexing_minds (hg : g.Minds time) (target : Operand) : Minds time (indexing g target) := by
  refine advance_answers.bind fun site hsite => (skip_minds _).bind fun _ _ => ?_
  refine hg.expression.bind fun index _ => (skip_minds _).bind fun _ _ => (expect_answers _ _).bind fun _ _ => ?_
  exact emitTo_minds hsite (by nofun) fun r => (⟨r, none⟩ : Operand)

theorem valueCall_minds (hg : g.Minds time) (target : Operand) : Minds time (valueCall g target) := by
  refine peek_answers.bind fun site hsite => (callArguments_minds hg).bind fun args _ => ?_
  exact emitTo_minds hsite (by nofun) fun r => (⟨r, none⟩ : Operand)

theorem suffixes_minds (hg : g.Minds time) (target : Operand) : Minds time (suffixes g target) := by
  refine .whileReading (fun target _ => peek_answers.bind fun t _ => ?_) trivial
  refine .ite ((methodCall_minds hg target).bind fun _ _ => .pure trivial) ?_
  refine .ite ((indexing_minds hg target).bind fun _ _ => .pure trivial) ?_
  refine .ite ((valueCall_minds hg target).bind fun _ _ => .pure trivial) ?_
  refine (peekAt_answers 1).bind fun next _ => .ite ?_ (.pure trivial)
  refine advance_answers.bind fun bang hbang => advance_answers.bind fun _ _ => ?_
  exact (emit_minds hbang (by nofun)).bind fun _ _ => .pure trivial

theorem operand_minds (hg : g.Minds time) : Minds time (operand g) := by
  refine peek_answers.bind fun t ht => (peekAt_answers 1).bind fun next _ => .ite ?_ ?_
  · refine advance_answers.bind fun _ _ => advance_answers.bind fun number _ => ?_
    refine (numberLiteral_minds number).bind fun n _ => (loadLiteral_minds (.num _) ht).bind fun literal _ => ?_
    exact (suffixes_minds hg _).bind fun _ _ => .pure trivial
  split
  · refine advance_answers.bind fun _ _ => hg.operand.bind fun inner _ => emitTo_minds ht (by nofun) id
  · exact (primary_minds hg).bind fun target _ => (suffixes_minds hg target).bind fun _ _ => .pure trivial

theorem operatorStep_minds (hg : g.Minds time) (left : Register) : Minds time (operatorStep g left) := by
  refine peek_answers.bind fun t ht => ?_
  split
  · refine advance_answers.bind fun _ _ => typeName_minds.bind fun type _ => ?_
    exact emitTo_minds ht (by nofun) fun out => (out, true)
  · refine advance_answers.bind fun _ _ => hg.operand.bind fun stop _ => ?_
    exact emitTo_minds ht (by nofun) fun out => (out, true)
  · refine advance_answers.bind fun _ _ => hg.operand.bind fun stop _ => ?_
    exact emitTo_minds ht (by nofun) fun out => (out, true)
  · split
    · refine advance_answers.bind fun _ _ => (skip_minds _).bind fun _ _ => hg.operand.bind fun right _ => ?_
      exact emitTo_minds ht (by nofun) fun out => (out, true)
    · exact .pure trivial

theorem expression_minds (hg : g.Minds time) : Minds time (expression g) :=
  hg.operand.bind fun _ _ => .whileReading (fun left _ =>
    (operatorStep_minds hg left).imp fun _ _ => trivial) trivial

end Compile

end ScriptMachine
