import ScriptMachine.Proofs.Compiler.ProgressExpressions
import ScriptMachine.Compiler.Source

set_option autoImplicit false

/-!
# Compilation ends

An operand reads a token before the grammar recurs; an expression may only begin with an operand, and a
statement only with an expression. So three levels of the grammar cost at least one token, and the depth that
the compiler allows is never used up. Every loop reads a token between two of its rounds, and nothing is read
past an end token.
-/
namespace ScriptMachine

namespace Compile

variable {g : Grammar} {n : Nat} {t : Token}

theorem functionBody_ends (hg : g.Settled n) (h : Header) : Ends n (functionBody g h) := by
  refine within_ends _ (.look (looks_openScope _ _ _ _ _) fun scope => ?_)
  refine .look (looks_declareParams scope _) fun _ => ?_
  have hbody : Ends n (do
      functionStatements g
      closeScope
      return scope) :=
    .bind (functionStatements_ends hg) fun _ => .look looks_closeScope fun _ => .done scope
  exact .ite (.look (looks_declare _ _) fun _ => hbody) hbody

theorem functionDefinition_consumes (hg : g.Settled n) : Consumes (n + 1) (functionDefinition g) :=
  .bind tags_ends fun tags => (header_consumes tags none).consume fun h =>
    .bind (functionBody_ends hg h) fun _ => .of_looks (looks_register _) fun _ => id

theorem nestedFunction_consumes (hg : g.Settled n) : Consumes (n + 1) (nestedFunction g) := by
  refine (header_consumes [] none).consume fun h => .ite (.fail _ h.token) ?_
  refine .bind (closureBody_ends hg h _ false) fun closure => .look looks_alloc fun out => ?_
  refine .look (looks_emit _ h.token) fun _ => .look (looks_emit _ h.token) fun _ => ?_
  exact .look (looks_declareAs _ _) fun _ => .done _

theorem looks_isDeclarationOnly : Looks isDeclarationOnly := fun d => .refl d

theorem traitMember_consumes (hg : g.Settled n) (owner : Text) : Consumes n (traitMember g owner) := by
  refine .bind tags_ends fun tags => (header_consumes tags none).reading fun h => ?_
  refine .look looks_isDeclarationOnly fun _ => .ite (.bind endStatement_ends fun _ => .done _) ?_
  exact .bind (functionBody_ends hg h) fun _ => .done _

theorem looks_implementAt (owner : Text) (f : Function) (site : Token) : Looks (implementAt owner f site) := by
  refine .bind .get fun d => ?_
  split
  · exact looks_modifyProgram _
  · exact .fail _ site

theorem implMember_consumes (hg : g.Settled n) (owner : Text) : Consumes n (implMember g owner) :=
  .bind tags_ends fun tags => (header_consumes tags none).reading fun h =>
    .bind (functionBody_ends hg h) fun _ => .of_looks (looks_implementAt _ _ _) fun _ => id

theorem field_ends : Ends n field := by
  refine .bind (expect_consumes (by decide) _) fun name => .bind typeAnnotation_ends fun type => ?_
  have hend : ∀ default : Option Value, Ends n (do
      endStatement
      return (⟨name.text, type, default⟩ : Field)) := fun _ => .bind endStatement_ends fun _ => .done _
  exact .accept (by decide) (.bind literalValue_ends fun _ => hend _) (hend none)

theorem objectMember_consumes (hg : g.Settled n) (owner : Text) (fields : List Field) :
    Consumes n (objectMember g owner fields) := by
  refine .accept (by decide) (.bind_pure field_ends fun _ => id) ?_
  refine .look (looks_checkAny _) fun _ => .ite ?_ (.look looks_peek fun t => .fail _ t)
  refine .bind tags_ends fun tags => (header_consumes tags _).reading fun h => ?_
  exact .bind (functionBody_ends hg h) fun _ => .look (looks_register _) fun _ => .done fields

/-- A member with the separators behind it, unless the members end. -/
def memberRound {α : Type} (what : Text) (member : α → Compile α) (a : α) : Compile (α × Bool) := do
  if ← check .kwEnd then return (a, false)
  else if ← isAtEnd then fail ("Expected 'end' to close " ++ what) (← peek)
  else
    let a ← member a
    skipSeparators
    return (a, true)

theorem members_eq {α : Type} (a : α) (what : Text) (member : α → Compile α) : members a what member = (do
    skipSeparators
    let a ← whileReading a (memberRound what member)
    let _ ← advance
    return a) := rfl

theorem memberRound_rounds {α : Type} (what : Text) {member : α → Compile α} (h : ∀ a, Consumes n (member a)) :
    Rounds n (memberRound what member) := by
  refine fun a => .look (looks_check _) fun _ => .ite (.pure Bool.false_ne_true) ?_
  refine .look looks_isAtEnd fun _ => .ite (.look looks_peek fun t => .fail _ t) ?_
  exact (h a).reading fun a => .bind skipSeparators_ends fun _ => .done _

theorem members_ends {α : Type} (a : α) (what : Text) {member : α → Compile α}
    (h : ∀ a, Consumes n (member a)) : Ends n (members a what member) := by
  rw [members_eq]
  refine .bind skipSeparators_ends fun _ => .bind (whileReading_ends (memberRound_rounds what h) a) fun a => ?_
  exact .bind advance_ends fun _ => .done a

/-- A member of a trait, put before those found so far. -/
def traitRound (g : Grammar) (owner : Text) (found : List ((Text × Signature) × Option Function)) :
    Compile (List ((Text × Signature) × Option Function)) := do return (← traitMember g owner) :: found

theorem traitRound_consumes (hg : g.Settled n) (owner : Text)
    (found : List ((Text × Signature) × Option Function)) : Consumes n (traitRound g owner found) :=
  (traitMember_consumes hg owner).bind_pure fun _ => id

theorem traitDeclaration_consumes (hg : g.Settled n) (ht : t.kind ≠ .finish) :
    Advances (n + 1) (· = t) (fun _ => True) (traitDeclaration g) := by
  refine (advance_known ht).consume fun _ => .bind (expect_consumes (by decide) _) fun name => ?_
  refine .bind (members_ends [] _ (traitRound_consumes hg name.text)) fun found => ?_
  exact .look (looks_register _) fun _ => .of_looks (looks_forM (fun _ => looks_register _) _) fun _ => id

theorem looks_adoptTrait (name : Text) : Looks (adoptTrait name) := by
  refine .bind .get fun d => ?_
  split
  · exact looks_register _
  · exact .pure ()

theorem implBlock_consumes (hg : g.Settled n) (ht : t.kind ≠ .finish) :
    Advances (n + 1) (· = t) (fun _ => True) (implBlock g) := by
  refine (advance_known ht).consume fun _ => .bind (expect_consumes (by decide) _) fun name => ?_
  refine .look (looks_adoptTrait _) fun _ => .look .get fun d => .ite (.fail _ name) ?_
  exact members_ends () _ fun _ => implMember_consumes hg name.text

theorem objectDeclaration_consumes (hg : g.Settled n) (ht : t.kind ≠ .finish) :
    Advances (n + 1) (· = t) (fun _ => True) (objectDeclaration g) := by
  refine (advance_known ht).consume fun _ => .bind (expect_consumes (by decide) _) fun name => ?_
  refine .ite (.fail _ name) (.bind (members_ends [] _ (objectMember_consumes hg name.text)) fun fields => ?_)
  exact .look .get fun d => .look (looks_modifyProgram _) fun _ => .of_looks (looks_register _) fun _ => id

theorem importStatement_consumes (ht : t.kind ≠ .finish) :
    Advances (n + 1) (· = t) (fun _ => True) importStatement := by
  refine (advance_known ht).consume fun _ => .bind (expect_consumes (by decide) _) fun name => ?_
  exact .look .get fun d => .ite (.of_looks (looks_modifyProgram _) fun _ => id) (.fail _ name)

theorem binding_consumes (hg : g.Settled n) (isMutable : Bool) (ht : t.kind ≠ .finish) :
    Advances (n + 1) (· = t) (fun _ => True) (binding g isMutable) := by
  refine (advance_known ht).consume fun keyword => .bind (expect_consumes (by decide) _) fun name => ?_
  refine .bind (expect_consumes (by decide) _) fun _ => .bind (guardedExpression_consumes hg) fun value => ?_
  exact .look (looks_emit _ keyword) fun _ => .look (looks_declare _ _) fun _ => .done value

theorem assignment_consumes (hg : g.Settled n) (ht : t.kind ≠ .finish) :
    Advances (n + 1) (· = t) (fun _ => True) (assignment g) := by
  refine (advance_known ht).consume fun name => .bind advance_ends fun _ => ?_
  refine .look (looks_lookup _) fun found => ?_
  cases found with
  | some info =>
    refine .ite (.fail _ name) (.bind (guardedExpression_consumes hg) fun value => ?_)
    exact .look (looks_emit _ name) fun _ => .done value
  | none =>
    refine .bind (guardedExpression_consumes hg) fun value => .look (looks_emit _ name) fun _ => ?_
    exact .look (looks_declare _ _) fun _ => .done value

theorem compoundAssignment_consumes (hg : g.Settled n) (op : BinaryOp) (ht : t.kind ≠ .finish) :
    Advances (n + 1) (· = t) (fun _ => True) (compoundAssignment g op) := by
  refine (advance_known ht).consume fun name => .bind advance_ends fun sign => ?_
  refine .look (looks_lookup _) fun found => ?_
  cases found with
  | none => exact .fail _ name
  | some info =>
    refine .ite (.fail _ name) (.look looks_alloc fun current => .look (looks_emit _ name) fun _ => ?_)
    refine .bind (guardedExpression_consumes hg) fun right => .look looks_alloc fun out => ?_
    exact .look (looks_emit _ sign) fun _ => .look (looks_emit _ name) fun _ => .done out

theorem putsStatement_ends (hg : g.Settled n) (keyword : Token) : Ends n (putsStatement g keyword) := by
  have hrest : ∀ values : List Register, Ends n (do
      emit (.puts values) keyword
      return noneRegister) := fun values => .look (looks_emit _ keyword) fun _ => .done _
  refine .look looks_startsOperand fun _ => .ite ?_ (hrest [])
  exact .bind (commaSeparated_ends (lineItem_ends hg)) hrest

theorem logStatement_ends (hg : g.Settled n) (keyword : Token) : Ends n (logStatement g keyword) := by
  refine .bind (expect_consumes (by decide) _) fun level => ?_
  split
  · exact .fail _ level
  · rename_i l _
    refine .bind (expect_consumes (by decide) _) fun _ => ?_
    refine .bind (expect_consumes (by decide) _) fun template => ?_
    have hrest : ∀ values : List Register, Ends n (do
        emit (.log l template.text values) keyword
        return noneRegister) := fun values => .look (looks_emit _ keyword) fun _ => .done _
    exact .accept (by decide) (.bind (commaSeparated_ends (lineItem_ends hg)) hrest) (hrest [])

theorem simpleStatement_consumes (hexpression : Consumes (n + 1) g.expression) (hg : g.Settled n) :
    Consumes (n + 1) (simpleStatement g) := by
  refine .look looks_peek fun t => .look looks_codeSize fun start => ?_
  refine .accept_less (by decide) (.bind (putsStatement_ends hg t) fun value => guards_ends hg start value) ?_
  refine .accept_less (by decide) (.bind (logStatement_ends hg t) fun value => guards_ends hg start value) ?_
  exact hexpression.consume fun value => guards_ends hg start value

theorem topLevel_consumes {P : Token → Prop} {declaration : Compile Unit} (site : Token) (what : Text)
    (h : Advances n P (fun _ => True) declaration) :
    Advances n P (fun _ => True) (topLevel site what declaration) :=
  .look (looks_requireTopLevel site what) fun _ => h.bind_pure fun _ => id

/-- Before anything of a statement but a leading expression recurs, a token has been read. -/
theorem statement_consumes (hexpression : Consumes (n + 1) g.expression) (hg : g.Settled n) :
    Consumes (n + 1) (statement g) := by
  refine .peek fun t _ => ?_
  have hsimple : Advances (n + 1) (· = t) (fun _ => True) (simpleStatement g) :=
    (simpleStatement_consumes hexpression hg).anywhere
  split <;> rename_i hkind
  all_goals try have ht : t.kind ≠ .finish := by simp [hkind]
  · exact binding_consumes hg false ht
  · exact binding_consumes hg true ht
  · refine .look looks_atTopLevel fun _ => .ite ?_ (nestedFunction_consumes hg).anywhere
    exact (functionDefinition_consumes hg).anywhere.bind_pure fun _ => id
  · exact topLevel_consumes t _ (functionDefinition_consumes hg).anywhere
  · exact topLevel_consumes t _ (traitDeclaration_consumes hg ht)
  · exact topLevel_consumes t _ (implBlock_consumes hg ht)
  · exact topLevel_consumes t _ (objectDeclaration_consumes hg ht)
  · exact topLevel_consumes t _ (importStatement_consumes ht)
  · refine .look (looks_peekAt 1) fun next => .ite (assignment_consumes hg ht) ?_
    split
    · exact compoundAssignment_consumes hg _ ht
    · exact hsimple
  · exact hsimple

end Compile

namespace Grammar

open Compile

variable {g : Grammar} {n : Nat}

def above (g : Grammar) : Grammar := ⟨Compile.expression g, Compile.operand g, Compile.statement g⟩

theorem settled_zero (g : Grammar) : g.Settled 0 where
  expression _ _ hlength := absurd hlength (Nat.not_lt_zero _)
  operand _ _ hlength := absurd hlength (Nat.not_lt_zero _)
  statement _ _ hlength := absurd hlength (Nat.not_lt_zero _)

theorem Settled.less (hg : g.Settled (n + 1)) : g.Settled n :=
  ⟨hg.expression.less, hg.operand.less, hg.statement.less⟩

theorem Settled.above (hg : g.Settled n) : g.above.Settled n := by
  cases n with
  | zero => exact settled_zero _
  | succ n =>
    refine ⟨?_, (operand_consumes hg).less, ?_⟩
    · exact expression_consumes hg.operand hg.less
    · exact statement_consumes hg.expression hg.less

/-- Three levels of the grammar cost a token: one brings the operands, one the expressions that begin with
them, and one the statements that begin with those. -/
theorem Settled.above_three (hg : g.Settled n) : g.above.above.above.Settled (n + 1) := by
  have hfirst := hg.above
  have hsecond := hfirst.above
  have hoperand : Consumes (n + 1) g.above.operand := operand_consumes hg
  have hexpression : Consumes (n + 1) g.above.above.expression := expression_consumes hoperand hfirst
  refine ⟨?_, operand_consumes hsecond, statement_consumes hexpression hsecond⟩
  exact expression_consumes (operand_consumes hfirst) hsecond

end Grammar

namespace Compile

variable {g : Grammar} {n : Nat}

theorem grammar_succ (depth : Nat) : grammar (depth + 1) = (grammar depth).above := rfl

theorem grammar_settled {depth : Nat} (h : 3 * n ≤ depth) : (grammar depth).Settled n := by
  induction n generalizing depth with
  | zero => exact Grammar.settled_zero _
  | succ n ih =>
    obtain ⟨outer, rfl⟩ : ∃ outer, depth = outer + 3 := ⟨depth - 3, by omega⟩
    have hdepth : 3 * n ≤ outer := by omega
    rw [grammar_succ, grammar_succ, grammar_succ]
    exact (ih hdepth).above_three

/-- What each loop of the compiler repeats. -/
inductive Round (g : Grammar) : {α : Type} → (α → Compile (α × Bool)) → Prop where
  | statements (terminators : List TokenKind) : Round g (blockRound g terminators)
  | conditions (start : Nat) : Round g (guardRound g start)
  | operators : Round g (operatorStep g)
  | suffixes : Round g (suffixRound g)
  | list : Round g (itemRound .rbracket g.expression)
  | map : Round g (itemRound .rbrace (mapEntry g))
  | arguments : Round g (commaRound (argumentItem g))
  | values : Round g (commaRound (lineItem g))
  | parameters : Round g parameterRound
  | tags : Round g tagRound
  | tagArguments : Round g (commaRound literalValue)
  | trait (what owner : Text) : Round g (memberRound what (traitRound g owner))
  | impl (what owner : Text) : Round g (memberRound what fun _ : Unit => implMember g owner)
  | object (what owner : Text) : Round g (memberRound what (objectMember g owner))

theorem Round.rounds {α : Type} {step : α → Compile (α × Bool)} (h : Round g step) (hg : g.Settled n) :
    Rounds n step := by
  cases h with
  | statements terminators => exact blockRound_rounds hg terminators
  | conditions start => exact guardRound_rounds hg start
  | operators => exact operatorStep_rounds hg
  | suffixes => exact suffixRound_rounds hg
  | list => exact itemRound_rounds _ hg.expression.ends
  | map => exact itemRound_rounds _ (mapEntry_ends hg)
  | arguments => exact commaRound_rounds (argumentItem_ends hg)
  | values => exact commaRound_rounds (lineItem_ends hg)
  | parameters => exact parameterRound_rounds
  | tags => exact tagRound_rounds
  | tagArguments => exact commaRound_rounds literalValue_ends
  | trait what owner => exact memberRound_rounds what (traitRound_consumes hg owner)
  | impl what owner => exact memberRound_rounds what fun _ => implMember_consumes hg owner
  | object what owner => exact memberRound_rounds what (objectMember_consumes hg owner)

theorem wholeProgram_ends (hg : g.Settled n) : Ends n (wholeProgram g) := by
  refine .look looks_peek fun t => .look (looks_openScope _ _ _ _ _) fun _ => ?_
  refine .bind (block_ends hg []) fun last => .look looks_isAtEnd fun _ => .ite ?_ ?_
  · refine .look looks_peek fun t => .look (looks_emit _ t) fun _ => ?_
    exact .of_looks looks_closeScope fun _ => id
  · exact .look looks_peek fun t => .fail _ t

end Compile

theorem withEndToken_final (tokens : List Token) : (withEndToken tokens).2.kind = .finish := by
  unfold withEndToken
  split
  · rfl
  · dsimp only
    split
    · assumption
    · rfl

open Compile

/-- The draft with which the compilation of a token list begins. -/
def Draft.initial (builtins : Option Registry) (id : Nat) (tokens : List Token) : Draft :=
  ⟨(withEndToken tokens).1, none, (withEndToken tokens).2, builtins, ⟨id, #[], .empty, [], #[], []⟩, [],
    "<main>"⟩

/-- The levels of recursion that the compiler allows for a token list. -/
def recursionDepth (tokens : List Token) : Nat := 4 * ((withEndToken tokens).1.length + 1)

theorem compileTokens_eq (builtins : Option Registry) (id : Nat) (tokens : List Token) :
    compileTokens builtins id tokens =
      match (wholeProgram (grammar (recursionDepth tokens))).run (.initial builtins id tokens) with
      | .ok _ d => .ok d.program
      | .error e _ => .error e := rfl

/-- How the compilation of a token list comes to an end. -/
structure Terminates (builtins : Option Registry) (id : Nat) (tokens : List Token) : Prop where
  /-- There is a program or an error, and the error is not that a bound has been reached. -/
  answers : (∃ p, compileTokens builtins id tokens = .ok p) ∨
    ∃ e, compileTokens builtins id tokens = .error e ∧ e ≠ .exhausted
  /-- However it ends, no end token has been read. -/
  cursor : Ensures (wholeProgram (grammar (recursionDepth tokens))) (.initial builtins id tokens)
    (fun _ d => (Draft.initial builtins id tokens).ReadsOn d)
    fun _ d => (Draft.initial builtins id tokens).ReadsOn d
  /-- Moving on and skipping stop at an end token, and what is skipped for a look ahead is put back. -/
  moves : ∀ n, Ends n advance ∧ Ends n skipNewlines ∧ Ends n skipSeparators ∧ Looks isDeclarationOnly
  /-- Between two rounds of a loop a token is read. -/
  rounds : ∀ n depth, 3 * n ≤ depth → ∀ {α : Type} (step : α → Compile (α × Bool)),
    Round (grammar depth) step → Rounds n step
  /-- An operand reads a token before anything recurs. An expression may begin with an operand, and a statement
  with an expression, but before anything else recurs they have read a token as well. -/
  recursion : ∀ n (g : Grammar), g.Settled n → Consumes (n + 1) (operand g) ∧
    (Consumes (n + 1) g.operand → Consumes (n + 1) (expression g)) ∧
    (Consumes (n + 1) g.expression → Consumes (n + 1) (statement g))

/-- Every list of tokens, in whatever order and with or without an end token, is compiled or refused. -/
theorem compileTokens_terminates (builtins : Option Registry) (id : Nat) (tokens : List Token) :
    Terminates builtins id tokens := by
  have hdepth : 3 * ((withEndToken tokens).1.length + 1) ≤ recursionDepth tokens := by
    unfold recursionDepth
    omega
  have hrun := wholeProgram_ends (grammar_settled hdepth) (.initial builtins id tokens)
    (withEndToken_final tokens) (Nat.lt_succ_self _) trivial
  refine ⟨?_, hrun.mono (fun _ _ h => h.1) fun _ _ h => h.2, ?_, ?_, ?_⟩
  · rw [compileTokens_eq]
    cases h : wholeProgram (grammar (recursionDepth tokens)) (.initial builtins id tokens) with
    | ok _ d =>
      left
      exact ⟨d.program, by rw [EStateM.run, h]⟩
    | error e d =>
      right
      exact ⟨e, by rw [EStateM.run, h], (hrun.of_error h).1⟩
  · exact fun n => ⟨advance_ends, skipNewlines_ends, skipSeparators_ends, looks_isDeclarationOnly⟩
  · exact fun n depth hn _ step hround => hround.rounds (grammar_settled hn)
  · intro n g hg
    exact ⟨operand_consumes hg, fun h => expression_consumes h hg, fun h => statement_consumes h hg⟩

end ScriptMachine
