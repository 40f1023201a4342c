import ScriptMachine.Proofs.Expression.Operators

set_option autoImplicit false

namespace ScriptMachine

open Phrase (Evaluation)

def EndsSource (t : Token) : Prop := t.kind = .finish

theorem EndsSource.endsExpression {t : Token} (h : EndsSource t) : EndsExpression t := by
  unfold EndsExpression
  rw [h]
  decide

namespace Compile

variable {d d' : Draft} {g : Grammar} {e : Phrase.Expression} {depth : Nat} {r : Register}
  {kinds : List TokenKind}

theorem checkAny_run (d : Draft) (kinds : List TokenKind) :
    checkAny kinds d = .ok (kinds.contains d.next.kind) d := rfl

theorem guards_run (h : EndsSource d.next) (start : Nat) (r : Register) :
    guards g start r d = .ok r d := by
  have hnone : checkAny [.kwIf, .kwUnless] d = .ok false d := by
    rw [checkAny_run, h]
    rfl
  refine whileReading_run ?_
  rw [run_bind hnone]
  rfl

theorem endStatement_run (h : EndsSource d.next) : endStatement d = .ok ⟨⟩ d := by
  have hnewline : d.next.kind ≠ .newline := by rw [h]; decide
  have hsemicolon : d.next.kind ≠ .semicolon := by rw [h]; decide
  have hends : checkAny [.finish, .kwEnd, .kwElse, .kwCatch] d = .ok true d := by
    rw [checkAny_run, h]
    rfl
  unfold endStatement
  rw [run_bind (accept_refuses hnewline), if_neg Bool.false_ne_true,
    run_bind (accept_refuses hsemicolon), if_neg Bool.false_ne_true, run_bind hends]
  rfl

theorem statement_opens (h : d.next.kind ∈ openingKinds) :
    statement g d = simpleStatement g d := by
  unfold openingKinds at h
  simp only [List.mem_cons, List.not_mem_nil, or_false] at h
  unfold statement
  rw [run_bind (peek_run d)]
  rcases h with h | h | h | h | h | h | h | h | h | h | h <;> rw [h]

/-- An expression is a statement. -/
theorem statement_reads (hdepth : 2 * e.tokens.length + 1 < depth) :
    Reads (grammar depth).statement e.tokens EndsSource e.evaluate Holds := by
  intro d rest hd ha hends
  obtain ⟨n, rfl⟩ := Nat.exists_eq_add_of_le' (Nat.lt_of_le_of_lt (Nat.zero_le _) hdepth)
  obtain ⟨t, ts, ht, hopens⟩ := e.opens
  have hnext : d.next = t := Draft.next_eq (ha.trans (congrArg (· ++ rest) ht))
  rw [← hnext] at hopens
  have hputs : d.next.kind ≠ .kwPuts := fun hk => absurd (hk ▸ hopens) (by decide)
  have hlog : d.next.kind ≠ .kwLog := fun hk => absurd (hk ▸ hopens) (by decide)
  have hsize : ∃ size, codeSize d = .ok size d := ⟨_, rfl⟩
  obtain ⟨size, hsize⟩ := hsize
  obtain ⟨r, d', hrun, hcarried⟩ := expression_reads _ (Nat.lt_of_succ_lt_succ hdepth)
    (Expression.loops e) d rest hd ha hends.endsExpression
  refine ⟨r, d', ?_, hcarried⟩
  change statement (grammar n) d = _
  rw [statement_opens hopens]
  unfold simpleStatement
  rw [run_bind (peek_run d), run_bind hsize, run_bind (accept_refuses hputs),
    if_neg Bool.false_ne_true, run_bind (accept_refuses hlog), if_neg Bool.false_ne_true,
    run_bind hrun]
  exact guards_run (hcarried.next ▸ hends) size r

/-- A source that is one statement. -/
theorem block_reads (h : Reads g.statement e.tokens EndsSource e.evaluate Holds) :
    Reads (block g []) e.tokens EndsSource e.evaluate Holds := by
  intro d rest hd ha hends
  obtain ⟨r, d', hrun, hcarried⟩ := h d rest hd ha hends
  obtain ⟨t, ts, ht, hopens⟩ := e.opens
  have ha : d.ahead = t :: (ts ++ rest) := ha.trans (congrArg (· ++ rest) ht)
  rw [← Draft.next_eq ha] at hopens
  have hkinds : ∀ k ∈ openingKinds, k ∉ [TokenKind.newline, .semicolon] ∧
      [TokenKind.finish].contains k = false := by decide
  obtain ⟨hseparator, hfinish⟩ := hkinds _ hopens
  have hnext : EndsSource d'.next := hcarried.next ▸ hends
  have hseparator' : d'.next.kind ∉ [TokenKind.newline, .semicolon] := by rw [hnext]; decide
  have hfirst : checkAny [.finish] d = .ok false d := by rw [checkAny_run, hfinish]
  have hlast : checkAny [.finish] d' = .ok true d' := by
    rw [checkAny_run, hnext]
    rfl
  have hskip : skipSeparators d = .ok ⟨⟩ d := skip_run hseparator
  have hskip' : skipSeparators d' = .ok ⟨⟩ d' := skip_run hseparator'
  refine ⟨r, d', ?_, hcarried⟩
  unfold block
  rw [run_bind hskip, whileReading_eq, ha, List.length_cons, loop, bind_assoc, run_bind hfirst,
    if_neg Bool.false_ne_true, bind_assoc, run_bind hrun, bind_assoc,
    run_bind (endStatement_run hnext), bind_assoc, run_bind hskip', pure_bind]
  dsimp only
  rw [if_pos rfl, loop, bind_assoc, run_bind hlast, if_pos rfl]
  rfl

theorem program_scope (h : d.current < d.program.scopes.size) :
    d.program.scope (some d.current) = .ok d.scope := by
  unfold Program.scope Draft.scope
  dsimp only
  rw [Array.getElem?_eq_getElem h]
  rfl

/-- A program that has no scope yet gets its top level. -/
theorem openMain_run (h : d.program.scopes = #[]) (name : Text) (site : Token) :
    ∃ d', openScope .main name false false site d = .ok 0 d' ∧ d'.Ready ∧ d'.ahead = d.ahead ∧
      d'.final = d.final ∧ d'.current = 0 ∧ d'.program.scopes.size = 1 ∧ d'.count = firstScratch ∧
      d'.scope.code = #[] := by
  have hsize : d.program.scopes.size = 0 := by rw [h]; rfl
  have hrun : ∃ d', openScope .main name false false site d = .ok d.program.scopes.size d' ∧
      d'.program.scopes = d.program.scopes.push ⟨name, .main, [], #[], firstScratch, place site, [], none⟩ ∧
      d'.current = d.program.scopes.size ∧ d'.ahead = d.ahead ∧ d'.final = d.final :=
    ⟨_, rfl, rfl, rfl, rfl, rfl⟩
  obtain ⟨d', hrun, hscopes, hcurrent, hahead, hfinal⟩ := hrun
  rw [hsize] at hrun hcurrent
  have hscope : d'.scope = ⟨name, .main, [], #[], firstScratch, place site, [], none⟩ := by
    unfold Draft.scope
    rw [hscopes, hcurrent, h]
    rfl
  have hone : d'.program.scopes.size = 1 := by
    rw [hscopes, h]
    rfl
  have hcount : d'.count = firstScratch := by
    unfold Draft.count
    rw [hscope]
  refine ⟨d', hrun, ⟨?_, Nat.le_of_eq hcount.symm⟩, hahead, hfinal, hcurrent, hone, hcount, ?_⟩
  · rw [hcurrent, hone]
    exact Nat.zero_lt_one
  · rw [hscope]

theorem wholeProgram_run {finish : Token} (hempty : d.program.scopes = #[])
    (ha : d.ahead = e.tokens ++ [finish]) (hfinish : EndsSource finish)
    (h : Reads g.statement e.tokens EndsSource e.evaluate Holds) :
    ∃ d' scope code r, wholeProgram g d = .ok ⟨⟩ d' ∧ d'.program.scope (some 0) = .ok scope ∧
      scope.code.toList = code ++ [⟨.halt r, place finish⟩] ∧
      Evaluates code firstScratch scope.registerCount (fun _ => True) e.evaluate (Holds r) := by
  obtain ⟨d₁, hopen, hready, hahead, hfinal, hcurrent, hsize, hcount, hcode⟩ :=
    openMain_run hempty "<main>" d.next
  obtain ⟨r, d₂, hblock, hcarried⟩ := block_reads h d₁ [finish] hready (hahead.trans ha) hfinish
  obtain ⟨code, hwrote, he⟩ := hcarried.written
  have hready₂ := hcarried.ready hready
  have hnext : d₂.next = finish := Draft.next_eq hcarried.ahead
  have hend : isAtEnd d₂ = .ok true d₂ := by
    have hkind : d₂.next.kind = .finish := hnext ▸ hfinish
    change EStateM.Result.ok (decide (d₂.next.kind = .finish)) d₂ = _
    rw [decide_eq_true hkind]
  have hcurrent₂ : d₂.current = 0 := by
    unfold Draft.current Draft.openScopes
    rw [hwrote.opened]
    exact hcurrent
  have hscope := scope_rewrite hready₂ (append (.halt r) finish)
  refine ⟨{ d₂.rewrite (append (.halt r) finish) with opened := d₂.opened.tail },
    append (.halt r) finish d₂.scope, code, r, ?_, ?_, ?_, ?_⟩
  · unfold wholeProgram
    rw [run_bind (peek_run d), run_bind hopen, run_bind hblock, run_bind hend, if_pos rfl,
      run_bind (peek_run d₂), hnext, run_bind (emit_run _ _ _)]
    rfl
  · rw [← hscope, ← hcurrent₂]
    refine program_scope (d := d₂.rewrite _) ?_
    exact Nat.lt_of_lt_of_eq hready₂.inside Array.size_modify.symm
  · change (d₂.scope.code.push _).toList = _
    rw [Array.toList_push, hwrote.code, hcode]
    rfl
  · rw [hcount] at he
    exact he

end Compile

/-- The tokens of an expression and an end token make a program of one scope. -/
theorem compileTokens_expression (builtins : Option Registry) (id : Nat) (e : Phrase.Expression)
    {finish : Token} (hfinish : finish.kind = .finish) :
    ∃ p scope code r, compileTokens builtins id (e.tokens ++ [finish]) = .ok p ∧
      p.scope (some 0) = .ok scope ∧ scope.code.toList = code ++ [⟨.halt r, Compile.place finish⟩] ∧
      Evaluates code firstScratch scope.registerCount (fun _ => True) e.evaluate (Holds r) := by
  have hlast : withEndToken (e.tokens ++ [finish]) = (e.tokens ++ [finish], finish) := by
    unfold withEndToken
    rw [List.getLast?_concat]
    exact if_pos hfinish
  have hdepth : 2 * e.tokens.length + 1 < 4 * ((e.tokens ++ [finish]).length + 1) := by
    rw [List.length_append]
    omega
  obtain ⟨d', scope, code, r, hrun, hrest⟩ := Compile.wholeProgram_run
    (d := ⟨e.tokens ++ [finish], none, finish, builtins, ⟨id, #[], .empty, [], #[], []⟩, [], "<main>"⟩)
    rfl rfl hfinish (Compile.statement_reads hdepth)
  refine ⟨d'.program, scope, code, r, ?_, hrest⟩
  unfold compileTokens EStateM.run
  rw [hlast]
  dsimp only
  rw [hrun]

end ScriptMachine
