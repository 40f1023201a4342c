import ScriptMachine.Proofs.Compiler.Enclosure
import ScriptMachine.Proofs.Compiler.Headers

set_option autoImplicit false

namespace ScriptMachine

namespace Compile

variable {bound : List (List Text)} {d₀ d d₁ d₂ d' : Draft} {α β : Type} {x : Compile α}
  {f : α → Compile β} {Q : β → Draft → Prop} {g : Grammar} {names names' : List Text} {i start : Nat}

/-- The recursive parts of a grammar resolve names, and only statements declare any. -/
structure Resolving (g : Grammar) : Prop where
  expression : Follows Composes g.expression
  operand : Follows Composes g.operand
  statement : Follows Grows g.statement

theorem Grown.next (c : Grown bound d₀ d) (hx : Follows Grows x)
    (hf : ∀ a d', Grown bound d₀ d' → Post (f a) d' Q) : Post (x >>= f) d Q :=
  Ensures.bind (hx d) fun a d' h => hf a d' (c.trans (h bound c.tidy))

theorem Composed.use {op : Operation} {name : Text} (c : Composed bound d₀ d) (site : Token)
    (hd : op.declares? = none) (hu : op.uses? = some name) (he : op.entries = []) (hm : op.made = [])
    (hl : op.literal? = none) (h : (d.whole bound name).isSome) :
    Post (emit op site) d fun _ d' => Composed bound d₀ d' :=
  (emit_composed c.tidy site hd (resolved_of_use hu he hm hl h)).imp fun _ _ h' => c.trans h'

theorem Composed.enter {op : Operation} (c : Composed bound d₀ d) (site : Token) (hop : op.Bare)
    (he : ∀ e ∈ op.entries, ∀ b ∈ e.1, Ready bound d b e.2) :
    Post (emit op site) d fun _ d' => Composed bound d₀ d' :=
  (emit_composed c.tidy site hop.declares
    (resolved_of_ready hop.uses hop.made hop.literal he)).imp fun _ _ h' => c.trans h'

theorem Composed.enterFor {op : Register → Operation} (c : Composed bound d₀ d) (site : Token)
    (hop : ∀ out, (op out).Bare)
    (he : ∀ out, ∀ e ∈ (op out).entries, ∀ b ∈ e.1, Ready bound d b e.2) :
    Post (do let out ← alloc; emit (op out) site; return out) d fun _ d' => Composed bound d₀ d' :=
  c.next alloc_follows fun out _ c₁ c' => Ensures.bind
    (c₁.enter site (hop out) fun e hmem b hb => (he out e hmem b hb).later c.tidy c')
    fun _ _ c₂ => Ensures.pure c₂

theorem equalityBranch_composed (ht : Tidy bound d) {condition out : Register} (truth : Bool)
    (hready : Ready bound d i fun _ => []) (site : Token) :
    Post (equalityBranch condition truth i out site) d fun _ d' => Composed bound d d' := by
  have hstay : Post (pure false) d fun _ d' => Composed bound d d' := Ensures.pure (.refl ht)
  unfold equalityBranch
  refine Ensures.run (currentScope_eq d) ?_
  refine Ensures.run (show scopeAt d.current d = .ok d.scope d from rfl) ?_
  split
  · rename_i op left right target l hback
    split
    · obtain ⟨before, hlast⟩ := back_operations hback
      have hcode : d.code = before ++ [.binary op left right target] := hlast
      have hdropped : (dropLast d.scope).operations = before := by
        rw [dropLast_operations, hlast, List.dropLast_concat]
      have c : Composed bound d (d.rewrite dropLast) := by
        refine composed_rewrite ht (fun k => ?_) rfl rfl fun k o ho => ?_
        · rw [hdropped, hcode, declaredAt_append]
          split
          · subst k
            exact Locals.declaredAt_of_le (Nat.le_refl _)
          · rfl
        · refine ht.code k o ?_
          rw [ht.layered.standing_scope, ← Draft.code_eq, hcode]
          rw [hdropped] at ho
          rwa [List.getElem?_append_left (List.getElem?_eq_some_iff.1 ho).1]
      refine Ensures.run (show modifyScope d.current dropLast d = .ok () (d.rewrite dropLast) from rfl) ?_
      refine c.next (emit_follows (Operation.Bare.plain ⟨rfl, rfl, rfl, rfl⟩ rfl) site) fun _ d₂ c₂ c' => ?_
      refine Ensures.bind (c₂.enter site ⟨rfl, rfl, rfl, rfl⟩ ?_) fun _ _ c₃ => Ensures.pure c₃
      simpa [Operation.entries] using (hready.later ht c).later c.tidy c'
    · exact hstay
  · exact hstay

theorem applyGuard_composed (hg : Resolving g) (ht : Tidy bound d) (value : Register)
    (hbare : ∀ k, start ≤ k → declaredAt d.code k = none) :
    Post (applyGuard g start value) d fun _ d' => Composed bound d d' := by
  refine (Composed.refl ht).next silent_advance.follows fun keyword d₁ c₁ _ => ?_
  refine guard_moved c₁.tidy.layered.current_lt ?_
  obtain ⟨c, hready⟩ := moveCode_composed c₁.tidy value keyword fun k hk =>
    (c₁.declares k).trans (hbare k hk)
  refine (c₁.trans c).next hg.expression fun condition d₃ c₃ e₃ => ?_
  refine c₃.next alloc_follows fun out d₄ c₄ e₄ => ?_
  have hready := (hready.later c.tidy e₃).later c₃.tidy e₄
  refine Ensures.bind (equalityBranch_composed c₄.tidy _ hready keyword) fun fused d₅ c₅ => ?_
  split
  · exact Ensures.pure (c₄.trans c₅)
  · refine Ensures.bind ((c₄.trans c₅).enter keyword ⟨rfl, rfl, rfl, rfl⟩ ?_) fun _ _ c₆ =>
      Ensures.pure c₆
    simpa [Operation.entries] using hready.later c₄.tidy c₅

theorem guards_composed (hg : Resolving g) (c : Composed bound d₀ d) (value : Register)
    (hbare : ∀ k, start ≤ k → declaredAt d.code k = none) :
    Post (guards g start value) d fun _ d' => Composed bound d₀ d' := by
  refine (whileReading_post (I := fun _ d' => Composed bound d d') (fun value d₁ c₁ => ?_)
    (.refl c.tidy)).imp fun _ _ c' => c.trans c'
  refine c₁.next (silent_checkAny _).follows fun found d₂ c₂ _ => ?_
  split
  · refine Ensures.bind (applyGuard_composed hg c₂.tidy value fun k hk => ?_) fun _ _ c₃ =>
      Ensures.pure (c₂.trans c₃)
    exact (c₂.declares k).trans (hbare k hk)
  · exact Ensures.pure c₂

theorem guards_since (hg : Resolving g) (c : Composed bound d d₁) (value : Register) :
    Post (guards g d.code.length value) d₁ fun _ d' => Composed bound d d' :=
  guards_composed hg c value fun k hk =>
    (c.declares k).trans (Locals.declaredAt_of_le hk)

theorem guardedExpression_composes (hg : Resolving g) : Follows Composes (guardedExpression g) :=
  composes_of fun _ d ht => Ensures.run (codeSize_eq d)
    ((Composed.refl ht).next hg.expression fun value _ c _ => guards_since hg c value)

theorem loadLiteral_composes {v : Value} (hv : v.Inert) (site : Token) :
    Follows Composes (loadLiteral v site) := by
  refine output_follows (fun out => ⟨rfl, rfl, rfl, rfl, ?_⟩) site fun out => Follows.pure out
  rintro _ ⟨⟩
  exact hv

theorem items_compose (hg : Resolving g) :
    Follows Composes (commaSeparated do skipNewlines; g.expression) :=
  Follows.commaSeparated (silent_skipNewlines.before fun _ => hg.expression)

theorem callArguments_composes (hg : Resolving g) : Follows Composes (callArguments g) := by
  refine silent_peek.before fun t => Follows.ite ?_ ?_
  · refine silent_advance.before fun _ => silent_skipNewlines.before fun _ => ?_
    refine (silent_check _).before fun empty => ?_
    refine Follows.ite_bind (Follows.pure _) (Follows.commaSeparated ?_) fun args => ?_
    · refine silent_skipNewlines.before fun _ => hg.expression.bind fun r => ?_
      exact silent_skipNewlines.before fun _ => Follows.pure r
    · exact (silent_expect _ _).before fun _ => Follows.pure args
  · exact silent_startsOperand.before fun found => Follows.ite (items_compose hg) (Follows.pure _)

theorem itemsUntil_composes {item : Compile α} (close : TokenKind) (hi : Follows Composes item) :
    Follows Composes (itemsUntil close item) := by
  refine (Follows.whileReading (fun items => ?_) _).bind fun items => Follows.pure _
  refine (silent_check _).before fun done => Follows.ite (Follows.pure _) (hi.bind fun a => ?_)
  refine silent_skipNewlines.before fun _ => (silent_accept _).before fun comma => ?_
  exact Follows.ite (silent_skipNewlines.before fun _ => Follows.pure _) (Follows.pure _)

theorem block_grows (hg : Resolving g) (terminators : List TokenKind) :
    Follows Grows (block g terminators) := by
  refine silent_skipSeparators.before fun _ => Follows.whileReading (fun last => ?_) _
  refine (silent_checkAny _).before fun done => Follows.ite (Follows.pure _) ?_
  refine hg.statement.bind fun last => silent_endStatement.before fun _ => ?_
  exact silent_skipSeparators.before fun _ => Follows.pure _

theorem return_grows (value : Register) (site : Token) : Follows Grows (emit (.ret value) site) :=
  (emit_follows (Operation.Bare.plain ⟨rfl, rfl, rfl, rfl⟩ rfl) site).grows

theorem Fresh.ready (h : Fresh d d₁ false false names none names') (ht : Tidy bound d)
    (c : Grown (names' :: bound) d₁ d₂) {entering : List Text → List Text}
    (hnames : entering names = names') :
    Post closeScope d₂ fun _ d' => Composed bound d d' ∧
      Ready bound d' d.program.scopes.size entering := by
  refine Ensures.change ?_
  obtain ⟨u, -, hfinished⟩ := h.close ht c
  refine ⟨hfinished.composed, _, hfinished.scope, ?_⟩
  have hresolved := hfinished.resolved
  rw [OpenScope.place, hfinished.isFunction, hfinished.isClosure, hfinished.number] at hresolved
  rwa [hfinished.params, hnames, hfinished.composed.current]

theorem blockScope_composed (hg : Resolving g) (ht : Tidy bound d) (name : Text)
    (terminators : List TokenKind) (site : Token) (errorName : Option Text)
    (entering : List Text → List Text) (hnames : entering [] = errorName.toList) :
    Post (blockScope g name terminators site errorName) d fun i d' =>
      Composed bound d d' ∧ Ready bound d' i entering := by
  refine Ensures.bind (openScope_fresh _ _ _ _ _) fun i d₁ h₁ => ?_
  obtain ⟨rfl, h₁⟩ := h₁
  have hbody : ∀ d₂, Fresh d d₂ false false [] none errorName.toList → Post (do
      let last ← block g terminators
      emit (.ret last) (← peek)
      closeScope
      return d.program.scopes.size) d₂ fun i d' =>
        Composed bound d d' ∧ Ready bound d' i entering := by
    intro d₂ h₂
    refine (Composed.refl (h₂.tidy ht)).toGrown.next (block_grows hg terminators) fun last d₃ c₃ => ?_
    refine c₃.next silent_peek.follows fun t d₄ c₄ => c₄.next (return_grows _ _) fun _ d₅ c₅ => ?_
    exact Ensures.bind (h₂.ready ht c₅ hnames) fun _ d₆ h₆ => Ensures.pure h₆
  cases errorName with
  | some n => exact Ensures.bind (h₁.declareAs n _) fun _ d₂ h₂ => hbody d₂ h₂
  | none => exact Ensures.pure_bind (hbody d₁ h₁)

theorem elseScope_composed (hg : Resolving g) (ht : Tidy bound d) :
    Post (elseScope g) d fun otherwise d' =>
      Composed bound d d' ∧ ∀ b ∈ otherwise, Ready bound d' b fun _ => [] := by
  refine (Composed.refl ht).next (silent_accept _).follows fun found d₁ c₁ _ => ?_
  split
  · refine c₁.next silent_previous.follows fun t d₂ c₂ _ => ?_
    refine Ensures.bind (blockScope_composed hg c₂.tidy _ _ _ none (fun _ => []) rfl) fun i d₃ h₃ =>
      Ensures.pure ?_
    refine ⟨c₂.trans h₃.1, ?_⟩
    rintro _ ⟨⟩
    exact h₃.2
  · exact Ensures.pure ⟨c₁, nofun⟩

theorem condition_composed (hg : Resolving g) (ht : Tidy bound d) (name message : Text)
    {f : Token → Register → Nat → Target → Compile Register} {Q : Register → Draft → Prop}
    (hf : ∀ keyword condition body otherwise d', Composed bound d d' →
      (Ready bound d' body fun _ => []) → (∀ b ∈ otherwise, Ready bound d' b fun _ => []) →
        Post (f keyword condition body otherwise) d' Q) :
    Post (do
      let keyword ← advance
      let condition ← g.expression
      let body ← blockScope g name [.kwElse, .kwEnd] keyword none
      let otherwise ← elseScope g
      let _ ← expect .kwEnd message
      f keyword condition body otherwise) d Q := by
  refine (Composed.refl ht).next silent_advance.follows fun keyword d₁ c₁ _ => ?_
  refine c₁.next hg.expression fun condition d₂ c₂ _ => ?_
  refine Ensures.bind (blockScope_composed hg c₂.tidy _ _ _ none (fun _ => []) rfl) fun body d₃ h₃ => ?_
  refine Ensures.bind (elseScope_composed hg h₃.1.tidy) fun otherwise d₄ h₄ => ?_
  refine ((c₂.trans h₃.1).trans h₄.1).next (silent_expect _ _).follows fun _ d₅ c₅ e₅ => ?_
  exact hf keyword condition body otherwise d₅ c₅
    ((h₃.2.later h₃.1.tidy h₄.1).later h₄.1.tidy e₅) fun b hb => (h₄.2 b hb).later h₄.1.tidy e₅

theorem ifExpression_composes (hg : Resolving g) : Follows Composes (ifExpression g) := by
  refine composes_of fun bound d ht => ?_
  refine condition_composed hg ht "<if>" _ fun keyword condition body otherwise d₁ c₁ hbody ho => ?_
  refine c₁.next alloc_follows fun out d₂ c₂ e₂ => ?_
  have hplain : ∀ d₃, Composed bound d₂ d₃ → Post (do
      emit (.ifElse condition (some body) otherwise out) keyword
      return out) d₃ fun _ d' => Composed bound d d' := by
    intro d₃ e₃
    refine Ensures.bind ((c₂.trans e₃).enter keyword ⟨rfl, rfl, rfl, rfl⟩ ?_) fun _ d₄ c₄ =>
      Ensures.pure c₄
    have hlater : ∀ b, (Ready bound d₁ b fun _ => []) → Ready bound d₃ b fun _ => [] := fun b hb =>
      (hb.later c₁.tidy e₂).later c₂.tidy e₃
    simpa [Operation.entries] using ⟨hlater body hbody, fun b hb => hlater b (ho b hb)⟩
  cases otherwise with
  | some other => exact hplain d₂ (.refl c₂.tidy)
  | none =>
    refine Ensures.bind (equalityBranch_composed c₂.tidy true (hbody.later c₁.tidy e₂) keyword)
      fun fused d₃ e₃ => ?_
    cases fused with
    | true => exact Ensures.pure (c₂.trans e₃)
    | false => exact hplain d₃ e₃

theorem unlessExpression_composes (hg : Resolving g) : Follows Composes (unlessExpression g) := by
  refine composes_of fun bound d ht => ?_
  refine condition_composed hg ht "<unless>" _ fun keyword condition body otherwise d₁ c₁ hbody ho => ?_
  refine c₁.next alloc_follows fun out d₂ c₂ e₂ => ?_
  have hbody := hbody.later c₁.tidy e₂
  cases otherwise with
  | some other =>
    refine Ensures.bind (c₂.enter keyword ⟨rfl, rfl, rfl, rfl⟩ ?_) fun _ d₃ c₃ => Ensures.pure c₃
    simpa [Operation.entries] using ⟨(ho other rfl).later c₁.tidy e₂, hbody⟩
  | none =>
    refine Ensures.bind (equalityBranch_composed c₂.tidy false hbody keyword) fun fused d₃ e₃ => ?_
    cases fused with
    | true => exact Ensures.pure (c₂.trans e₃)
    | false =>
      refine Ensures.bind ((c₂.trans e₃).enter keyword ⟨rfl, rfl, rfl, rfl⟩ ?_) fun _ d₄ c₄ =>
        Ensures.pure c₄
      simpa [Operation.entries] using hbody.later c₂.tidy e₃

theorem doExpression_composes (hg : Resolving g) : Follows Composes (doExpression g) := by
  refine composes_of fun bound d ht => ?_
  refine (Composed.refl ht).next silent_advance.follows fun keyword d₁ c₁ _ => ?_
  refine Ensures.bind (blockScope_composed hg c₁.tidy _ _ _ none id rfl) fun body d₂ h₂ => ?_
  refine (c₁.trans h₂.1).next (silent_expect _ _).follows fun _ d₃ c₃ e₃ => ?_
  refine c₃.enterFor keyword (fun _ => ⟨rfl, rfl, rfl, rfl⟩) fun out => ?_
  simpa [Operation.entries] using h₂.2.later h₂.1.tidy e₃

theorem tryBody_composed (hg : Resolving g) (ht : Tidy bound d) (keyword : Token)
    (blockForm : Bool) :
    Post (tryBody g keyword blockForm) d fun i d' =>
      Composed bound d d' ∧ Ready bound d' i fun _ => [] := by
  unfold tryBody
  split
  · exact blockScope_composed hg ht _ _ _ none _ rfl
  · refine Ensures.bind (openScope_fresh _ _ _ _ _) fun i d₁ h₁ => ?_
    obtain ⟨rfl, h₁⟩ := h₁
    refine (Composed.refl (h₁.tidy ht)).next hg.expression fun value d₂ c₂ _ => ?_
    refine c₂.toGrown.next (return_grows _ _) fun _ d₃ c₃ => ?_
    exact Ensures.bind (h₁.ready ht c₃ rfl) fun _ d₄ h₄ => Ensures.pure h₄

theorem tryExpression_composes (hg : Resolving g) : Follows Composes (tryExpression g) := by
  refine composes_of fun bound d ht => ?_
  refine (Composed.refl ht).next silent_advance.follows fun keyword d₁ c₁ _ => ?_
  refine c₁.next (silent_checkAny _).follows fun blockForm d₂ c₂ _ => ?_
  refine Ensures.bind (tryBody_composed hg c₂.tidy _ _) fun body d₃ h₃ => ?_
  have c₃ := c₂.trans h₃.1
  have hrest : ∀ (handler : Target × Option Text) d₄, Composed bound d₃ d₄ →
      (∀ b ∈ handler.1, Ready bound d₄ b fun _ => handler.2.toList) → Post (do
        let out ← alloc
        emit (.tryCatch (some body) handler.1 handler.2 out) keyword
        return out) d₄ fun _ d' => Composed bound d d' := by
    intro handler d₄ e₄ hhandler
    refine (c₃.trans e₄).enterFor keyword (fun _ => ⟨rfl, rfl, rfl, rfl⟩) fun out => ?_
    simpa [Operation.entries] using ⟨h₃.2.later h₃.1.tidy e₄, hhandler⟩
  refine (Composed.refl c₃.tidy).next (silent_accept _).follows fun found d₄ e₄ _ => ?_
  split
  · refine e₄.next silent_previous.follows fun site d₅ e₅ _ => ?_
    refine e₅.next (silent_check _).follows fun named d₆ e₆ _ => ?_
    have hcatch : ∀ errorName d₇, Composed bound d₃ d₇ → Post (do
        let handler ← blockScope g "<catch>" [.kwEnd] site errorName
        let _ ← expect .kwEnd "Expected 'end' to close 'catch'"
        let out ← alloc
        emit (.tryCatch (some body) (some handler) errorName out) keyword
        return out) d₇ fun _ d' => Composed bound d d' := by
      intro errorName d₇ e₇
      refine Ensures.bind (blockScope_composed hg e₇.tidy _ _ _ errorName (fun _ => errorName.toList)
        rfl) fun handler d₈ h₈ => ?_
      refine (e₇.trans h₈.1).next (silent_expect _ _).follows fun _ d₉ e₉ e => ?_
      refine hrest (some handler, errorName) d₉ e₉ ?_
      rintro _ ⟨⟩
      exact h₈.2.later h₈.1.tidy e
    split
    · refine e₆.next silent_advance.follows fun t d₇ e₇ _ => ?_
      exact Ensures.pure_bind (hcatch (some t.text) d₇ e₇)
    · exact Ensures.pure_bind (hcatch none d₆ e₆)
  · split
    · refine e₄.next (silent_expect _ _).follows fun _ d₅ e₅ _ => ?_
      exact Ensures.pure_bind (hrest (none, none) d₅ e₅ nofun)
    · exact Ensures.pure_bind (hrest (none, none) d₄ e₄ nofun)

theorem raiseExpression_composes (hg : Resolving g) : Follows Composes (raiseExpression g) :=
  silent_advance.before fun _ => hg.expression.bind fun _ =>
    (emit_follows (Operation.Bare.plain ⟨rfl, rfl, rfl, rfl⟩ rfl) _).bind fun _ => Follows.pure _

theorem returnExpression_composes (hg : Resolving g) : Follows Composes (returnExpression g) := by
  refine silent_advance.before fun _ => silent_startsOperand.before fun found => ?_
  refine Follows.ite_bind hg.expression (Follows.pure _) fun value => ?_
  exact (emit_follows (Operation.Bare.plain ⟨rfl, rfl, rfl, rfl⟩ rfl) _).bind fun _ => Follows.pure _

end Compile

end ScriptMachine
