import ScriptMachine.Proofs.Compiler.Branches

set_option autoImplicit false

namespace ScriptMachine

namespace Compile

variable {d₀ d d₁ d' : Draft} {held : List Register} {owed unmade owed' unmade' : List Nat}
  {g : Grammar}

theorem whileReading_leaves {α : Type} {registers : α → List Register} {a : α}
    {step : α → Compile (α × Bool)} (ha : ∀ r ∈ registers a, Known [] r)
    (hstep : ∀ d₀ d owed unmade a, Reached d₀ d (registers a) owed unmade →
      Post (step a) d fun b d' => Reached d₀ d' (registers b.1) owed unmade) :
    Leaves registers (whileReading a step) := by
  intro d owed unmade h
  refine whileReading_post (fun b d' h' => hstep d d' owed unmade b h') ?_
  exact { Reached.refl h with written := ⟨[], by simp, .nil, ha⟩ }

theorem Leaves.map {α β : Type} {registers : α → List Register} {x : Compile α} {f : α → β}
    {registers' : β → List Register} (hx : Leaves registers x)
    (hf : ∀ a, registers' (f a) ⊆ registers a) : Leaves registers' (do return f (← x)) :=
  fun d owed unmade h => Ensures.bind (hx d owed unmade h) fun a _ h' =>
    Ensures.pure (h'.weaken (hf a))

theorem flatMap_reverse_subset {α : Type} (registers : α → List Register) (items : List α) :
    items.reverse.flatMap registers ⊆ items.flatMap registers := by
  intro r hr
  obtain ⟨a, ha, hr⟩ := List.mem_flatMap.1 hr
  exact List.mem_flatMap.2 ⟨a, List.mem_reverse.1 ha, hr⟩

theorem commaSeparated_leaves {α : Type} {registers : α → List Register} {item : Compile α}
    (hi : Leaves registers item) :
    Leaves (fun items => items.flatMap registers) (commaSeparated item) := by
  refine Leaves.map (whileReading_leaves (by simp) ?_) (flatMap_reverse_subset registers)
  intro d₀ d owed unmade items h
  refine Ensures.bind (hi.after h) fun a d₁ h₁ => ?_
  refine (silent_accept _).then fun again d₂ u₂ => Ensures.pure ?_
  exact h₁.silent u₂

/-- What holds of every item that is read holds of all of them. -/
theorem itemsUntil_post {α : Type} {registers : α → List Register} {P : α → Prop}
    {item : Compile α} (close : TokenKind)
    (hi : ∀ d owed unmade, d.Sound owed unmade → Post item d fun a d' =>
      Reached d d' (registers a) owed unmade ∧ P a) (h : d.Sound owed unmade) :
    Post (itemsUntil close item) d fun items d' =>
      Reached d d' (items.flatMap registers) owed unmade ∧ ∀ a ∈ items, P a := by
  refine Ensures.bind (R := fun items d' =>
    Reached d d' (items.flatMap registers) owed unmade ∧ ∀ a ∈ items, P a) ?_ fun items d₁ h₁ => ?_
  · refine whileReading_post (fun items d₁ h₁ => ?_) ⟨Reached.refl h, by simp⟩
    obtain ⟨h₁, hall⟩ := h₁
    refine (silent_check _).then fun done d₂ u₂ => ?_
    have h₂ := h₁.silent u₂
    split
    · exact Ensures.pure ⟨h₂, hall⟩
    · refine Ensures.bind (hi d₂ owed unmade h₂.sound) fun a d₃ h₃ => ?_
      have hcons : ∀ b ∈ a :: items, P b := List.forall_mem_cons.2 ⟨h₃.2, hall⟩
      refine silent_skipNewlines.then fun _ d₄ u₄ => (silent_accept _).then fun comma d₅ u₅ => ?_
      have h₅ := ((h₂.trans h₃.1).silent u₄).silent u₅
      split
      · exact silent_skipNewlines.then fun _ d₆ u₆ => Ensures.pure ⟨h₅.silent u₆, hcons⟩
      · exact Ensures.pure ⟨h₅, hcons⟩
  · refine Ensures.pure ⟨h₁.1.weaken (flatMap_reverse_subset registers items), ?_⟩
    exact fun a ha => h₁.2 a (List.mem_reverse.1 ha)

theorem Discreet.leaves {α β : Type} {registers : β → List Register} {x : Compile α}
    {f : α → Compile β} (hx : Discreet x) (hf : ∀ a, Leaves registers (f a)) :
    Leaves registers (x >>= f) := by
  intro d owed unmade h
  refine hx.then fun a d₁ u₁ => ((hf a).after ((Reached.refl h).silent u₁)).imp fun b d₂ h₂ => ?_
  simpa using h₂

theorem Silent.leaves {α β : Type} {registers : β → List Register} {x : Compile α}
    {f : α → Compile β} (hx : Silent x) (hf : ∀ a, Leaves registers (f a)) :
    Leaves registers (x >>= f) := Discreet.leaves hx.follows hf

theorem items_leave (hg : Faithful g) : Leaves id (commaSeparated do skipNewlines; g.expression) := by
  have hall := commaSeparated_leaves (silent_skipNewlines.leaves fun _ => hg.expression)
  simpa [Leaves] using hall

theorem callArguments_leaves (hg : Faithful g) : Leaves id (callArguments g) := by
  refine silent_peek.leaves fun t => ?_
  split
  · refine silent_advance.leaves fun _ => silent_skipNewlines.leaves fun _ => ?_
    refine (silent_check _).leaves fun empty => ?_
    intro d owed unmade h
    refine Ensures.ite_bind (R := fun args d' => Reached d d' args owed unmade) ?_
      fun args d₁ h₁ => (silent_expect _ _).then fun _ d₂ u₂ => Ensures.pure (h₁.silent u₂)
    split
    · exact Ensures.pure (Reached.refl h)
    · have hitem : Yields (do
          skipNewlines
          let r ← g.expression
          skipNewlines
          return r) := silent_skipNewlines.leaves fun _ d owed unmade h =>
        hg.expression.bind (Reached.refl h) fun r d₁ h₁ =>
          silent_skipNewlines.then fun _ d₂ u₂ => Ensures.pure (h₁.silent u₂)
      have hall := commaSeparated_leaves hitem
      simpa using hall d owed unmade h
  · refine silent_startsOperand.leaves fun operand => ?_
    split
    · exact items_leave hg
    · exact fun d owed unmade h => Ensures.pure (Reached.refl h)

theorem block_yields (hg : Faithful g) (terminators : List TokenKind) :
    Yields (block g terminators) := by
  intro d owed unmade h
  refine silent_skipSeparators.then fun _ d₁ u₁ => ?_
  refine whileReading_post (I := fun r d' => Reached d d' [r] owed unmade) (fun last d₂ h₂ => ?_)
    (((Reached.refl h).silent u₁).hold (known_none _))
  refine (silent_checkAny _).then fun done d₃ u₃ => ?_
  split
  · exact Ensures.pure (h₂.silent u₃)
  · refine hg.statement.bind (h₂.silent u₃) fun r d₄ h₄ => ?_
    refine silent_endStatement.then fun _ d₅ u₅ => silent_skipSeparators.then fun _ d₆ u₆ => ?_
    exact Ensures.pure (((h₄.silent u₅).silent u₆).weaken (by simp))

theorem openScope_bind {α : Type} {kind : ScopeKind} {name : Text} {isFunction isClosure : Bool}
    {site : Token} {f : Nat → Compile α} {Q : α → Draft → Prop} (h : d.Sound owed unmade)
    (hkind : kind ≠ .main)
    (hf : ∀ d₁, Opened d d₁ kind d₁.current → Reached d₁ d₁ [] owed unmade →
      Post (f d₁.current) d₁ Q) :
    Post (openScope kind name isFunction isClosure site >>= f) d Q := by
  refine Ensures.bind (openScope_post h hkind name isFunction isClosure site) fun i d₁ h₁ => ?_
  obtain ⟨o, hs, rfl⟩ := h₁
  exact hf d₁ o (Reached.refl hs)

theorem return_post {value : Register} {site : Token} (h : Reached d₀ d held owed unmade)
    (hvalue : Known held value) :
    Post (emit (.ret value) site) d fun _ d' => Reached d₀ d' held owed unmade ∧
      ∃ r, d'.code.getLast? = some (.ret r) := by
  have hfits : Fits d held owed unmade owed unmade (.ret value) := by
    refine Fits.plain ?_ (by simp [Operation.out?]) rfl rfl rfl trivial
    simpa [Operation.reads] using hvalue
  refine (emit_post h hfits).imp fun _ d' h' => ⟨h'.1, value, ?_⟩
  rw [h'.2.1, List.getLast?_concat]

theorem describe_bind {α : Type} {i : Nat} {f : Scope → Scope} {rest : Compile α}
    {Q : α → Draft → Prop} (h : Reached d₀ d held owed unmade) (hi : i = d.current)
    (hkind : (f d.scope).kind = d.scope.kind) (hcode : (f d.scope).operations = d.scope.operations)
    (hcount : d.scope.registerCount ≤ (f d.scope).registerCount)
    (hrest : ∀ d', Reached d₀ d' held owed unmade → d'.code = d.code → Post rest d' Q) :
    Post (do modifyScope i f; rest) d Q := by
  subst i
  refine Ensures.run (show modifyScope d.current f d = .ok () (d.rewrite f) from rfl) ?_
  refine hrest _ (h.describe hkind hcode hcount) ?_
  unfold Draft.code
  rw [rewrite_scope h.sound, hcode]

theorem blockScope_post (hg : Faithful g) (h : Reached d₀ d held owed unmade) (name : Text)
    (terminators : List TokenKind) (site : Token) (bound : Option Text) :
    Post (blockScope g name terminators site bound) d fun i d' =>
      Reached d₀ d' held (i :: owed) unmade := by
  refine openScope_bind h.sound (by decide) fun d₁ o h₁ => ?_
  have hbody : ∀ d₂, Undisturbed d₁ d₂ → Post (do
      let last ← block g terminators
      emit (.ret last) (← peek)
      closeScope
      return d₁.current) d₂ fun i d' => Reached d₀ d' held (i :: owed) unmade := by
    intro d₂ u₂
    refine (block_yields hg terminators).bind (h₁.silent u₂) fun last d₃ h₃ => ?_
    refine silent_peek.then fun t d₄ u₄ => ?_
    refine Ensures.bind (return_post (h₃.silent u₄) (Or.inr (by simp))) fun _ d₅ h₅ => ?_
    refine Ensures.bind (closeScope_post h.sound o h₅.1 h₅.2) fun _ d₆ h₆ => ?_
    exact Ensures.pure (h.trans h₆.1)
  cases bound with
  | some n => exact (discreet_declare n false).then fun _ d₂ u₂ => hbody d₂ u₂
  | none => exact (silent_pure ()).then fun _ d₂ u₂ => hbody d₂ u₂

theorem functionStatements_post (hg : Faithful g) (h : Reached d₀ d [] owed unmade) :
    Post (functionStatements g) d fun _ d' => Reached d₀ d' [] owed unmade ∧
      ∃ r, d'.code.getLast? = some (.ret r) := by
  refine (silent_accept _).then fun equal d₁ u₁ => ?_
  split
  · refine silent_previous.then fun t d₂ u₂ => silent_skipNewlines.then fun _ d₃ u₃ => ?_
    refine (guardedExpression_yields hg).bind (((h.silent u₁).silent u₂).silent u₃) ?_
    intro value d₄ h₄
    exact (return_post h₄ (Or.inr (by simp))).imp fun _ _ h₅ => ⟨h₅.1.weaken (by simp), h₅.2⟩
  · refine (block_yields hg _).bind (h.silent u₁) fun last d₂ h₂ => ?_
    refine (silent_expect _ _).then fun close d₃ u₃ => ?_
    exact (return_post (h₂.silent u₃) (Or.inr (by simp))).imp fun _ _ h₄ =>
      ⟨h₄.1.weaken (by simp), h₄.2⟩

theorem discreet_declareParams (params : List Parameter) :
    Discreet (params.forM fun p => declare p.name false) := by
  induction params with
  | nil => exact Follows.pure ()
  | cons p params ih => exact (discreet_declare p.name false).bind fun _ => ih

theorem declareParams_post {i : Nat} (h : Reached d₀ d held owed unmade) (hi : i = d.current)
    (params : List Parameter) :
    Post (declareParams i params) d fun _ d' => Reached d₀ d' held owed unmade :=
  describe_bind h hi rfl rfl (Nat.le_refl _) fun d' h' _ =>
    (discreet_declareParams params d').imp fun _ _ u => h'.silent u

theorem Reached.amend (h : Reached d₀ d held owed unmade) {p : Program}
    (hidentity : p.id = d.program.id) (hscopes : p.scopes = d.program.scopes)
    (hsound : p.Sound d.openScopes owed' unmade') :
    Reached d₀ { d with program := p } held owed' unmade' where
  sound := hsound
  identity := hidentity.trans h.identity
  opened := h.opened
  kinds := by
    simp only [Program.HasKind, hscopes]
    exact h.kinds
  frozen := by
    simp only [hscopes]
    exact h.frozen
  written := by
    have hscope : ({ d with program := p } : Draft).scope = d.scope :=
      congrArg (fun scopes : Array Scope => (scopes[d.current]?).getD default) hscopes
    unfold Draft.code
    rw [hscope]
    exact h.written

theorem closureBody_post (hg : Faithful g) (h : Reached d₀ d held owed unmade) (header : Header)
    (selfName : Option Text) (isLambda : Bool) :
    Post (closureBody g header selfName isLambda) d fun j d' =>
      Reached d₀ d' held owed (j :: unmade) := by
  refine Ensures.bind (R := fun i d' => Reached d₀ d' held owed unmade ∧
    d'.program.HasKind .function i) ?_ fun i d₁ h₁ => ?_
  · refine within_post (fun i d₁ d₂ u h₁ => ⟨h₁.1.silent u.undisturbed, u.program ▸ h₁.2⟩) fun d₁ u₁ => ?_
    have h := h.silent u₁.undisturbed
    refine openScope_bind h.sound (by decide) fun d₂ o h₂ => ?_
    refine describe_bind h₂ rfl rfl rfl (Nat.le_refl _) fun d₃ h₃ _ => ?_
    have hparams : ∀ d₄, Undisturbed d₃ d₄ → Post (do
        declareParams d₂.current header.signature.params
        if isLambda then
          let value ← guardedExpression g
          emit (.ret value) header.token
        else functionStatements g
        let captures := ((← get).opened.head?.map (·.captures)).getD []
        modifyScope d₂.current fun s => { s with captures }
        closeScope
        return d₂.current) d₄ fun i d' => Reached d₀ d' held owed unmade ∧
          d'.program.HasKind .function i := by
      intro d₄ u₄
      have h₄ := h₃.silent u₄
      refine Ensures.bind (declareParams_post h₄ h₄.current.symm _) fun _ d₅ h₅ => ?_
      have hclose : ∀ d₆, Reached d₂ d₆ [] owed unmade → (∃ r, d₆.code.getLast? = some (.ret r)) →
          Post (do
            let captures := ((← get).opened.head?.map (·.captures)).getD []
            modifyScope d₂.current fun s => { s with captures }
            closeScope
            return d₂.current) d₆ fun i d' => Reached d₀ d' held owed unmade ∧
              d'.program.HasKind .function i := by
        intro d₆ h₆ hret
        refine Ensures.get_bind ?_
        refine describe_bind h₆ h₆.current.symm rfl rfl (Nat.le_refl _) fun d₇ h₇ hcode => ?_
        refine Ensures.bind (closeScope_post h.sound o h₇ (hcode ▸ hret)) fun _ d₈ h₈ => ?_
        exact Ensures.pure ⟨h.trans h₈.1, h₈.2⟩
      dsimp only
      split
      · refine (guardedExpression_yields hg).bind h₅ fun value d₆ h₆ => ?_
        refine Ensures.bind (return_post h₆ (Or.inr (by simp))) fun _ d₇ h₇ => ?_
        exact hclose d₇ (h₇.1.weaken (by simp)) h₇.2
      · exact Ensures.bind (functionStatements_post hg h₅) fun _ d₆ h₆ => hclose d₆ h₆.1 h₆.2
    cases selfName with
    | some n => exact (discreet_declareCallable n).then fun _ d₄ u₄ => hparams d₄ u₄
    | none => exact (silent_pure ()).then fun _ d₄ u₄ => hparams d₄ u₄
  · obtain ⟨h₁, hk⟩ := h₁
    refine Ensures.get_bind (Ensures.change_bind (Ensures.pure ?_))
    exact h₁.amend rfl rfl (h₁.sound.pushClosure rfl hk)

end Compile

end ScriptMachine
