import ScriptMachine.Proofs.Compiler.Bodies

set_option autoImplicit false

namespace ScriptMachine

namespace Compile

variable {d₀ d d' : Draft} {held : List Register} {owed unmade : List Nat} {g : Grammar}

theorem loadLiteral_yields (v : Value) (site : Token) : Yields (loadLiteral v site) := by
  intro d owed unmade h
  refine output_post (Reached.refl h) ?_ (fun _ => rfl) (fun _ => ⟨rfl, rfl, rfl, trivial⟩) ?_
  · simp [Operation.reads]
  · exact fun out d' h' => Ensures.pure h'

theorem lambda_yields (hg : Faithful g) : Yields (lambda g) := by
  intro d owed unmade h
  refine silent_advance.then fun token d₁ u₁ => ?_
  refine Ensures.ite_bind (R := fun _ d' => Undisturbed d d') ?_ fun params d₂ u₂ => ?_
  · split
    · exact (silent_parameterList _ _ d₁).imp fun _ _ u => u₁.trans u.undisturbed
    · exact Ensures.pure u₁
  have h₂ := (Reached.refl h).silent u₂
  refine Ensures.bind (closureBody_post hg h₂ _ none true) fun closure d₃ h₃ => ?_
  exact output_bind h₃ (fun _ => rfl) (fun _ => rfl) (by simp [Operation.reads]) (by simp [Operation.entered])
    (fun _ => trivial) (fun _ => .refl _) (fun _ => .refl _) fun out d₄ h₄ => Ensures.pure h₄

theorem pairBody_yields (hg : Faithful g) (site : Token) : Yields (pairBody g site) := by
  intro d owed unmade h
  refine Ensures.run (codeSize_eq d) ?_
  refine hg.expression.bind (Reached.refl h) fun key d₁ h₁ => ?_
  refine (silent_accept _).then fun comma d₂ u₂ => ?_
  have h₂ := h₁.silent u₂
  have hpair : ∀ entry d₃, Reached d d₃ [entry, key] owed unmade → Post (do
      let value ← alloc
      emit (.makeList [key, entry] value) site
      guards g d.code.length value) d₃ fun r d' => Reached d d' [r] owed unmade := by
    intro entry d₃ h₃
    refine output_post h₃ ?_ (fun _ => rfl) (fun _ => ⟨rfl, rfl, rfl, trivial⟩) ?_
    · simp [Operation.reads, Known]
    · exact fun value d₄ h₄ => guards_post hg (h₄.weaken (by simp)) rfl
  dsimp only
  split
  · refine silent_skipNewlines.then fun _ d₃ u₃ => ?_
    exact hg.expression.bind (h₂.silent u₃) hpair
  · exact Ensures.pure_bind (hpair key d₂ (h₂.hold (Or.inr (by simp))))

/-- The body of a comprehension is a block that the operation enters for each element. -/
theorem comprehension_yields (hg : Faithful g) (site : Token) (toMap : Bool) :
    Yields (comprehension g site toMap) := by
  intro d owed unmade h
  refine silent_advance.then fun _ d₁ u₁ => silent_loopVariables.then fun names d₂ u₂ => ?_
  refine (silent_expect _ _).then fun _ d₃ u₃ => ?_
  have h₃ := (((Reached.refl h).silent u₁).silent u₂).silent u₃
  refine hg.expression.bind h₃ fun source d₄ h₄ => ?_
  refine (silent_expect _ _).then fun _ d₅ u₅ => silent_skipNewlines.then fun _ d₆ u₆ => ?_
  have h₆ := (h₄.silent u₅).silent u₆
  refine openScope_bind h₆.sound (by decide) fun d₇ o h₇ => ?_
  refine describe_bind h₇ rfl rfl rfl (Nat.le_refl _) fun d₈ h₈ _ => ?_
  refine (discreet_declareAll names).then fun _ d₉ u₉ => ?_
  have hbody : Yields (if toMap then pairBody g site else guardedExpression g) := by
    split
    · exact pairBody_yields hg site
    · exact guardedExpression_yields hg
  refine Ensures.ite_bind (hbody.after (h₈.silent u₉)) fun value d₁₀ h₁₀ => ?_
  refine silent_peek.then fun t d₁₁ u₁₁ => ?_
  refine Ensures.bind (return_post (h₁₀.silent u₁₁) (Or.inr (by simp))) fun _ d₁₂ h₁₂ => ?_
  refine Ensures.bind (closeScope_post h₆.sound o h₁₂.1 h₁₂.2) fun _ d₁₃ h₁₃ => ?_
  refine silent_skipNewlines.then fun _ d₁₄ u₁₄ => ?_
  refine Ensures.bind (alloc_post ((h₆.trans h₁₃.1).silent u₁₄)) fun out d₁₅ h₁₅ => ?_
  refine Ensures.ite_bind (R := fun _ d' => Undisturbed d₁₅ d') ?_ fun _ d₁₆ u₁₆ => ?_
  · split
    · exact (silent_expect _ _ d₁₅).imp fun _ _ => Still.undisturbed
    · exact (silent_expect _ _ d₁₅).imp fun _ _ => Still.undisturbed
  have hfits : Fits d₁₆ [source] (d₇.current :: owed) unmade owed unmade
      (.collect toMap source (some d₇.current) out) := by
    refine Fits.taking rfl ?_ ?_ (by simp [Operation.entered]) trivial (.refl _) (.refl _)
    · simp [Operation.reads, Known]
    · simpa [Operation.out?] using u₁₆.free h₁₅.2
  refine Ensures.bind (emit_post (h₁₅.1.silent u₁₆) hfits) fun _ d₁₇ h₁₇ => ?_
  exact Ensures.pure (h₁₇.1.weaken (by simp [Operation.out?]))

theorem listLiteral_yields (hg : Faithful g) : Yields (listLiteral g) := by
  refine silent_advance.leaves fun site => silent_skipNewlines.leaves fun _ => ?_
  refine (silent_check _).leaves fun comprehending => ?_
  split
  · exact comprehension_yields hg site false
  intro d owed unmade h
  have hitem : ∀ d owed unmade, d.Sound owed unmade → Post g.expression d fun r d' =>
      Reached d d' [r] owed unmade ∧ True := fun d owed unmade h =>
    (hg.expression d owed unmade h).imp fun _ _ h' => ⟨h', trivial⟩
  refine Ensures.bind (itemsUntil_post _ hitem h) fun items d₁ h₁ => ?_
  refine (silent_expect _ _).then fun _ d₂ u₂ => ?_
  refine output_post (h₁.1.silent u₂) ?_ (fun _ => rfl) (fun _ => ⟨rfl, rfl, rfl, trivial⟩) ?_
  · exact fun _ r hr => Or.inr (by simpa [Operation.reads] using hr)
  · exact fun out d₃ h₃ => Ensures.pure (h₃.weaken (by simp))

theorem mapEntry_post (hg : Faithful g) (h : d.Sound owed unmade) :
    Post (mapEntry g) d fun pair d' => Reached d d' pair owed unmade ∧ pair.length = 2 := by
  have hkey : ∀ key d₁, Reached d d₁ [key] owed unmade → Post (do
      if ← accept .equal then
        skipNewlines
        return [key, ← g.expression]
      else return [key, key]) d₁ fun pair d' =>
        Reached d d' pair owed unmade ∧ pair.length = 2 := by
    intro key d₁ h₁
    refine (silent_accept _).then fun equal d₂ u₂ => ?_
    split
    · refine silent_skipNewlines.then fun _ d₃ u₃ => ?_
      refine hg.expression.bind ((h₁.silent u₂).silent u₃) fun value d₄ h₄ => ?_
      exact Ensures.pure ⟨h₄.weaken (by simp), rfl⟩
    · exact Ensures.pure ⟨(h₁.silent u₂).hold (Or.inr (by simp)), rfl⟩
  refine silent_peek.then fun t d₁ u₁ => (silent_peekAt 1).then fun next d₂ u₂ => ?_
  have h₂ := ((Reached.refl h).silent u₁).silent u₂
  dsimp only
  split
  · refine silent_advance.then fun name d₃ u₃ => ?_
    exact (loadLiteral_yields _ _).bind (h₂.silent u₃) hkey
  · exact hg.expression.bind h₂ hkey

theorem flatten_paired {pairs : List (List Register)} (h : ∀ pair ∈ pairs, pair.length = 2) :
    pairs.flatten.length % 2 = 0 := by
  induction pairs with
  | nil => rfl
  | cons pair pairs ih =>
    obtain ⟨hpair, hpairs⟩ := List.forall_mem_cons.1 h
    rw [List.flatten_cons, List.length_append, hpair, Nat.add_mod_left]
    exact ih hpairs

theorem mapLiteral_yields (hg : Faithful g) : Yields (mapLiteral g) := by
  refine silent_advance.leaves fun site => silent_skipNewlines.leaves fun _ => ?_
  refine (silent_check _).leaves fun comprehending => ?_
  split
  · exact comprehension_yields hg site true
  intro d owed unmade h
  refine Ensures.bind (itemsUntil_post _ (fun _ _ _ h => mapEntry_post hg h) h) fun pairs d₁ h₁ => ?_
  refine (silent_expect _ _).then fun _ d₂ u₂ => ?_
  refine output_post (h₁.1.silent u₂) ?_ (fun _ => rfl)
    (fun _ => ⟨rfl, rfl, rfl, flatten_paired h₁.2⟩) ?_
  · exact fun _ r hr => Or.inr (by simpa [Operation.reads] using hr)
  · exact fun out d₃ h₃ => Ensures.pure (h₃.weaken (by simp))

theorem parenthesized_yields (hg : Faithful g) : Yields (parenthesized g) := by
  refine silent_advance.leaves fun _ => silent_skipNewlines.leaves fun _ => ?_
  intro d owed unmade h
  refine hg.expression.bind (Reached.refl h) fun inner d₁ h₁ => ?_
  refine silent_skipNewlines.then fun _ d₂ u₂ => (silent_expect _ _).then fun _ d₃ u₃ => ?_
  exact Ensures.pure ((h₁.silent u₂).silent u₃)

theorem elseScope_post (hg : Faithful g) (h : Reached d₀ d held owed unmade) :
    Post (elseScope g) d fun otherwise d' =>
      Reached d₀ d' held (otherwise.toList ++ owed) unmade := by
  refine (silent_accept _).then fun found d₁ u₁ => ?_
  split
  · refine silent_previous.then fun t d₂ u₂ => ?_
    refine Ensures.bind (blockScope_post hg ((h.silent u₁).silent u₂) _ _ _ _) fun i d₃ h₃ => ?_
    exact Ensures.pure h₃
  · exact Ensures.pure (h.silent u₁)

theorem condition_post (hg : Faithful g) (h : d.Sound owed unmade) (name message : Text)
    {Q : Register → Draft → Prop} {f : Token → Register → Nat → Target → Compile Register}
    (hf : ∀ keyword condition body otherwise d',
      Reached d d' [condition] (otherwise.toList ++ body :: owed) unmade →
        Post (f keyword condition body otherwise) d' Q) :
    Post (do
      let keyword ← advance
      let condition ← g.expression
      let body ← blockScope g name [.kwElse, .kwEnd] keyword none
      let otherwise ← elseScope g
      let _ ← expect .kwEnd message
      f keyword condition body otherwise) d Q := by
  refine silent_advance.then fun keyword d₁ u₁ => ?_
  refine hg.expression.bind ((Reached.refl h).silent u₁) fun condition d₂ h₂ => ?_
  refine Ensures.bind (blockScope_post hg h₂ _ _ _ _) fun body d₃ h₃ => ?_
  refine Ensures.bind (elseScope_post hg h₃) fun otherwise d₄ h₄ => ?_
  refine (silent_expect _ _).then fun _ d₅ u₅ => ?_
  exact hf keyword condition body otherwise d₅ (h₄.silent u₅)

theorem ifExpression_yields (hg : Faithful g) : Yields (ifExpression g) := by
  intro d owed unmade h
  refine condition_post hg h "<if>" _ fun keyword condition body otherwise d₁ h₁ => ?_
  refine Ensures.bind (alloc_post h₁) fun out d₂ h₂ => ?_
  obtain ⟨h₂, hfree⟩ := h₂
  have hplain : ∀ d₃, Reached d d₃ [condition] (otherwise.toList ++ body :: owed) unmade →
      d₃.Free out → Post (do
        emit (.ifElse condition (some body) otherwise out) keyword
        return out) d₃ fun r d' => Reached d d' [r] owed unmade := by
    intro d₃ h₃ hfree
    have hfits : Fits d₃ [condition] (otherwise.toList ++ body :: owed) unmade owed unmade
        (.ifElse condition (some body) otherwise out) := by
      refine Fits.taking rfl ?_ ?_ (by simp [Operation.entered]) trivial ?_ (.refl _)
      · simp [Operation.reads, Known]
      · simpa [Operation.out?] using hfree
      · cases otherwise with
        | none => exact .refl _
        | some other => exact .swap _ _ _
    refine Ensures.bind (emit_post h₃ hfits) fun _ d₄ h₄ => ?_
    exact Ensures.pure (h₄.1.weaken (by simp [Operation.out?]))
  cases otherwise with
  | some other => exact hplain d₂ h₂ hfree
  | none =>
    refine Ensures.bind (equalityBranch_post h₂ hfree) fun fused d₃ h₃ => ?_
    cases fused with
    | true => exact Ensures.pure h₃
    | false => exact hplain d₃ h₃.1 h₃.2

theorem unlessExpression_yields (hg : Faithful g) : Yields (unlessExpression g) := by
  intro d owed unmade h
  refine condition_post hg h "<unless>" _ fun keyword condition body otherwise d₁ h₁ => ?_
  cases otherwise with
  | some other =>
    exact output_bind h₁ (fun _ => rfl) (fun _ => rfl) (by simp [Operation.reads, Known])
      (by simp [Operation.entered]) (fun _ => trivial) (fun _ => .refl _) (fun _ => .refl _)
      fun out d₂ h₂ => Ensures.pure (h₂.weaken (by simp))
  | none =>
    refine Ensures.bind (alloc_post h₁) fun out d₂ h₂ => ?_
    refine Ensures.bind (equalityBranch_post h₂.1 h₂.2) fun fused d₃ h₃ => ?_
    cases fused with
    | true => exact Ensures.pure h₃
    | false =>
      have hfits : Fits d₃ [condition] (body :: owed) unmade owed unmade
          (.branch false condition (some body) out) := by
        refine Fits.taking rfl ?_ ?_ (by simp [Operation.entered]) trivial (.refl _) (.refl _)
        · simp [Operation.reads, Known]
        · simpa [Operation.out?] using h₃.2
      refine Ensures.bind (emit_post h₃.1 hfits) fun _ d₄ h₄ => ?_
      exact Ensures.pure (h₄.1.weaken (by simp [Operation.out?]))

theorem doExpression_yields (hg : Faithful g) : Yields (doExpression g) := by
  intro d owed unmade h
  refine silent_advance.then fun keyword d₁ u₁ => ?_
  refine Ensures.bind (blockScope_post hg ((Reached.refl h).silent u₁) _ _ _ _) fun body d₂ h₂ => ?_
  refine (silent_expect _ _).then fun _ d₃ u₃ => ?_
  exact output_bind (h₂.silent u₃) (fun _ => rfl) (fun _ => rfl) (by simp [Operation.reads])
    (by simp [Operation.entered]) (fun _ => trivial) (fun _ => .refl _) (fun _ => .refl _)
    fun out d₄ h₄ => Ensures.pure h₄

theorem tryBody_post (hg : Faithful g) (h : Reached d₀ d held owed unmade) (keyword : Token)
    (blockForm : Bool) :
    Post (tryBody g keyword blockForm) d fun i d' => Reached d₀ d' held (i :: owed) unmade := by
  unfold tryBody
  split
  · exact blockScope_post hg h _ _ _ _
  · refine openScope_bind h.sound (by decide) fun d₁ o h₁ => ?_
    refine hg.expression.bind h₁ fun value d₂ h₂ => ?_
    refine Ensures.bind (return_post h₂ (Or.inr (by simp))) fun _ d₃ h₃ => ?_
    refine Ensures.bind (closeScope_post h.sound o h₃.1 h₃.2) fun _ d₄ h₄ => ?_
    exact Ensures.pure (h.trans h₄.1)

theorem tryExpression_yields (hg : Faithful g) : Yields (tryExpression g) := by
  intro d owed unmade h
  refine silent_advance.then fun keyword d₁ u₁ => (silent_checkAny _).then fun blockForm d₂ u₂ => ?_
  refine Ensures.bind (tryBody_post hg (((Reached.refl h).silent u₁).silent u₂) _ _)
    fun body d₃ h₃ => ?_
  have hrest : ∀ (handler : Target × Option Text) d₄,
      Reached d d₄ [] (handler.1.toList ++ body :: owed) unmade → Post (do
        let out ← alloc
        emit (.tryCatch (some body) handler.1 handler.2 out) keyword
        return out) d₄ fun r d' => Reached d d' [r] owed unmade := by
    intro handler d₄ h₄
    refine output_bind h₄ (fun _ => rfl) (fun _ => rfl) (by simp [Operation.reads]) (by simp [Operation.entered])
      (fun _ => trivial) (fun out => ?_) (fun _ => .refl _) fun out d₅ h₅ => Ensures.pure h₅
    obtain ⟨_ | i, name⟩ := handler
    · exact .refl _
    · exact .swap _ _ _
  refine (silent_accept _).then fun found d₄ u₄ => ?_
  have h₄ := h₃.silent u₄
  split
  · refine silent_previous.then fun site d₅ u₅ => (silent_check _).then fun named d₆ u₆ => ?_
    have hcatch : ∀ errorName d₇, Undisturbed d₆ d₇ → Post (do
        let handler ← blockScope g "<catch>" [.kwEnd] site errorName
        let _ ← expect .kwEnd "Expected 'end' to close 'catch'"
        let out ← alloc
        emit (.tryCatch (some body) (some handler) errorName out) keyword
        return out) d₇ fun r d' => Reached d d' [r] owed unmade := by
      intro errorName d₇ u₇
      have h₇ := ((h₄.silent u₅).silent u₆).silent u₇
      refine Ensures.bind (blockScope_post hg h₇ _ _ _ _) fun handler d₈ h₈ => ?_
      refine (silent_expect _ _).then fun _ d₉ u₉ => ?_
      exact hrest (some handler, errorName) d₉ (h₈.silent u₉)
    split
    · refine silent_advance.then fun t d₇ u₇ => ?_
      exact Ensures.pure_bind (hcatch (some t.text) d₇ u₇)
    · exact Ensures.pure_bind (hcatch none d₆ (Undisturbed.refl d₆))
  · split
    · refine (silent_expect _ _).then fun _ d₅ u₅ => ?_
      exact Ensures.pure_bind (hrest (none, none) d₅ (h₄.silent u₅))
    · exact Ensures.pure_bind (hrest (none, none) d₄ h₄)

theorem raiseExpression_yields (hg : Faithful g) : Yields (raiseExpression g) := by
  intro d owed unmade h
  refine silent_advance.then fun keyword d₁ u₁ => ?_
  refine hg.expression.bind ((Reached.refl h).silent u₁) fun value d₂ h₂ => ?_
  refine effect_bind h₂ (by simp [Operation.reads, Known]) rfl ⟨rfl, rfl, rfl, trivial⟩ ?_
  exact fun d₃ h₃ => Ensures.pure ((h₃.hold (known_none _)).weaken (by simp))

theorem returnExpression_yields (hg : Faithful g) : Yields (returnExpression g) := by
  intro d owed unmade h
  refine silent_advance.then fun keyword d₁ u₁ => silent_startsOperand.then fun found d₂ u₂ => ?_
  have h₂ := ((Reached.refl h).silent u₁).silent u₂
  refine Ensures.ite_bind (R := fun value d' => Reached d d' [value] owed unmade) ?_
    fun value d₃ h₃ => ?_
  · split
    · exact hg.expression.after h₂
    · exact Ensures.pure (h₂.hold (known_none _))
  refine effect_bind h₃ (by simp [Operation.reads, Known]) rfl ⟨rfl, rfl, rfl, trivial⟩ ?_
  exact fun d₄ h₄ => Ensures.pure ((h₄.hold (known_none _)).weaken (by simp))

abbrev YieldsOperand (x : Compile Operand) : Prop := Leaves (fun o => [o.register]) x

theorem call_post (hg : Faithful g) {op : List Register → Register → Operation} {site : Token}
    (h : Reached d₀ d held owed unmade) (callee : List Register) (hcallee : callee ⊆ held)
    (hreads : ∀ args out, (op args out).reads = callee ++ args)
    (hout : ∀ args out, (op args out).out? = some out)
    (hplain : ∀ args out, (op args out).entered = [] ∧ (op args out).spare = [] ∧
      (op args out).made = [] ∧ (op args out).Paired) :
    Post (do
      let args ← callArguments g
      let out ← alloc
      emit (op args out) site
      return (⟨out, none⟩ : Operand)) d fun o d' => Reached d₀ d' [o.register] owed unmade := by
  refine Ensures.bind ((callArguments_leaves hg).after h) fun args d₁ h₁ => ?_
  refine output_post h₁ (fun out r hr => Or.inr ?_) (hout args) (hplain args) fun out d₂ h₂ =>
    Ensures.pure (h₂.weaken (by simp))
  rw [hreads, List.mem_append] at hr
  exact List.mem_append.2 (hr.symm.imp_right fun hr => hcallee hr)

theorem identifier_yields (hg : Faithful g) : YieldsOperand (identifier g) := by
  intro d owed unmade h
  refine silent_advance.then fun name d₁ u₁ => (discreet_lookup _).then fun found d₂ u₂ => ?_
  have h₂ := ((Reached.refl h).silent u₁).silent u₂
  cases found with
  | some info =>
    refine output_post h₂ (by simp [Operation.reads]) (fun _ => rfl)
      (fun _ => ⟨rfl, rfl, rfl, trivial⟩) fun out d₃ h₃ => ?_
    split
    · exact call_post hg h₃ [out] (List.Subset.refl _) (fun _ _ => rfl) (fun _ _ => rfl)
        fun _ _ => ⟨rfl, rfl, rfl, trivial⟩
    · exact Ensures.pure h₃
  | none =>
    refine (silent_check _).then fun dot d₃ u₃ => (silent_peekAt 1).then fun next d₄ u₄ => ?_
    have h₄ := (h₂.silent u₃).silent u₄
    split
    · refine silent_advance.then fun _ d₅ u₅ => silent_advance.then fun function d₆ u₆ => ?_
      exact call_post hg ((h₄.silent u₅).silent u₆) [] (List.nil_subset _) (fun _ _ => rfl)
        (fun _ _ => rfl) fun _ _ => ⟨rfl, rfl, rfl, trivial⟩
    · exact call_post hg h₄ [] (List.nil_subset _) (fun _ _ => rfl) (fun _ _ => rfl)
        fun _ _ => ⟨rfl, rfl, rfl, trivial⟩

theorem plainOperand_yields {x : Compile Register} (hx : Yields x) :
    YieldsOperand (plainOperand x) := hx.map fun _ => List.Subset.refl _

theorem primary_yields (hg : Faithful g) : YieldsOperand (primary g) := by
  refine silent_peek.leaves fun t => ?_
  have hliteral : ∀ v, YieldsOperand (do let _ ← advance; plainOperand (loadLiteral v t)) := fun v =>
    silent_advance.leaves fun _ => plainOperand_yields (loadLiteral_yields v t)
  split
  · refine silent_advance.leaves fun _ => plainOperand_yields ?_
    exact (silent_numberLiteral t).leaves fun n => loadLiteral_yields _ t
  · exact hliteral _
  · exact hliteral _
  · exact hliteral _
  · refine silent_advance.leaves fun _ d owed unmade h => Ensures.pure ?_
    exact (Reached.refl h).hold (known_none _)
  · exact plainOperand_yields (listLiteral_yields hg)
  · exact plainOperand_yields (mapLiteral_yields hg)
  · exact plainOperand_yields (parenthesized_yields hg)
  · exact plainOperand_yields (ifExpression_yields hg)
  · exact plainOperand_yields (unlessExpression_yields hg)
  · exact plainOperand_yields (doExpression_yields hg)
  · exact plainOperand_yields (tryExpression_yields hg)
  · exact plainOperand_yields (raiseExpression_yields hg)
  · exact plainOperand_yields (returnExpression_yields hg)
  · exact plainOperand_yields (lambda_yields hg)
  · exact plainOperand_yields (lambda_yields hg)
  · exact identifier_yields hg
  · exact fun _ _ _ _ => trivial
  · exact fun _ _ _ _ => trivial

section
variable {target : Operand}

theorem methodCall_post (hg : Faithful g) (h : Reached d₀ d [target.register] owed unmade) :
    Post (methodCall g target) d fun o d' => Reached d₀ d' [o.register] owed unmade := by
  refine silent_advance.then fun dot d₁ u₁ => (silent_expect _ _).then fun method d₂ u₂ => ?_
  exact call_post hg ((h.silent u₁).silent u₂) [target.register] (List.Subset.refl _)
    (fun _ _ => rfl) (fun _ _ => rfl) fun _ _ => ⟨rfl, rfl, rfl, trivial⟩

theorem indexing_post (hg : Faithful g) (h : Reached d₀ d [target.register] owed unmade) :
    Post (indexing g target) d fun o d' => Reached d₀ d' [o.register] owed unmade := by
  refine silent_advance.then fun site d₁ u₁ => silent_skipNewlines.then fun _ d₂ u₂ => ?_
  refine hg.expression.bind ((h.silent u₁).silent u₂) fun index d₃ h₃ => ?_
  refine silent_skipNewlines.then fun _ d₄ u₄ => (silent_expect _ _).then fun _ d₅ u₅ => ?_
  refine output_post ((h₃.silent u₄).silent u₅) ?_ (fun _ => rfl)
    (fun _ => ⟨rfl, rfl, rfl, trivial⟩) fun out d₆ h₆ => Ensures.pure (h₆.weaken (by simp))
  simp [Operation.reads, Known]

theorem valueCall_post (hg : Faithful g) (h : Reached d₀ d [target.register] owed unmade) :
    Post (valueCall g target) d fun o d' => Reached d₀ d' [o.register] owed unmade := by
  refine silent_peek.then fun site d₁ u₁ => ?_
  exact call_post hg (h.silent u₁) [target.register] (List.Subset.refl _) (fun _ _ => rfl)
    (fun _ _ => rfl) fun _ _ => ⟨rfl, rfl, rfl, trivial⟩

theorem suffixes_post (hg : Faithful g) (h : Reached d₀ d [target.register] owed unmade) :
    Post (suffixes g target) d fun o d' => Reached d₀ d' [o.register] owed unmade := by
  refine whileReading_post (I := fun (o : Operand) d' => Reached d₀ d' [o.register] owed unmade) ?_ h
  intro target d h
  refine silent_peek.then fun t d₁ u₁ => ?_
  have h₁ := h.silent u₁
  split
  · exact Ensures.bind (methodCall_post hg h₁) fun o d₂ h₂ => Ensures.pure h₂
  split
  · exact Ensures.bind (indexing_post hg h₁) fun o d₂ h₂ => Ensures.pure h₂
  split
  · exact Ensures.bind (valueCall_post hg h₁) fun o d₂ h₂ => Ensures.pure h₂
  refine (silent_peekAt 1).then fun next d₂ u₂ => ?_
  split
  · refine silent_advance.then fun bang d₃ u₃ => silent_advance.then fun _ d₄ u₄ => ?_
    refine effect_bind (((h₁.silent u₂).silent u₃).silent u₄) (by simp [Operation.reads, Known]) rfl
      ⟨rfl, rfl, rfl, trivial⟩ fun d₅ h₅ => Ensures.pure h₅
  · exact Ensures.pure (h₁.silent u₂)

end

theorem operand_yields (hg : Faithful g) : Yields (operand g) := by
  refine silent_peek.leaves fun t => (silent_peekAt 1).leaves fun next => ?_
  have hsuffixes : ∀ d d₁ (o : Operand) owed unmade, Reached d d₁ [o.register] owed unmade → Post (do
      return (← suffixes g o).register) d₁ fun r d' => Reached d d' [r] owed unmade := by
    intro d d₁ o owed unmade h
    exact Ensures.bind (suffixes_post hg h) fun o d₂ h₂ => Ensures.pure h₂
  split
  · refine silent_advance.leaves fun _ => silent_advance.leaves fun number => ?_
    refine (silent_numberLiteral number).leaves fun n => ?_
    intro d owed unmade h
    refine (loadLiteral_yields _ t).bind (Reached.refl h) fun literal d₁ h₁ => ?_
    exact hsuffixes d d₁ ⟨literal, none⟩ owed unmade h₁
  · split
    · refine silent_advance.leaves fun _ d owed unmade h => ?_
      refine hg.operand.bind (Reached.refl h) fun inner d₁ h₁ => ?_
      refine output_post h₁ (by simp [Operation.reads, Known]) (fun _ => rfl)
        (fun _ => ⟨rfl, rfl, rfl, trivial⟩) fun out d₂ h₂ => Ensures.pure (h₂.weaken (by simp))
    · intro d owed unmade h
      refine Ensures.bind (primary_yields hg d owed unmade h) fun o d₁ h₁ => ?_
      exact hsuffixes d d₁ o owed unmade h₁

theorem operatorStep_post (hg : Faithful g) {left : Register}
    (h : Reached d₀ d [left] owed unmade) :
    Post (operatorStep g left) d fun r d' => Reached d₀ d' [r.1] owed unmade := by
  refine silent_peek.then fun t d₁ u₁ => ?_
  have h₁ := h.silent u₁
  have hrange : ∀ inclusive : Bool, Post (do
      let _ ← advance
      let stop ← g.operand
      let out ← alloc
      emit (.makeRange left stop inclusive out) t
      return (out, true)) d₁ fun r d' => Reached d₀ d' [r.1] owed unmade := by
    intro inclusive
    refine silent_advance.then fun _ d₂ u₂ => ?_
    refine hg.operand.bind (h₁.silent u₂) fun stop d₃ h₃ => ?_
    exact output_post h₃ (by simp [Operation.reads, Known]) (fun _ => rfl)
      (fun _ => ⟨rfl, rfl, rfl, trivial⟩) fun out d₄ h₄ => Ensures.pure (h₄.weaken (by simp))
  split
  · refine silent_advance.then fun _ d₂ u₂ => silent_typeName.then fun type d₃ u₃ => ?_
    exact output_post ((h₁.silent u₂).silent u₃) (by simp [Operation.reads, Known]) (fun _ => rfl)
      (fun _ => ⟨rfl, rfl, rfl, trivial⟩) fun out d₄ h₄ => Ensures.pure (h₄.weaken (by simp))
  · exact hrange _
  · exact hrange _
  · split
    · refine silent_advance.then fun _ d₂ u₂ => silent_skipNewlines.then fun _ d₃ u₃ => ?_
      refine hg.operand.bind ((h₁.silent u₂).silent u₃) fun right d₄ h₄ => ?_
      exact output_post h₄ (by simp [Operation.reads, Known]) (fun _ => rfl)
        (fun _ => ⟨rfl, rfl, rfl, trivial⟩) fun out d₅ h₅ => Ensures.pure (h₅.weaken (by simp))
    · exact Ensures.pure h₁

theorem expression_yields (hg : Faithful g) : Yields (expression g) := by
  intro d owed unmade h
  refine hg.operand.bind (Reached.refl h) fun first d₁ h₁ => ?_
  exact whileReading_post (I := fun r d' => Reached d d' [r] owed unmade)
    (fun left d₂ h₂ => operatorStep_post hg h₂) h₁

end Compile

end ScriptMachine
