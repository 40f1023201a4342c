import ScriptMachine.Proofs.Compiler.ResolvedDeclarations
import ScriptMachine.Proofs.Compiler.Compiled

set_option autoImplicit false

namespace ScriptMachine

/-- All names in the program have a meaning, and every body belongs to one function or closure. -/
structure Program.Lexical (p : Program) : Prop where
  main : p.Resolves (p.Scoped 0) .main
  functions : p.Settled
  inventory : p.Inventory

namespace Compile

variable {d : Draft} {g : Grammar}

theorem binding_grows (hg : Resolving g) (isMutable : Bool) : Follows Grows (binding g isMutable) := by
  refine silent_advance.before fun keyword => (silent_expect _ _).before fun name => ?_
  refine (silent_expect _ _).before fun _ => (guardedExpression_composes hg).grows.bind fun value => ?_
  cases isMutable with
  | true => exact record_grows rfl rfl rfl rfl rfl keyword _ (Follows.pure value)
  | false => exact record_grows rfl rfl rfl rfl rfl keyword _ (Follows.pure value)

/-- What is assigned has a meaning, or is declared from then on. -/
theorem assignment_grows (hg : Resolving g) : Follows Grows (assignment g) := by
  refine silent_advance.before fun name => silent_advance.before fun _ => grows_of fun bound d ht => ?_
  refine Ensures.bind (lookup_composed ht name.text) fun found d₁ h₁ => ?_
  cases found with
  | some info =>
    dsimp only
    split
    · exact trivial
    refine h₁.1.next (guardedExpression_composes hg) fun value d₂ c₂ e₂ => ?_
    have hmeaning := (e₂.whole_within h₁.1.tidy.layered).isSome (h₁.2 rfl)
    exact Ensures.bind (c₂.use name rfl rfl rfl rfl rfl hmeaning) fun _ d₃ c₃ =>
      Ensures.pure c₃.toGrown
  | none =>
    refine h₁.1.next (guardedExpression_composes hg) fun value d₂ c₂ _ => ?_
    have hrecord : Follows Grows do
        emit (.loadLet name.text value) name
        declareAs name.text ⟨false, false⟩
        return value :=
      record_grows rfl rfl rfl rfl rfl _ _ (Follows.pure _)
    exact (hrecord d₂).imp fun _ d₃ h₃ => c₂.toGrown.trans (h₃ bound c₂.tidy)

theorem compoundAssignment_composes (hg : Resolving g) (op : BinaryOp) :
    Follows Composes (compoundAssignment g op) := by
  refine silent_advance.before fun name => silent_advance.before fun sign =>
    composes_of fun bound d ht => ?_
  refine Ensures.bind (lookup_composed ht name.text) fun found d₁ h₁ => ?_
  cases found with
  | none => exact trivial
  | some info =>
    dsimp only
    split
    · exact trivial
    have hlater : ∀ d', Composed bound d₁ d' → (d'.whole bound name.text).isSome := fun d' e =>
      (e.whole_within h₁.1.tidy.layered).isSome (h₁.2 rfl)
    refine (Composed.refl h₁.1.tidy).next alloc_follows fun current d₂ c₂ _ => ?_
    refine Ensures.bind (c₂.use name rfl rfl rfl rfl rfl (hlater d₂ c₂)) fun _ d₃ c₃ => ?_
    refine c₃.next (guardedExpression_composes hg) fun right d₄ c₄ _ => ?_
    refine c₄.next alloc_follows fun out d₅ c₅ _ => ?_
    refine c₅.next (emit_follows (Operation.Bare.plain ⟨rfl, rfl, rfl, rfl⟩ rfl) sign) ?_
    intro _ d₆ c₆ _
    refine Ensures.bind (c₆.use name rfl rfl rfl rfl rfl (hlater d₆ c₆)) fun _ d₇ c₇ => ?_
    exact Ensures.pure (h₁.1.trans c₇)

theorem putsStatement_composes (hg : Resolving g) (keyword : Token) :
    Follows Composes (putsStatement g keyword) := by
  refine silent_startsOperand.before fun found => ?_
  refine Follows.ite_bind (items_compose hg) (Follows.pure _) fun values => ?_
  exact (emit_follows (Operation.Bare.plain ⟨rfl, rfl, rfl, rfl⟩ rfl) _).bind fun _ => Follows.pure _

theorem logStatement_composes (hg : Resolving g) (keyword : Token) :
    Follows Composes (logStatement g keyword) := by
  refine (silent_expect _ _).before fun levelToken => ?_
  split
  · exact fun _ => trivial
  refine (silent_expect _ _).before fun _ => (silent_expect _ _).before fun template => ?_
  refine (silent_accept _).before fun found => ?_
  refine Follows.ite_bind (items_compose hg) (Follows.pure _) fun values => ?_
  exact (emit_follows (Operation.Bare.plain ⟨rfl, rfl, rfl, rfl⟩ rfl) _).bind fun _ => Follows.pure _

theorem simpleStatement_composes (hg : Resolving g) : Follows Composes (simpleStatement g) := by
  refine silent_peek.before fun t => composes_of fun bound d ht => Ensures.run (codeSize_eq d) ?_
  refine (Composed.refl ht).next (silent_accept _).follows fun puts d₁ c₁ _ => ?_
  dsimp only
  split
  · exact c₁.next (putsStatement_composes hg t) fun value d₂ c₂ _ => guards_since hg c₂ value
  refine c₁.next (silent_accept _).follows fun log d₂ c₂ _ => ?_
  split
  · exact c₂.next (logStatement_composes hg t) fun value d₃ c₃ _ => guards_since hg c₃ value
  · exact c₂.next hg.expression fun value d₃ c₃ _ => guards_since hg c₃ value

theorem atTopLevel_post {bound : List (List Text)} (ht : Tidy bound d) :
    Post atTopLevel d fun top d' => Still d d' ∧ (top = true → bound = []) := by
  refine Ensures.get_bind (Ensures.pure ⟨Still.refl d, fun htop => ?_⟩)
  have hlength : d.opened.length = 1 := of_decide_eq_true htop
  rw [ht.layered.length] at hlength
  exact List.length_eq_zero_iff.1 (Nat.succ.inj hlength)

theorem topLevel_grows {declaration : Compile Unit} (site : Token) (what : Text)
    (h : GrowsAtTop declaration) : Follows Grows (topLevel site what declaration) := by
  refine grows_of fun bound d ht => ?_
  refine Ensures.bind (R := fun _ d' => Still d d' ∧ bound = []) ?_ fun _ d₁ h₁ => ?_
  · refine Ensures.bind (atTopLevel_post ht) fun top d₁ h₁ => ?_
    split
    · exact Ensures.pure ⟨h₁.1, h₁.2 ‹_›⟩
    · exact trivial
  · obtain ⟨u₁, rfl⟩ := h₁
    have c₁ := still_composed ht u₁
    exact Ensures.bind (h.after c₁.toGrown) fun _ d₂ c₂ => Ensures.pure c₂

theorem statement_grows (hg : Resolving g) : Follows Grows (statement g) := by
  refine silent_peek.before fun t => ?_
  split
  · exact binding_grows hg false
  · exact binding_grows hg true
  · refine grows_of fun bound d ht => Ensures.bind (atTopLevel_post ht) fun top d₁ h₁ => ?_
    have c₁ := (still_composed ht h₁.1).toGrown
    split
    · obtain rfl := h₁.2 ‹_›
      exact Ensures.bind ((functionDefinition_grows hg).after c₁) fun _ d₂ c₂ => Ensures.pure c₂
    · exact (nestedFunction_grows hg d₁).imp fun _ _ h => c₁.trans (h bound c₁.tidy)
  · exact topLevel_grows _ _ (functionDefinition_grows hg)
  · exact topLevel_grows _ _ (traitDeclaration_grows hg)
  · exact topLevel_grows _ _ (implBlock_grows hg)
  · exact topLevel_grows _ _ (objectDeclaration_grows hg)
  · exact topLevel_grows _ _ importStatement_grows
  · refine (silent_peekAt 1).before fun next => Follows.ite (assignment_grows hg) ?_
    split
    · exact (compoundAssignment_composes hg _).grows
    · exact (simpleStatement_composes hg).grows
  · exact (simpleStatement_composes hg).grows

theorem grammar_resolving (depth : Nat) : Resolving (grammar depth) := by
  induction depth with
  | zero => exact ⟨fun _ => trivial, fun _ => trivial, fun _ => trivial⟩
  | succ depth ih => exact ⟨expression_composes ih, operand_composes ih, statement_grows ih⟩

theorem tidy_main {s : Scope} {u : OpenScope} (hscopes : d.program.scopes = #[s])
    (hcode : s.operations = []) (hmodules : d.program.modules = .empty)
    (hclosures : d.program.closures = #[]) (hopened : d.opened = [u]) (hu : u.scope = 0)
    (hfunction : u.isFunction = false) (hnames : u.names = [])
    (hbuiltins : ∀ b ∈ d.builtins, ∀ e ∈ b.traits, e.2.Inert) : Tidy [] d := by
  have hmain : d.program.codeOf 0 = [] := by simp [Program.codeOf, hscopes, hcode]
  have htop : ∀ n, Environment.topLevel d.program n = none := by
    simp [Environment.topLevel, hmain]
  have hl : d.Layered [] := by
    unfold Draft.Layered
    rw [hopened]
    exact .main hu (by simp [hscopes]) hfunction (by simp [hnames, htop])
  refine ⟨hl, fun k op hop => ?_, fun _ => ?_, ?_, hbuiltins⟩
  · rw [hl.standing_scope, hl.current_main, hmain] at hop
    cases hop
  · simp [Program.Settled, hmodules, Registry.empty]
  · refine ⟨?_, ?_, ?_, ?_, ?_, ⟨?_, ?_⟩, ?_⟩
    all_goals simp [hclosures, hmodules, Registry.empty]

theorem wholeProgram_lexical (hg : Resolving g) (hscopes : d.program.scopes = #[])
    (hmodules : d.program.modules = .empty) (hclosures : d.program.closures = #[])
    (hopened : d.opened = []) (hbuiltins : ∀ b ∈ d.builtins, ∀ e ∈ b.traits, e.2.Inert) :
    Post (wholeProgram g) d fun _ d' => d'.program.Lexical := by
  refine Ensures.bind (silent_peek d) fun t d₁ u₁ => ?_
  refine Ensures.bind (R := fun _ d₂ => Tidy [] d₂) ?_ fun _ d₂ ht => ?_
  · refine Ensures.intro (fun i d₂ hr => ?_) fun _ _ _ => trivial
    cases hr
    refine tidy_main (s := ⟨"<main>", .main, [], #[], firstScratch, place t, [], none⟩)
      (u := ⟨d₁.program.scopes.size, [], false, false, []⟩) ?_ rfl ?_ ?_ ?_ ?_ rfl rfl ?_
    · simp [u₁.program, hscopes]
    · simp [u₁.program, hmodules]
    · simp [u₁.program, hclosures]
    · simp [u₁.opened, hopened]
    · simp [u₁.program, hscopes]
    · simpa [u₁.builtins] using hbuiltins
  refine (Composed.refl ht).toGrown.next (block_grows hg []) fun last d₃ c₃ => ?_
  refine c₃.next silent_isAtEnd.follows fun atEnd d₄ c₄ => ?_
  split
  · refine c₄.next silent_peek.follows fun t d₅ c₅ => ?_
    refine c₅.next (emit_follows (Operation.Bare.plain ⟨rfl, rfl, rfl, rfl⟩ rfl) t).grows ?_
    intro _ d₆ c₆
    have ht₆ := c₆.tidy
    have hcode := ht₆.code
    rw [ht₆.layered.current_main, Draft.standing, standing_main] at hcode
    exact Ensures.change ⟨hcode, ht₆.functions rfl, ht₆.inventory⟩
  · exact silent_peek.then fun _ _ _ => trivial

end Compile

theorem compileTokens_lexical {builtins : Option Registry} {id : Nat} {tokens : List Token}
    {p : Program} (hbuiltins : ∀ b ∈ builtins, ∀ e ∈ b.traits, e.2.Inert)
    (h : compileTokens builtins id tokens = .ok p) : p.Lexical := by
  unfold compileTokens at h
  dsimp only at h
  split at h
  · rename_i d hd
    cases h
    exact (Compile.wholeProgram_lexical (Compile.grammar_resolving _) rfl rfl rfl rfl
      hbuiltins).of_ok hd
  · cases h

end ScriptMachine
